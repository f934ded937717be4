-- SUMMARY: Pruning keeps behaviour: the same instructions on the same states, the same decisions, the same end.
import SsaFlow.Proofs.Assembled
import SsaFlow.Proofs.Machine

/-!
# Behaviour

Here nothing is assumed about what instructions do: a `Meaning` gives any effect on any type of states. A
run through at most `fuel` blocks gives the events seen so far and, if it has come to an end, how it ends.
Runs are compared by `Approx`: the one run may stop short of the other. Two graphs behave alike if each
run of the one is approximated by a longer run of the other, so endless runs are compared as well.
-/

namespace SsaFlow

/-- What instructions and operands mean over a type of states. -/
structure Meaning (σ V : Type) where
  exec : Instr → σ → σ
  value : Operand → σ → V
  /-- Which way a branch takes. -/
  truthy : V → Bool
  /-- Whether a selection takes the case of a number. -/
  isCase : V → Int → Bool

/-- What can be seen of a run. -/
inductive Event (σ V : Type) where
  /-- An instruction is carried out in a state. -/
  | executed (i : Instr) (state : σ)
  /-- A branch or a selection reads the value that it goes by. -/
  | decided (op : Operand) (value : V)

/-- How a run ends, with the state that it ends in. -/
inductive Ending (σ V : Type) where
  | returned (value : Option V) (state : σ)
  /-- The jump of a block is missing. -/
  | undecided (state : σ)

/-- A run as far as it was followed. -/
structure Partial (σ V : Type) where
  events : List (Event σ V)
  ending : Option (Ending σ V)

namespace Meaning

variable {σ V : Type} (M : Meaning σ V)

/-- The events of instructions carried out one after the other, and the state after them. -/
def execAll : List Instr → σ → List (Event σ V) × σ
  | [], st => ([], st)
  | i :: is, st =>
    let (events, st') := execAll is (M.exec i st)
    (.executed i st :: events, st')

/-- What is seen of a jump. -/
def decisions (st : σ) : Jump → List (Event σ V)
  | .branch op _ _ | .select op _ _ => [.decided op (M.value op st)]
  | .missing | .goto _ | .ret .. | .transfer .. => []

def exit (st : σ) : Jump → Machine.Exit V
  | .missing => .undecided
  | .goto target | .transfer target _ => .goto target
  | .branch cond t e => .goto (if M.truthy (M.value cond st) then t else e)
  | .ret _ value => .ret (value.map fun op => M.value op st)
  | .select value options default =>
    .goto (((options.find? fun o => M.isCase (M.value value st) o.1).map Prod.snd).getD default)

def run (g : FlowGraph) : (fuel : Nat) → BlockId → σ → Partial σ V
  | 0, _, _ => ⟨[], none⟩
  | fuel + 1, b, st =>
    let (events, st') := M.execAll (g.block b).instrs.toList st
    let events := events ++ M.decisions st' (g.jump b)
    match M.exit st' (g.jump b) with
    | .ret value => ⟨events, some (.returned value st')⟩
    | .undecided => ⟨events, some (.undecided st')⟩
    | .goto c =>
      let rest := run g fuel c st'
      ⟨events ++ rest.events, rest.ending⟩

end Meaning

/-! ## Runs that go further than others -/

namespace Partial

variable {σ V : Type} {r s t : Partial σ V}

/-- The second run agrees with the first and may go further. -/
structure Approx (r s : Partial σ V) : Prop where
  events : r.events <+: s.events
  ended : r.ending ≠ none → s = r

theorem Approx.refl (r : Partial σ V) : Approx r r := ⟨List.prefix_refl _, fun _ => rfl⟩

theorem Approx.trans (hrs : Approx r s) (hst : Approx s t) : Approx r t where
  events := hrs.events.trans hst.events
  ended h := by
    have hs := hrs.ended h
    rw [hst.ended (hs ▸ h), hs]

/-- Nothing has been seen at the start. -/
theorem Approx.start (r : Partial σ V) : Approx ⟨[], none⟩ r :=
  ⟨List.nil_prefix, fun h => absurd rfl h⟩

theorem Approx.getElem?_events (h : Approx r s) {k : Nat} {e : Event σ V} (hk : r.events[k]? = some e) :
    s.events[k]? = some e := by
  obtain ⟨more, hmore⟩ := h.events
  rw [← hmore, List.getElem?_append_left (List.getElem?_eq_some_iff.mp hk).1]
  exact hk

theorem Approx.after (es : List (Event σ V)) (h : Approx r s) :
    Approx ⟨es ++ r.events, r.ending⟩ ⟨es ++ s.events, s.ending⟩ where
  events := (List.prefix_append_right_inj es).mpr h.events
  ended hend := by
    rw [h.ended hend]

end Partial

/-- Control goes to `dst` instead of to `src`. -/
def Machine.Exit.redirect {V : Type} (src dst : BlockId) : Machine.Exit V → Machine.Exit V
  | .goto target => .goto (Jump.redirect.swap src dst target)
  | .ret value => .ret value
  | .undecided => .undecided

namespace Meaning

variable {σ V : Type} (M : Meaning σ V)

open Partial FlowGraph

/-- Runs from blocks with the same code go on alike if they do so from where control goes next. -/
theorem run_succ_approx {g g' : FlowGraph} {b b' : BlockId} {m n : Nat}
    (hcode : (g'.block b').instrs = (g.block b).instrs)
    (hdecisions : ∀ st, M.decisions st (g'.jump b') = M.decisions st (g.jump b))
    (hends : ∀ st, (∀ c, M.exit st (g.jump b) ≠ .goto c) →
      M.exit st (g'.jump b') = M.exit st (g.jump b))
    (hgoto : ∀ st c, M.exit st (g.jump b) = .goto c →
      ∃ c', M.exit st (g'.jump b') = .goto c' ∧ Approx (M.run g m c st) (M.run g' n c' st)) (st : σ) :
    Approx (M.run g (m + 1) b st) (M.run g' (n + 1) b' st) := by
  simp only [run, hcode, hdecisions]
  generalize (M.execAll (g.block b).instrs.toList st).2 = st'
  cases hexit : M.exit st' (g.jump b) with
  | goto c =>
    obtain ⟨c', hexit', hrest⟩ := hgoto st' c hexit
    rw [hexit']
    exact hrest.after _
  | ret value =>
    rw [hends st' (by simp [hexit]), hexit]
    exact .refl _
  | undecided =>
    rw [hends st' (by simp [hexit]), hexit]
    exact .refl _

/-- With more fuel a run goes on where it was cut off. -/
theorem run_approx_add (g : FlowGraph) (n k : Nat) (b : BlockId) (st : σ) :
    Approx (M.run g n b st) (M.run g (n + k) b st) := by
  induction n generalizing b st with
  | zero => exact .start _
  | succ n ih =>
    rw [Nat.add_right_comm]
    exact M.run_succ_approx rfl (fun _ => rfl) (fun _ _ => rfl) (fun st c hc => ⟨c, hc, ih c st⟩) st

/-- A block without instructions that always goes to `target` adds nothing to a run. -/
theorem run_of_isEmpty {g : FlowGraph} {b target : BlockId} (hempty : (g.block b).isEmpty = true)
    (hjump : (g.jump b).onlyTarget? = some target) (n : Nat) (st : σ) :
    M.run g (n + 1) b st = M.run g n target st := by
  have hcode : (g.block b).instrs = #[] := by
    rw [Block.isEmpty, Bool.and_eq_true] at hempty
    exact Array.isEmpty_iff.mp hempty.2
  cases hj : g.jump b with
  | goto t | transfer t _ =>
    rw [hj, Jump.onlyTarget?, Option.some.injEq] at hjump
    subst hjump
    simp [run, hj, hcode, execAll, decisions, exit]
  | missing | branch _ _ _ | ret _ _ | select _ _ _ =>
    rw [hj] at hjump
    cases hjump

/-- Control goes to a target of the jump. -/
theorem mem_targets_of_exit {st : σ} {j : Jump} {c : BlockId} (h : M.exit st j = .goto c) :
    c ∈ j.targets := by
  cases j with
  | missing | ret _ _ => exact nomatch h
  | goto t | transfer t _ =>
    cases h
    exact List.mem_singleton_self _
  | branch cond t e =>
    cases h
    exact Jump.ite_mem_targets _ _ _ _
  | select value options default =>
    cases h
    exact Jump.find?_mem_targets _ _ _ _

/-- What no walk reaches does not matter for a run. -/
theorem run_congr {g g' : FlowGraph} (hsame : ∀ b, Reachable g.Edge entry b →
      (g'.block b).instrs = (g.block b).instrs ∧ g'.jump b = g.jump b) (n : Nat) {b : BlockId}
    (hb : Reachable g.Edge entry b) (st : σ) : M.run g' n b st = M.run g n b st := by
  induction n generalizing b st with
  | zero => rfl
  | succ n ih =>
    obtain ⟨hcode, hjump⟩ := hsame b hb
    simp only [run, hcode, hjump]
    generalize (M.execAll (g.block b).instrs.toList st).2 = st'
    cases hexit : M.exit st' (g.jump b) with
    | ret value | undecided => rfl
    | goto c =>
      dsimp only
      rw [ih (hb.step (M.mem_targets_of_exit hexit))]

/-! ## Bypassing a block -/

@[simp] theorem decisions_redirect (src dst : BlockId) (st : σ) (j : Jump) :
    M.decisions st (j.redirect src dst) = M.decisions st j := by
  cases j <;> rfl

/-- A redirected jump leads where the jump leads, redirected. -/
theorem exit_redirect (src dst : BlockId) (st : σ) (j : Jump) :
    M.exit st (j.redirect src dst) = (M.exit st j).redirect src dst := by
  cases j with
  | missing | goto _ | transfer _ _ | ret _ _ => rfl
  | branch cond t e =>
    simp only [Jump.redirect, exit, Machine.Exit.redirect]
    split <;> rfl
  | select value options default =>
    simp only [Jump.redirect, exit, Machine.Exit.redirect, List.find?_map, Function.comp_def]
    cases options.find? fun o => M.isCase (M.value value st) o.1 <;> rfl

section Bypass

variable {g : FlowGraph} {b target : BlockId}

theorem exit_collapse (hb : g.Bypassable b target) (hg : g.Linked) {c : BlockId} (hc : c ≠ b) (st : σ) :
    M.exit st ((g.collapse b target).jump c) = (M.exit st (g.jump c)).redirect b target := by
  rw [hb.jump_collapse hg hc, exit_redirect]

theorem decisions_collapse (hb : g.Bypassable b target) (hg : g.Linked) {c : BlockId} (hc : c ≠ b)
    (st : σ) : M.decisions st ((g.collapse b target).jump c) = M.decisions st (g.jump c) := by
  rw [hb.jump_collapse hg hc, decisions_redirect]

/-- A run that would enter the bypassed block enters its target. -/
theorem run_approx_collapse (hb : g.Bypassable b target) (hg : g.Linked) (n : Nat) (c : BlockId)
    (st : σ) :
    Approx (M.run g n c st) (M.run (g.collapse b target) n (Jump.redirect.swap b target c) st) := by
  obtain ⟨-, hcode, -, -⟩ := hb.collapse_spec hg
  induction n generalizing c st with
  | zero => exact .start _
  | succ n ih =>
    by_cases hc : c = b
    · have htarget := ih target st
      rw [hc, M.run_of_isEmpty hb.isEmpty hb.onlyTarget]
      rw [Jump.redirect.swap, if_neg hb.ne] at htarget
      rw [Jump.redirect.swap, if_pos rfl]
      exact htarget.trans (M.run_approx_add _ n 1 target st)
    · rw [Jump.redirect.swap, if_neg hc]
      refine M.run_succ_approx (hcode.instrs c) (M.decisions_collapse hb hg hc) (fun st hends => ?_)
        (fun st d hd => ⟨_, ?_, ih d st⟩) st
      · rw [M.exit_collapse hb hg hc]
        cases hexit : M.exit st (g.jump c) with
        | goto d => exact absurd hexit (hends d)
        | ret value | undecided => rfl
      · rw [M.exit_collapse hb hg hc, hd]
        rfl

/-- A run past the bypassed block takes at most twice as many blocks where it is still there. -/
theorem run_collapse_approx (hb : g.Bypassable b target) (hg : g.Linked) (n : Nat) {c : BlockId}
    (hc : c ≠ b) (st : σ) :
    Approx (M.run (g.collapse b target) n c st) (M.run g (2 * n) c st) := by
  obtain ⟨-, hcode, -, -⟩ := hb.collapse_spec hg
  -- one block here is at most two blocks there, a block and then the bypassed one
  induction n generalizing c st with
  | zero => exact .start _
  | succ n ih =>
    refine M.run_succ_approx (n := 2 * n + 1) (hcode.instrs c).symm
      (fun st => (M.decisions_collapse hb hg hc st).symm) (fun st hends => ?_) (fun st d hd => ?_) st
    · rw [M.exit_collapse hb hg hc] at hends ⊢
      cases hexit : M.exit st (g.jump c) with
      | goto d => exact absurd (by rw [hexit]; rfl) (hends (Jump.redirect.swap b target d))
      | ret value | undecided => rfl
    · rw [M.exit_collapse hb hg hc] at hd
      cases hexit : M.exit st (g.jump c) with
      | ret value | undecided =>
        rw [hexit] at hd
        cases hd
      | goto d' =>
        rw [hexit] at hd
        cases hd
        refine ⟨d', rfl, ?_⟩
        by_cases hd' : d' = b
        · rw [hd', Jump.redirect.swap, if_pos rfl, M.run_of_isEmpty hb.isEmpty hb.onlyTarget]
          exact ih hb.ne st
        · rw [Jump.redirect.swap, if_neg hd']
          exact (ih hd' st).trans (M.run_approx_add g (2 * n) 1 d' st)

end Bypass

/-! ## Graphs that behave alike -/

/-- Each run of the one graph is matched by a run of the other that goes as far. -/
structure Alike (g g' : FlowGraph) : Prop where
  mimicked : ∀ st n, ∃ m, Approx (M.run g n entry st) (M.run g' m entry st)
  mimics : ∀ st n, ∃ m, Approx (M.run g' n entry st) (M.run g m entry st)

namespace Alike

variable {M} {g g' g'' : FlowGraph}

theorem trans (h : M.Alike g g') (k : M.Alike g' g'') : M.Alike g g'' where
  mimicked st n := by
    obtain ⟨m, hm⟩ := h.mimicked st n
    obtain ⟨l, hl⟩ := k.mimicked st m
    exact ⟨l, hm.trans hl⟩
  mimics st n := by
    obtain ⟨m, hm⟩ := k.mimics st n
    obtain ⟨l, hl⟩ := h.mimics st m
    exact ⟨l, hm.trans hl⟩

theorem of_run_eq (h : ∀ n st, M.run g' n entry st = M.run g n entry st) : M.Alike g g' where
  mimicked st n := ⟨n, h n st ▸ .refl _⟩
  mimics st n := ⟨n, h n st ▸ .refl _⟩

theorem collapse {b target : BlockId} (hb : g.Bypassable b target) (hg : g.Linked) (hentry : entry ≠ b) :
    M.Alike g (g.collapse b target) where
  mimicked st n := by
    have happrox := M.run_approx_collapse hb hg n entry st
    rw [Jump.redirect.swap, if_neg hentry] at happrox
    exact ⟨n, happrox⟩
  mimics st n := ⟨2 * n, M.run_collapse_approx hb hg n hentry st⟩

/-- Pruning keeps the behaviour of a graph. -/
theorem prune (h : g.Intact) : M.Alike g g.prune.1 := by
  obtain ⟨c, dead, hc, hshrunk, hdead, hprune⟩ := h.prune_eq
  have hcollapsed : M.Alike g c := by
    rw [hc]
    have hstart : Shrunk g g.forgetAnalyses := (Shrunk.refl h).of_blocks_eq rfl rfl
    have hrun : ∀ n st, M.run g.forgetAnalyses n entry st = M.run g n entry st := by
      intro n st
      refine M.run_congr (fun b _ => ?_) n .root st
      exact ⟨rfl, rfl⟩
    refine (collapseAll_induction (P := fun g' => Shrunk g g' ∧ M.Alike g g') ?_ _
      ⟨hstart, .of_run_eq hrun⟩).2
    rintro g' b target ⟨hg', halike⟩ hb
    have hentry : entry ≠ b := by
      rintro rfl
      have hunmarked := hb.unmarked
      rw [hg'.code.isEntry, h.marked] at hunmarked
      exact nomatch hunmarked
    exact ⟨hg'.collapse h.marked hb, halike.trans (.collapse hb hg'.toLinked hentry)⟩
  obtain ⟨-, hcode, hjump, -⟩ :=
    foldl_detach hshrunk.toLinked fun b hb => ((hdead b).mp hb).1.1
  refine hcollapsed.trans (.of_run_eq fun n st => M.run_congr (fun b hb => ?_) n .root st)
  have hnot : b ∉ dead := fun hd => ((hdead b).mp hd).2 (hshrunk.reachable_iff.mp hb).1
  rw [hprune]
  exact ⟨hcode.instrs b, (hjump b).trans (if_neg hnot)⟩

/-- Graphs that run alike show the same events in the same order. -/
theorem events_iff (h : M.Alike g g') (st : σ) (k : Nat) (e : Event σ V) :
    (∃ n, (M.run g n entry st).events[k]? = some e) ↔
      ∃ n, (M.run g' n entry st).events[k]? = some e := by
  constructor
  · rintro ⟨n, hn⟩
    obtain ⟨m, hm⟩ := h.mimicked st n
    exact ⟨m, hm.getElem?_events hn⟩
  · rintro ⟨n, hn⟩
    obtain ⟨m, hm⟩ := h.mimics st n
    exact ⟨m, hm.getElem?_events hn⟩

/-- Graphs that run alike end in the same ways. -/
theorem ending_iff (h : M.Alike g g') (st : σ) (e : Ending σ V) :
    (∃ n, (M.run g n entry st).ending = some e) ↔ ∃ n, (M.run g' n entry st).ending = some e := by
  constructor
  · rintro ⟨n, hn⟩
    obtain ⟨m, hm⟩ := h.mimicked st n
    exact ⟨m, by rw [hm.ended (by simp [hn]), hn]⟩
  · rintro ⟨n, hn⟩
    obtain ⟨m, hm⟩ := h.mimics st n
    exact ⟨m, by rw [hm.ended (by simp [hn]), hn]⟩

end Alike

end Meaning

/-! ## Pruning -/

namespace FlowGraph

/-- Pruning keeps behaviour under every meaning of instructions: run from the entry in any state, the
pruned graph shows the same events at the same places, and it ends in the same way or runs on forever. -/
theorem prune_keeps_behaviour {g : FlowGraph} (hg : g.Assembled) {σ V : Type} (M : Meaning σ V)
    (st : σ) :
    (∀ (k : Nat) e, (∃ n, (M.run g n entry st).events[k]? = some e) ↔
        ∃ n, (M.run g.prune.1 n entry st).events[k]? = some e) ∧
      (∀ e, (∃ n, (M.run g n entry st).ending = some e) ↔
        ∃ n, (M.run g.prune.1 n entry st).ending = some e) ∧
      ((∀ n, (M.run g n entry st).ending = none) ↔ ∀ n, (M.run g.prune.1 n entry st).ending = none) := by
  have halike : M.Alike g g.prune.1 := .prune hg.intact
  refine ⟨halike.events_iff st, halike.ending_iff st, ?_⟩
  simp only [Option.eq_none_iff_forall_ne_some]
  constructor
  · intro hforever n e he
    obtain ⟨m, hm⟩ := (halike.ending_iff st e).mpr ⟨n, he⟩
    exact hforever m e hm
  · intro hforever n e he
    obtain ⟨m, hm⟩ := (halike.ending_iff st e).mp ⟨n, he⟩
    exact hforever m e hm

/-- A run that counts its instructions goes past a block that pruning takes out. -/
theorem prune_keeps_behaviour_bypass :
    ∃ g : FlowGraph, g.jump 0 = .goto 1 ∧ g.prune.1.jump 0 = .goto 2 ∧
      ∃ n, ((Meaning.mk (fun _ k => k + 1) (fun _ k => k) (· != 0) (fun k c => c == k) :
        Meaning Nat Nat).run g.prune.1 n entry 7).ending = some (.returned (some 8) 8) := by
  have hjumps : ((((new 0).addBlock.addBlock.setJump 0 (.goto 1)).setJump 1 (.goto 2)).setJump 2
      (.ret 2 (some (.temp 0)))).Built :=
    .setJump (.setJump (.setJump (.addBlock (.addBlock (.new 0))) (if_pos (by decide)))
      (if_pos (by decide))) (if_pos (by decide))
  have hbuilt := hjumps.pushInstr (b := 0) (i := .copy 0 (.const 3)) (by decide) rfl
  exact ⟨_, rfl, by cbv, ((prune_keeps_behaviour hbuilt.assembled _ 7).2.1 _).mp ⟨3, rfl⟩⟩

end FlowGraph

end SsaFlow

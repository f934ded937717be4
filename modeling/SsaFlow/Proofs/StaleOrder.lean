-- SUMMARY: Dominator chains end and meet on every stored order, also when edges have changed since it was made.
import Mathlib
import SsaFlow.Proofs.Ordered

/-!
# Chains over a stale order

When edges change after a graph was ordered, the stored order is stale: it need not be a reverse postorder any
more, and chains may lead to larger positions. They still end, because chains go back in time: a position is first
resolved from predecessors that were resolved before it, these take part whenever it is renewed, and so its immediate
dominator was always resolved before it (`Resolution`). Each move up a chain then goes back in time, and two positions
that move up their chains meet (`Resolution.exists_meets`).

`FlowGraph.MeetCall` is a call of `ChainTable.meet` while a tree is built, in any round. The place where the two
positions meet lies on both chains, but on a stale order it need not be the nearest one that does.
-/

namespace SsaFlow

namespace ChainTable

variable {preds : Nat → List Nat} {t : ChainTable} {seq : List Nat}

/-! ## Meeting without a bound -/

/-- Positions `a` and `b` meet at `m` after a number of moves, each of which takes the larger of the two up its
chain. The number of moves has no bound, and there is no rule for a chain that breaks off: a larger position that is
unresolved meets nothing. -/
inductive Meets (t : ChainTable) : (moves a b m : Nat) → Prop
  | same {a : Nat} : Meets t 0 a a a
  | left {moves a b m next : Nat} : b < a → t.up a = some next → Meets t moves next b m →
      Meets t (moves + 1) a b m
  | right {moves a b m next : Nat} : a < b → t.up b = some next → Meets t moves a next m →
      Meets t (moves + 1) a b m

namespace Meets

variable {moves a b m : Nat}

theorem on_left (h : Meets t moves a b m) : On t m a := by
  induction h with
  | same => exact .here
  | left _ hup _ ih => exact .up hup ih
  | right _ _ _ ih => exact ih

theorem on_right (h : Meets t moves a b m) : On t m b := by
  induction h with
  | same => exact .here
  | left _ _ _ ih => exact ih
  | right _ hup _ ih => exact .up hup ih

/-- A bound that is not below the number of moves makes no difference. -/
theorem meet_eq (h : Meets t moves a b m) {fuel : Nat} (hfuel : moves ≤ fuel) : t.meet fuel a b = m := by
  induction h generalizing fuel with
  | same => cases fuel <;> simp [meet]
  | @left moves a b m next hlt hup _ ih =>
    obtain ⟨rest, rfl⟩ := Nat.exists_eq_add_of_le' (Nat.le_of_add_left_le hfuel)
    rw [meet, if_neg (by omega), if_pos hlt, hup]
    exact ih (by omega)
  | @right moves a b m next hlt hup _ ih =>
    obtain ⟨rest, rfl⟩ := Nat.exists_eq_add_of_le' (Nat.le_of_add_left_le hfuel)
    rw [meet, if_neg (by omega), if_neg (by omega), hup]
    exact ih (by omega)

end Meets

/-! ## The order in which positions are resolved -/

/-- The list `seq` has the resolved positions of a table in the order in which they were resolved. -/
structure Resolution (preds : Nat → List Nat) (t : ChainTable) (seq : List Nat) : Prop where
  nodup : seq.Nodup
  mem_iff : ∀ {q : Nat}, q ∈ seq ↔ (t.up q).isSome
  entry : t.up 0 = some 0
  /-- Chains lead to positions that were resolved earlier. -/
  earlier : ∀ {q d : Nat}, q ≠ 0 → t.up q = some d → seq.idxOf d < seq.idxOf q
  /-- A position was resolved from a predecessor that was resolved earlier. -/
  source : ∀ {q : Nat}, q ≠ 0 → q ∈ seq → ∃ p ∈ preds q, seq.idxOf p < seq.idxOf q

/-- At first only the entry is resolved. -/
theorem resolution_initial {n : Nat} (hn : 0 < n) : Resolution preds (initial n) [0] where
  nodup := List.nodup_singleton 0
  mem_iff := by
    intro q
    rw [up_initial hn, List.mem_singleton]
    split <;> simp [*]
  entry := by rw [up_initial hn, if_pos rfl]
  earlier := by
    intro q d h0 hd
    rw [up_initial hn, if_neg h0] at hd
    cases hd
  source := fun h0 hq => absurd (List.mem_singleton.mp hq) h0

namespace Resolution

theorem mem_of_idxOf_le {p q : Nat} (hq : q ∈ seq) (hle : seq.idxOf p ≤ seq.idxOf q) : p ∈ seq :=
  List.idxOf_lt_length_iff.mp (Nat.lt_of_le_of_lt hle (List.idxOf_lt_length_of_mem hq))

/-- Chains stay among resolved positions. -/
theorem mem_of_up (h : Resolution preds t seq) {q d : Nat} (hd : t.up q = some d) : d ∈ seq := by
  have hq : q ∈ seq := h.mem_iff.mpr (by rw [hd]; rfl)
  by_cases h0 : q = 0
  · subst h0
    obtain rfl := Option.some.inj (h.entry.symm.trans hd)
    exact hq
  · exact mem_of_idxOf_le hq (Nat.le_of_lt (h.earlier h0 hd))

/-- Nothing on the chain of a position was resolved later. -/
theorem idxOf_le (h : Resolution preds t seq) {x q : Nat} (hx : On t x q) : seq.idxOf x ≤ seq.idxOf q := by
  induction hx with
  | here => exact Nat.le_refl _
  | @up q d hd _ ih =>
    by_cases h0 : q = 0
    · subst h0
      obtain rfl := Option.some.inj (h.entry.symm.trans hd)
      exact ih
    · exact Nat.le_trans ih (Nat.le_of_lt (h.earlier h0 hd))

theorem mem_of_on (h : Resolution preds t seq) {x q : Nat} (hx : On t x q) (hq : q ∈ seq) : x ∈ seq :=
  mem_of_idxOf_le hq (h.idxOf_le hx)

theorem length_le (h : Resolution preds t seq) : seq.length ≤ t.size := by
  have hsub : seq ⊆ List.range t.size :=
    fun q hq => List.mem_range.mpr (lt_size_of_up (h.mem_iff.mp hq))
  simpa using (h.nodup.subperm hsub).length_le

/-! ## Meeting -/

/-- Two resolved positions meet. A position that moves is not the entry, because it is the larger one, so each
move leads to a position that was resolved earlier. -/
theorem meets_of_idxOf (h : Resolution preds t seq) {a b : Nat} (ha : a ∈ seq) (hb : b ∈ seq) :
    ∃ moves m, moves ≤ seq.idxOf a + seq.idxOf b ∧ Meets t moves a b m := by
  induction hn : seq.idxOf a + seq.idxOf b using Nat.strongRecOn generalizing a b with
  | _ n ih =>
    rcases Nat.lt_trichotomy a b with hlt | rfl | hlt
    · obtain ⟨d, hd⟩ := Option.isSome_iff_exists.mp (h.mem_iff.mp hb)
      have hmove := h.earlier (by omega) hd
      obtain ⟨moves, m, hle, hmeets⟩ := ih _ (by omega) ha (h.mem_of_up hd) rfl
      exact ⟨moves + 1, m, by omega, .right hlt hd hmeets⟩
    · exact ⟨0, a, Nat.zero_le n, .same⟩
    · obtain ⟨d, hd⟩ := Option.isSome_iff_exists.mp (h.mem_iff.mp ha)
      have hmove := h.earlier (by omega) hd
      obtain ⟨moves, m, hle, hmeets⟩ := ih _ (by omega) (h.mem_of_up hd) hb rfl
      exact ⟨moves + 1, m, by omega, .left hlt hd hmeets⟩

/-- Two resolved positions meet after fewer moves than twice the size of the table. -/
theorem exists_meets (h : Resolution preds t seq) {a b : Nat} (ha : a ∈ seq) (hb : b ∈ seq) :
    ∃ moves m, moves < 2 * t.size ∧ Meets t moves a b m := by
  obtain ⟨moves, m, hle, hmeets⟩ := h.meets_of_idxOf ha hb
  have hlength := h.length_le
  have hlta := List.idxOf_lt_length_of_mem ha
  have hltb := List.idxOf_lt_length_of_mem hb
  exact ⟨moves, m, by omega, hmeets⟩

/-- The bound on the moves is large enough, so the result lies on both chains. -/
theorem meet_on (h : Resolution preds t seq) {a b : Nat} (ha : a ∈ seq) (hb : b ∈ seq) :
    On t (t.meet (2 * t.size) a b) a ∧ On t (t.meet (2 * t.size) a b) b := by
  obtain ⟨moves, m, hlt, hmeets⟩ := h.exists_meets ha hb
  rw [hmeets.meet_eq (Nat.le_of_lt hlt)]
  exact ⟨hmeets.on_left, hmeets.on_right⟩

end Resolution

/-- Going through one predecessor more: one that is resolved meets what was found before it. -/
theorem meetAll_concat (t : ChainTable) (ps : List Nat) (p : Nat) :
    t.meetAll (ps ++ [p]) =
      if (t.up p).isSome then some ((t.meetAll ps).elim p (t.meet (2 * t.size) p)) else t.meetAll ps := by
  rw [meetAll, meetAll, List.filter_append, List.foldl_append]
  by_cases hp : (t.up p).isSome
  · rw [if_pos hp, List.filter_cons, if_pos hp, List.filter_nil, List.foldl_cons, List.foldl_nil]
    generalize List.foldl _ none _ = found
    cases found <;> rfl
  · rw [if_neg hp, List.filter_cons, if_neg hp, List.filter_nil, List.foldl_nil]

namespace Resolution

theorem mem_of_meetAll (h : Resolution preds t seq) {ps : List Nat} {m : Nat} (hm : t.meetAll ps = some m) :
    m ∈ seq := by
  induction ps using List.reverseRecOn generalizing m with
  | nil => cases hm
  | append_singleton ps p ih =>
    rw [meetAll_concat] at hm
    split at hm
    · next hp =>
      obtain rfl := Option.some.inj hm
      cases hfound : t.meetAll ps with
      | none => exact h.mem_iff.mpr hp
      | some found => exact h.mem_of_on (h.meet_on (h.mem_iff.mpr hp) (ih hfound)).1 (h.mem_iff.mpr hp)
    · exact ih hm

/-- What is found lies on the chain of every predecessor that is resolved. -/
theorem meetAll_on (h : Resolution preds t seq) {ps : List Nat} {p : Nat} (hp : p ∈ ps) (hseq : p ∈ seq) :
    ∃ m, t.meetAll ps = some m ∧ On t m p := by
  induction ps using List.reverseRecOn with
  | nil => exact absurd hp List.not_mem_nil
  | append_singleton ps q ih =>
    rw [List.mem_append, List.mem_singleton] at hp
    rw [meetAll_concat]
    split
    · next hq =>
      refine ⟨_, rfl, ?_⟩
      cases hfound : t.meetAll ps with
      | none =>
        rcases hp with hp | rfl
        · obtain ⟨m, hm, -⟩ := ih hp
          cases hfound.symm.trans hm
        · exact .here
      | some found =>
        have hmeet := h.meet_on (h.mem_iff.mpr hq) (h.mem_of_meetAll hfound)
        rcases hp with hp | rfl
        · obtain ⟨m, hm, hon⟩ := ih hp
          obtain rfl := Option.some.inj (hfound.symm.trans hm)
          exact hmeet.2.trans hon
        · exact hmeet.1
    · next hq =>
      rcases hp with hp | rfl
      · exact ih hp
      · exact absurd (h.mem_iff.mp hseq) hq

/-! ## Renewing -/

/-- Renewing a resolved position leaves the order of resolution as it is: the predecessor that the position was
first resolved from takes part again, and the new immediate dominator lies on its chain. -/
theorem set_resolved (h : Resolution preds t seq) {pos m : Nat} (h0 : pos ≠ 0) (hpos : pos < t.size)
    (hm : t.meetAll (preds pos) = some m) (hseq : pos ∈ seq) :
    Resolution preds (t.setIfInBounds pos (some m)) seq where
  nodup := h.nodup
  mem_iff := by
    intro q
    rw [up_setIfInBounds hpos]
    split
    · next heq => simpa using heq ▸ hseq
    · exact h.mem_iff
  entry := by rw [up_setIfInBounds hpos, if_neg h0, h.entry]
  earlier := by
    intro q d hq0 hd
    rw [up_setIfInBounds hpos] at hd
    split at hd
    · next heq =>
      subst heq
      obtain rfl := Option.some.inj hd
      obtain ⟨p, hp, hlt⟩ := h.source h0 hseq
      obtain ⟨m', hm', hon⟩ := h.meetAll_on hp (mem_of_idxOf_le hseq (Nat.le_of_lt hlt))
      obtain rfl := Option.some.inj (hm.symm.trans hm')
      exact Nat.lt_of_le_of_lt (h.idxOf_le hon) hlt
    · exact h.earlier hq0 hd
  source := h.source

/-- Resolving a position puts it at the end of the order of resolution. -/
theorem set_unresolved (h : Resolution preds t seq) {pos m : Nat} (h0 : pos ≠ 0) (hpos : pos < t.size)
    (hm : t.meetAll (preds pos) = some m) (hseq : pos ∉ seq) :
    Resolution preds (t.setIfInBounds pos (some m)) (seq ++ [pos]) := by
  have hold : ∀ {q : Nat}, q ∈ seq → (seq ++ [pos]).idxOf q = seq.idxOf q :=
    fun hq => List.idxOf_append_of_mem hq
  have hnew : (seq ++ [pos]).idxOf pos = seq.length := by
    rw [List.idxOf_append_of_notMem hseq]
    simp
  have hlast : ∀ {q : Nat}, q ∈ seq → (seq ++ [pos]).idxOf q < (seq ++ [pos]).idxOf pos := by
    intro q hq
    rw [hold hq, hnew]
    exact List.idxOf_lt_length_of_mem hq
  constructor
  case nodup => exact List.concat_eq_append ▸ h.nodup.concat hseq
  case mem_iff =>
    intro q
    rw [up_setIfInBounds hpos, List.mem_append, List.mem_singleton]
    split
    · next heq => simp [heq]
    · next hne =>
      rw [h.mem_iff]
      exact or_iff_left (Ne.symm hne)
  case entry => rw [up_setIfInBounds hpos, if_neg h0, h.entry]
  case earlier =>
    intro q d hq0 hd
    rw [up_setIfInBounds hpos] at hd
    split at hd
    · next heq =>
      subst heq
      obtain rfl := Option.some.inj hd
      exact hlast (h.mem_of_meetAll hm)
    · have hq : q ∈ seq := h.mem_iff.mpr (by rw [hd]; rfl)
      rw [hold hq, hold (h.mem_of_up hd)]
      exact h.earlier hq0 hd
  case source =>
    intro q hq0 hq
    rcases List.mem_append.mp hq with hq | hq
    · obtain ⟨p, hp, hlt⟩ := h.source hq0 hq
      refine ⟨p, hp, ?_⟩
      rw [hold hq, hold (mem_of_idxOf_le hq (Nat.le_of_lt hlt))]
      exact hlt
    · obtain rfl := List.mem_singleton.mp hq
      -- Something was found, so one of the predecessors is resolved.
      have hresolved : ∃ p ∈ preds q, p ∈ seq := by
        refine Classical.byContradiction fun hnone => ?_
        rw [meetAll_eq_none] at hm
        · cases hm
        · intro p hp
          refine Option.not_isSome_iff_eq_none.mp fun hsome => hnone ⟨p, hp, h.mem_iff.mpr hsome⟩
      obtain ⟨p, hp, hpseq⟩ := hresolved
      exact ⟨p, hp, hlast hpseq⟩

/-- A renewed position comes last among the resolved ones, or stays where it was. -/
theorem renew (h : Resolution preds t seq) {pos : Nat} (h0 : pos ≠ 0) (hpos : pos < t.size) :
    ∃ seq', Resolution preds (ChainTable.renew preds t pos) seq' := by
  unfold ChainTable.renew
  split
  · exact ⟨seq, h⟩
  · next m hm =>
    by_cases hseq : pos ∈ seq
    · exact ⟨seq, h.set_resolved h0 hpos hm hseq⟩
    · exact ⟨seq ++ [pos], h.set_unresolved h0 hpos hm hseq⟩

theorem foldl_renew (h : Resolution preds t seq) {ps : List Nat} (hps : ∀ pos ∈ ps, pos ≠ 0 ∧ pos < t.size) :
    ∃ seq', Resolution preds (ps.foldl (ChainTable.renew preds) t) seq' := by
  induction ps generalizing t seq with
  | nil => exact ⟨seq, h⟩
  | cons pos ps ih =>
    obtain ⟨h0, hlt⟩ := hps pos List.mem_cons_self
    obtain ⟨seq', h'⟩ := h.renew h0 hlt
    refine ih h' fun q hq => ?_
    rw [size_renew]
    exact hps q (List.mem_cons_of_mem pos hq)

end Resolution

/-! ## Any number of rounds -/

/-- The table after a number of whole rounds, when the positions before `pos` have been renewed once more. -/
def underWay (preds : Nat → List Nat) (n rounds pos : Nat) : ChainTable :=
  (List.range' 1 (pos - 1)).foldl (renew preds) ((round preds)^[rounds] (initial n))

theorem size_iterate_round (preds : Nat → List Nat) (n rounds : Nat) :
    ((round preds)^[rounds] (initial n)).size = n := by
  induction rounds with
  | zero => simp [initial]
  | succ rounds ih => rw [Function.iterate_succ_apply', size_round, ih]

/-- After any number of rounds the resolved positions can be listed in order of resolution. -/
theorem resolution_iterate_round (preds : Nat → List Nat) {n : Nat} (hn : 0 < n) (rounds : Nat) :
    ∃ seq, Resolution preds ((round preds)^[rounds] (initial n)) seq := by
  induction rounds with
  | zero => exact ⟨[0], resolution_initial hn⟩
  | succ rounds ih =>
    obtain ⟨seq, h⟩ := ih
    rw [Function.iterate_succ_apply', round]
    refine h.foldl_renew fun pos hpos => ?_
    rw [List.range_eq_range', List.tail_range', List.mem_range'_1] at hpos
    omega

theorem resolution_underWay (preds : Nat → List Nat) {n pos : Nat} (hpos : pos < n) (rounds : Nat) :
    ∃ seq, Resolution preds (underWay preds n rounds pos) seq := by
  obtain ⟨seq, h⟩ := resolution_iterate_round preds (Nat.zero_lt_of_lt hpos) rounds
  refine h.foldl_renew fun q hq => ?_
  rw [List.mem_range'_1] at hq
  rw [size_iterate_round]
  omega

end ChainTable

namespace FlowGraph

open ChainTable (On Meets underWay)

/-- A call of `ChainTable.meet` while the dominator tree of a graph is built: in the round after `rounds` others, when
the position `pos` is renewed, the predecessors in `before` have been gone through and meet at `found`, and `pred`,
the next one, is resolved. -/
structure MeetCall (g : FlowGraph) where
  order : List BlockId
  listed : g.reachable = some order
  isOrdered : g.isOrdered = true
  rounds : Nat
  pos : Nat
  pos_ne : pos ≠ 0
  pos_lt : pos < order.length
  before : List Nat
  pred : Nat
  after : List Nat
  preds_eq : g.predsAt order pos = before ++ pred :: after
  found : Nat
  meetAll_eq : (underWay (g.predsAt order) order.length rounds pos).meetAll before = some found
  isSome_up : ((underWay (g.predsAt order) order.length rounds pos).up pred).isSome

/-- The table at the moment of the call. -/
def MeetCall.table {g : FlowGraph} (c : g.MeetCall) : ChainTable :=
  underWay (g.predsAt c.order) c.order.length c.rounds c.pos

/-- Whatever has become of the edges since the order was stored, and in whatever round, the two positions of a call
meet before the bound on the moves, and no chain breaks off on the way. The result lies on the chains of both, and the
predecessors that follow go on from it. -/
theorem MeetCall.meets_on_both {g : FlowGraph} (c : g.MeetCall) :
    ∃ moves m, moves < 2 * c.table.size ∧ Meets c.table moves c.pred c.found m ∧
      c.table.meet (2 * c.table.size) c.pred c.found = m ∧ c.table.meetAll (c.before ++ [c.pred]) = some m ∧
      On c.table m c.pred ∧ On c.table m c.found := by
  obtain ⟨seq, h⟩ := ChainTable.resolution_underWay (g.predsAt c.order) c.pos_lt c.rounds
  have hpred : c.pred ∈ seq := h.mem_iff.mpr c.isSome_up
  have hfound : c.found ∈ seq := h.mem_of_meetAll c.meetAll_eq
  obtain ⟨moves, m, hlt, hmeets⟩ := h.exists_meets hpred hfound
  have hmeet : c.table.meet (2 * c.table.size) c.pred c.found = m := hmeets.meet_eq (Nat.le_of_lt hlt)
  refine ⟨moves, m, hlt, hmeets, hmeet, ?_, hmeets.on_left, hmeets.on_right⟩
  rw [ChainTable.meetAll_concat, MeetCall.table, if_pos c.isSome_up, c.meetAll_eq]
  exact congrArg some hmeet

/-- Five blocks in a row, of which each can also leave for the last. -/
def row : FlowGraph :=
  (((((new 0).addBlock.addBlock.addBlock.addBlock.setJump 0 (.branch (.const 1) 1 4)).setJump 1
    (.branch (.const 1) 2 4)).setJump 2 (.branch (.const 1) 3 4)).setJump 3 (.branch (.const 1) 0 4)).setJump 4
    (.ret 4 none)

/-- Other edges for the row: `0` goes to `3`, which goes to `1` and `2`, and both of them go to `4`. -/
def rewire (g : FlowGraph) : FlowGraph :=
  (((g.setJump 0 (.goto 3)).setJump 3 (.branch (.const 1) 1 2)).setJump 1 (.goto 4)).setJump 2 (.goto 4)

/-- The row keeps its order when it is rewired, though `1` and `2` now have their one predecessor after them. -/
theorem exists_rewire_row :
    ∃ ordered, row.prune.1.withOrder = .ok ordered ∧ (rewire ordered).reachable = some [0, 1, 2, 3, 4] ∧
      (rewire ordered).isOrdered = true ∧
      (rewire ordered).predsAt [0, 1, 2, 3, 4] = fun pos => #[[], [3], [3], [0], [1, 2]].getD pos [] := by
  have hrun : row.prune.1.withOrder.map (fun g => ((rewire g).reachable, (rewire g).isOrdered,
      (rewire g).predPositions [0, 1, 2, 3, 4])) =
      .ok (some [0, 1, 2, 3, 4], true, #[[], [3], [3], [0], [1, 2]]) := by cbv
  cases hok : row.prune.1.withOrder with
  | error e =>
    rw [hok, Except.map] at hrun
    cases hrun
  | ok ordered =>
    rw [hok, Except.map, Except.ok.injEq, Prod.mk.injEq, Prod.mk.injEq] at hrun
    refine ⟨ordered, rfl, hrun.1, hrun.2.1, ?_⟩
    funext pos
    rw [predsAt, hrun.2.2]

/-- In the rewired row the chains of `1` and `2` lead to a larger position. The two meet at the entry, beyond the
nearest position on both chains. -/
theorem meets_on_both_rewired :
    ∃ ordered, row.prune.1.withOrder = .ok ordered ∧ ∃ c : (rewire ordered).MeetCall,
      c.table = #[some 0, some 3, some 3, some 0, none] ∧ c.pred = 2 ∧ c.found = 1 ∧
      On c.table 3 2 ∧ On c.table 3 1 ∧ ∃ moves, Meets c.table moves 2 1 0 := by
  obtain ⟨ordered, hok, hlisted, hordered, hat⟩ := exists_rewire_row
  have htable : underWay ((rewire ordered).predsAt [0, 1, 2, 3, 4]) 5 1 4 =
      #[some 0, some 3, some 3, some 0, none] := by
    rw [hat]
    decide
  let c : (rewire ordered).MeetCall :=
    { order := [0, 1, 2, 3, 4], listed := hlisted, isOrdered := hordered
      rounds := 1, pos := 4, pos_ne := by decide, pos_lt := by decide
      before := [1], pred := 2, after := [], preds_eq := by rw [hat]; rfl
      found := 1, meetAll_eq := htable ▸ (by decide), isSome_up := htable ▸ (by decide) }
  have hc : c.table = #[some 0, some 3, some 3, some 0, none] := htable
  obtain ⟨moves, m, -, hmeets, hmeet, -⟩ := c.meets_on_both
  obtain rfl : 0 = m := by
    rw [← hmeet, hc]
    rfl
  have hup : c.table.up 2 = some 3 ∧ c.table.up 1 = some 3 := by
    rw [hc]
    decide
  exact ⟨ordered, hok, c, hc, rfl, rfl, .up hup.1 .here, .up hup.2 .here, moves, hmeets⟩

end FlowGraph

end SsaFlow

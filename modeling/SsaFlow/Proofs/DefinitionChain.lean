-- SUMMARY: Chains of definitions: versions count the definitions of a variable, and look-ups are stable.
import Mathlib
import SsaFlow.Ssa.Check
import SsaFlow.Ssa.Renaming

/-!
# Chains of definitions

The definitions made so far are tracked as a list of pairs of a variable and a place, in the order in
which they were made. A version is the number of a definition among those of its variable. Looking up a
variable gives the same answer when definitions that do not reach the place are added.
-/

namespace SsaFlow.Definitions

/-! ## Numbered places -/

def push (chain : List Definition) (s : Site) : List Definition := ⟨nextVersion chain, s⟩ :: chain

/-- The chain of definitions at the given places, in this order. -/
def chainOf (sites : List Site) : List Definition := sites.foldl push []

theorem chainOf_append (xs ys : List Site) : chainOf (xs ++ ys) = ys.foldl push (chainOf xs) :=
  List.foldl_append

theorem chainOf_snoc (sites : List Site) (s : Site) : chainOf (sites ++ [s]) = push (chainOf sites) s :=
  chainOf_append sites [s]

theorem map_site_chainOf (sites : List Site) : (chainOf sites).map Definition.site = sites.reverse := by
  induction sites using List.reverseRecOn with
  | nil => rfl
  | append_singleton sites s ih =>
    rw [chainOf_snoc, push, List.map_cons, ih, List.reverse_append]
    rfl

/-- Versions count the definitions of a variable from one. -/
theorem nextVersion_chainOf (sites : List Site) : nextVersion (chainOf sites) = sites.length + 1 := by
  induction sites using List.reverseRecOn with
  | nil => rfl
  | append_singleton sites s ih =>
    rw [chainOf_snoc, push, List.length_append]
    exact congrArg (· + 1) ih

/-- The version of a definition is its number in the list. -/
theorem mem_chainOf {sites : List Site} {d : Definition} :
    d ∈ chainOf sites ↔ ∃ k, d.version = k + 1 ∧ sites[k]? = some d.site := by
  induction sites using List.reverseRecOn with
  | nil => simp [chainOf]
  | append_singleton sites s ih =>
    rw [chainOf_snoc, push, nextVersion_chainOf, List.mem_cons, ih]
    constructor
    · rintro (rfl | ⟨k, hk, hs⟩)
      · exact ⟨sites.length, rfl, List.getElem?_concat_length⟩
      · refine ⟨k, hk, ?_⟩
        rw [List.getElem?_append_left (List.getElem?_eq_some_iff.mp hs).1]
        exact hs
    · rintro ⟨k, hk, hs⟩
      rcases Nat.lt_or_ge k sites.length with hlt | hge
      · rw [List.getElem?_append_left hlt] at hs
        exact .inr ⟨k, hk, hs⟩
      · have hlast := (List.getElem?_eq_some_iff.mp hs).1
        rw [List.length_append, List.length_singleton] at hlast
        obtain rfl : k = sites.length := by omega
        rw [List.getElem?_concat_length] at hs
        obtain ⟨version, site⟩ := d
        cases hk
        cases Option.some.inj hs
        exact .inl rfl

/-- Places added later come first in the chain. -/
theorem exists_chainOf_append (xs ys : List Site) :
    ∃ later, chainOf (xs ++ ys) = later ++ chainOf xs ∧ ∀ d ∈ later, d.site ∈ ys := by
  induction ys using List.reverseRecOn with
  | nil => exact ⟨[], by rw [List.append_nil, List.nil_append], fun _ hd => nomatch hd⟩
  | append_singleton ys s ih =>
    obtain ⟨later, hlater, hmem⟩ := ih
    refine ⟨⟨nextVersion (chainOf (xs ++ ys)), s⟩ :: later, ?_, fun d hd => ?_⟩
    · rw [← List.append_assoc, chainOf_snoc, push, hlater, List.cons_append]
    · rcases List.mem_cons.mp hd with rfl | hd
      · exact List.mem_append_right ys List.mem_cons_self
      · exact List.mem_append_left [s] (hmem d hd)

/-! ## Places of one variable -/

/-- The places in a list of definitions that define `v`. -/
def sitesOf (v : VarId) (done : List (VersionedVar × Site)) : List Site :=
  (done.filter fun p => p.1.var = v).map Prod.snd

theorem sitesOf_append (v : VarId) (xs ys : List (VersionedVar × Site)) :
    sitesOf v (xs ++ ys) = sitesOf v xs ++ sitesOf v ys := by
  rw [sitesOf, List.filter_append, List.map_append, sitesOf, sitesOf]

theorem mem_sitesOf {v : VarId} {done : List (VersionedVar × Site)} {s : Site} :
    s ∈ sitesOf v done ↔ ∃ x, (x, s) ∈ done ∧ x.var = v := by
  simp [sitesOf]

theorem sitesOf_singleton (v : VarId) (x : VersionedVar) (s : Site) :
    sitesOf v [(x, s)] = if x.var = v then [s] else [] := by
  by_cases hx : x.var = v <;> simp [sitesOf, hx]

/-- The name that a use of `v` at a place gets, among the given definitions. -/
def useName (tree : DominatorTree) (done : List (VersionedVar × Site)) (v : VarId) (at_ : Site) :
    VersionedVar :=
  match (chainOf (sitesOf v done)).find? fun d => tree.reaches d.site at_ with
  | Option.none => .unbound v
  | some d => ⟨v, d.version⟩

/-- The name that a definition of `v` at a place gets, among the given definitions. -/
def defName (done : List (VersionedVar × Site)) (v : VarId) (s : Site) : VersionedVar :=
  match (chainOf (sitesOf v done)).find? fun d => d.site = s with
  | Option.none => .unbound v
  | some d => ⟨v, d.version⟩

@[simp] theorem useName_var (tree : DominatorTree) (done : List (VersionedVar × Site)) (v : VarId)
    (at_ : Site) : (useName tree done v at_).var = v := by
  rw [useName]
  split <;> rfl

@[simp] theorem defName_var (done : List (VersionedVar × Site)) (v : VarId) (s : Site) :
    (defName done v s).var = v := by
  rw [defName]
  split <;> rfl

/-- Definitions that do not reach a place do not change what is found there. -/
theorem useName_append {tree : DominatorTree} {done rest : List (VersionedVar × Site)} {v : VarId}
    {at_ : Site} (h : ∀ p ∈ rest, tree.reaches p.2 at_ = false) :
    useName tree (done ++ rest) v at_ = useName tree done v at_ := by
  obtain ⟨later, hlater, hmem⟩ := exists_chainOf_append (sitesOf v done) (sitesOf v rest)
  have hnone : later.find? (fun d => tree.reaches d.site at_) = Option.none := by
    rw [List.find?_eq_none]
    intro d hd
    obtain ⟨x, hx, -⟩ := mem_sitesOf.mp (hmem d hd)
    rw [h _ hx]
    exact Bool.false_ne_true
  rw [useName, sitesOf_append, hlater, List.find?_append, hnone, Option.none_or, useName]

/-- Where no later definition of its variable stands at its place, a definition has the next version. -/
theorem defName_split {done rest : List (VersionedVar × Site)} {x : VersionedVar} {s : Site}
    (hrest : s ∉ sitesOf x.var rest) :
    defName (done ++ (x, s) :: rest) x.var s = ⟨x.var, (sitesOf x.var done).length + 1⟩ := by
  have hsites : sitesOf x.var (done ++ (x, s) :: rest) =
      (sitesOf x.var done ++ [s]) ++ sitesOf x.var rest := by
    rw [List.append_cons, sitesOf_append, sitesOf_append, sitesOf_singleton, if_pos rfl]
  obtain ⟨later, hlater, hmem⟩ := exists_chainOf_append (sitesOf x.var done ++ [s]) (sitesOf x.var rest)
  have hnone : later.find? (fun d => d.site = s) = Option.none := by
    rw [List.find?_eq_none]
    intro d hd heq
    rw [decide_eq_true_eq] at heq
    exact hrest (heq ▸ hmem d hd)
  rw [defName, hsites, hlater, List.find?_append, hnone, Option.none_or, chainOf_snoc, push,
    List.find?_cons_of_pos (by simp), nextVersion_chainOf]

/-! ## The definitions of a renaming -/

/-- The table holds the definitions in `done`. -/
structure Tracks (ds : Definitions) (numVars : Nat) (done : List (VersionedVar × Site)) : Prop where
  size : ds.size = numVars
  chain : ∀ {v : VarId}, v < numVars → ds[v]? = some (chainOf (sitesOf v done))

theorem tracks_none (numVars : Nat) : Tracks (.none numVars) numVars [] where
  size := Array.size_replicate
  chain hv := by
    rw [none, Array.getElem?_replicate, if_pos hv]
    rfl

namespace Tracks

variable {ds : Definitions} {numVars : Nat} {done : List (VersionedVar × Site)}

/-- A new definition gets the next version and is the latest from now on. -/
theorem define (h : Tracks ds numVars done) {x : VersionedVar} (hx : x.var < numVars) (s : Site) :
    ∃ ds', ds.define x.var s = .ok (⟨x.var, (sitesOf x.var done).length + 1⟩, ds') ∧
      Tracks ds' numVars (done ++ [(x, s)]) := by
  refine ⟨ds.modify x.var (⟨(sitesOf x.var done).length + 1, s⟩ :: ·), ?_, ?_, ?_⟩
  · rw [Definitions.define, h.chain hx]
    dsimp only
    rw [nextVersion_chainOf]
  · exact Array.size_modify.trans h.size
  · intro v hv
    rw [Array.getElem?_modify, h.chain hv, sitesOf_append, sitesOf_singleton]
    by_cases hxv : x.var = v
    · rw [if_pos hxv, if_pos hxv, chainOf_snoc, push, nextVersion_chainOf, hxv]
      rfl
    · rw [if_neg hxv, if_neg hxv, List.append_nil]

theorem lookup (h : Tracks ds numVars done) (tree : DominatorTree) {v : VarId} (hv : v < numVars)
    (at_ : Site) : ds.lookup tree v at_ = .ok (useName tree done v at_) := by
  rw [Definitions.lookup, h.chain hv, useName]
  dsimp only
  cases (chainOf (sitesOf v done)).find? fun d => tree.reaches d.site at_ <;> rfl

/-- The definitions depend on the places only. -/
theorem ext (h : Tracks ds numVars done) {ds' : Definitions} {done' : List (VersionedVar × Site)}
    (h' : Tracks ds' numVars done') (hsites : ∀ v, sitesOf v done = sitesOf v done') : ds = ds' := by
  refine Array.ext_getElem? fun v => ?_
  rcases Nat.lt_or_ge v numVars with hv | hv
  · rw [h.chain hv, h'.chain hv, hsites]
  · rw [Array.getElem?_eq_none (h.size ▸ hv), Array.getElem?_eq_none (h'.size ▸ hv)]

end Tracks

end SsaFlow.Definitions

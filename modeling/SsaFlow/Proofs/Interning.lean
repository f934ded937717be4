-- SUMMARY: A name table is a bijection between the strings interned so far and their names, and it never changes its mind.
import Mathlib
import SsaFlow.Source.NameTable

/-!
# Interning

What a name table knows of a string is the name that `find?` gives, read off the slots of the shard where the
string belongs. The strings of a shard agree with its slots, so looking the name up gives the string back. A call
adds at most one string and never takes one back, so names are the same at all times. The shards hold each known
string once, in the shard where it belongs, so counting slots counts strings. Statements about histories of calls
are statements about their transcripts: what was asked and what was answered, call by call.
-/

namespace SsaFlow

namespace Shard

theorem mem_strings_iff {shard : Shard} {s : String} : s ∈ shard.strings ↔ ∃ slot, shard.slots[s]? = some slot := by
  simp only [Array.mem_iff_getElem?, shard.agree]

/-- No string has two slots. -/
theorem nodup_strings (shard : Shard) : shard.strings.toList.Nodup := by
  rw [List.nodup_iff_getElem?_ne_getElem?]
  intro i j hij hj heq
  rw [Array.length_toList] at hj
  rw [Array.getElem?_toList, Array.getElem?_toList, Array.getElem?_eq_getElem hj] at heq
  have hi := shard.agree.mpr heq
  rw [shard.agree.mpr (Array.getElem?_eq_getElem hj)] at hi
  exact absurd (Option.some.inj hi) (Nat.ne_of_gt hij)

end Shard

namespace NameTable

variable {home : String → Fin shardCount} {t : NameTable} {s s' : String} {n : Name}

/-! ## What a table knows -/

/-- The name of a string that the table knows. -/
def find? (home : String → Fin shardCount) (t : NameTable) (s : String) : Option Name :=
  (t.shards.get (home s)).slots[s]?.map (Name.pack (home s))

/-- The table with one more string, in the shard where it belongs. -/
def push (t : NameTable) (s : String) (hnew : t.find? home s = none) : NameTable :=
  ⟨t.shards.set (home s) ((t.shards.get (home s)).push s (Option.map_eq_none_iff.mp hnew)) (home s).isLt⟩

/-- A known string keeps its name. -/
theorem internIn_known (h : t.find? home s = some n) : t.internIn (home s) s = .ok (n, t) := by
  obtain ⟨slot, hslot, rfl⟩ := Option.map_eq_some_iff.mp h
  unfold internIn
  dsimp only
  split
  · next hslot' =>
    cases hslot.symm.trans hslot'
    rfl
  · next hnone => cases hslot.symm.trans hnone

/-- A new string gets the next slot of its shard, if there is one. -/
theorem internIn_new (hnew : t.find? home s = none) :
    t.internIn (home s) s =
      if (t.shards.get (home s)).strings.size ≤ Name.maxSlot then
        .ok (.pack (home s) (t.shards.get (home s)).strings.size, t.push s hnew)
      else .error ⟨home s⟩ := by
  unfold internIn
  dsimp only
  split
  · next hslot => cases hslot.symm.trans (Option.map_eq_none_iff.mp hnew)
  · rfl

/-- A part of a shard after a new string: the shard of the string has one more, and the others are as they were. -/
theorem get_push {α : Type} (f : Shard → α) (hnew : t.find? home s = none) (j : Fin shardCount) :
    f ((t.push s hnew).shards.get j) =
      if home s = j then f ((t.shards.get (home s)).push s (Option.map_eq_none_iff.mp hnew))
      else f (t.shards.get j) := by
  have hset := @Vector.getElem_set _ _ t.shards (home s)
    ((t.shards.get (home s)).push s (Option.map_eq_none_iff.mp hnew)) (home s).isLt j j.isLt
  by_cases h : home s = j
  · subst h
    rw [if_pos rfl]
    exact congrArg f (hset.trans (if_pos rfl))
  · rw [if_neg h]
    exact congrArg f (hset.trans (if_neg fun hij => h (Fin.ext hij)))

/-- After a string is added it is known, and the others are known as before. -/
theorem find?_push (hnew : t.find? home s = none) :
    (t.push s hnew).find? home s' =
      if s' = s then some (.pack (home s) (t.shards.get (home s)).strings.size) else t.find? home s' := by
  rw [find?, get_push (fun shard => shard.slots[s']?) hnew]
  simp only [Shard.push, Std.TreeMap.getElem?_insert, Std.LawfulEqCmp.compare_eq_iff_eq]
  by_cases hs : s' = s
  · subst hs
    simp
  · rw [if_neg hs, if_neg (Ne.symm hs), find?]
    split
    · next hhome => rw [hhome]
    · rfl

/-- A known string is found under its name. -/
theorem lookup_of_find? (h : t.find? home s = some n) : t.lookup n = s := by
  obtain ⟨slot, hslot, rfl⟩ := Option.map_eq_some_iff.mp h
  rw [lookup, Name.shard_pack, Name.slot_pack, Array.getD_eq_getD_getElem?, (Shard.agree _).mp hslot]
  rfl

theorem mem_shard_iff : s ∈ (t.shards.get (home s)).strings ↔ ∃ n, t.find? home s = some n := by
  rw [Shard.mem_strings_iff, find?, ← Option.isSome_iff_exists, ← Option.isSome_iff_exists, Option.isSome_map]

/-! ## How many strings there are -/

/-- Each shard has the empty string, and otherwise strings that belong there. -/
structure Tidy (home : String → Fin shardCount) (t : NameTable) : Prop where
  hasEmpty : ∀ i, "" ∈ (t.shards.get i).strings
  homed : ∀ i, ∀ s ∈ (t.shards.get i).strings, s ≠ "" → home s = i
  fits : ∀ i, (t.shards.get i).strings.size ≤ Name.maxSlot + 1

theorem get_empty (i : Fin shardCount) :
    empty.shards.get i = Shard.blank.push "" (by simp [Shard.blank]) :=
  Vector.getElem_replicate i.isLt

theorem strings_empty (i : Fin shardCount) : (empty.shards.get i).strings = #[""] := by
  rw [get_empty]
  rfl

/-- The empty table is tidy, whatever the shards of strings are. -/
theorem tidy_empty (home : String → Fin shardCount) : Tidy home empty := by
  refine ⟨fun i => ?_, fun i s hs hne => ?_, fun i => ?_⟩
  · simp [strings_empty]
  · rw [strings_empty] at hs
    exact absurd (by simpa using hs) hne
  · rw [strings_empty]
    decide

/-- A new string finds its place in its shard. -/
theorem Tidy.push (h : Tidy home t) (hnew : t.find? home s = none)
    (hroom : (t.shards.get (home s)).strings.size ≤ Name.maxSlot) : Tidy home (t.push s hnew) := by
  have hget := get_push Shard.strings hnew
  refine ⟨fun i => ?_, fun i r hr hne => ?_, fun i => ?_⟩
  · rw [hget]
    split
    · exact Array.mem_push_of_mem _ (h.hasEmpty _)
    · exact h.hasEmpty i
  · rw [hget] at hr
    split at hr
    · next hi =>
      rcases Array.mem_push.mp hr with hr | rfl
      · exact (h.homed _ r hr hne).trans hi
      · exact hi
    · exact h.homed i r hr hne
  · rw [hget]
    split
    · rw [Shard.push, Array.size_push]
      exact Nat.succ_le_succ hroom
    · exact h.fits i

/-- The strings of a shard other than the empty one. -/
def stringsIn (t : NameTable) (i : Fin shardCount) : Finset String :=
  (t.shards.get i).strings.toList.toFinset.erase ""

theorem Tidy.card_stringsIn (h : Tidy home t) (i : Fin shardCount) :
    (t.stringsIn i).card = (t.shards.get i).strings.size - 1 := by
  have hmem : "" ∈ (t.shards.get i).strings.toList.toFinset := by
    rw [List.mem_toFinset, Array.mem_toList_iff]
    exact h.hasEmpty i
  rw [stringsIn, Finset.card_erase_of_mem hmem, List.toFinset_card_of_nodup (Shard.nodup_strings _),
    Array.length_toList]

/-- A shard holds the known strings that belong there. -/
theorem Tidy.mem_stringsIn (h : Tidy home t) {i : Fin shardCount} {s : String} :
    s ∈ t.stringsIn i ↔ s ≠ "" ∧ home s = i ∧ ∃ n, t.find? home s = some n := by
  rw [stringsIn, Finset.mem_erase, List.mem_toFinset, Array.mem_toList_iff, ← mem_shard_iff]
  constructor
  · rintro ⟨hne, hmem⟩
    obtain rfl := h.homed i s hmem hne
    exact ⟨hne, rfl, hmem⟩
  · rintro ⟨hne, rfl, hmem⟩
    exact ⟨hne, hmem⟩

theorem size_eq_sum (t : NameTable) : t.size = ∑ i, ((t.shards.get i).strings.size - 1) := by
  have hlist : t.shards.toList = List.ofFn fun i => t.shards.get i := by
    rw [← Vector.toList_ofFn]
    refine congrArg Vector.toList (Vector.ext fun i hi => ?_)
    rw [Vector.getElem_ofFn]
    rfl
  rw [size, ← List.foldl_map, ← List.sum_eq_foldl, hlist, List.map_ofFn, List.sum_ofFn]
  rfl

/-- The table's size is the number of strings it knows, the empty one not counted. -/
theorem Tidy.size_eq (h : Tidy home t) :
    t.size = {s | s ≠ "" ∧ ∃ n, t.find? home s = some n}.ncard := by
  have hset : {s | s ≠ "" ∧ ∃ n, t.find? home s = some n} = ↑(Finset.univ.biUnion t.stringsIn) := by
    ext s
    simp [h.mem_stringsIn]
  have hdisjoint : (↑(Finset.univ : Finset (Fin shardCount)) : Set _).PairwiseDisjoint t.stringsIn := by
    intro i _ j _ hij
    refine Finset.disjoint_left.mpr fun s hi hj => hij ?_
    exact (h.mem_stringsIn.mp hi).2.1.symm.trans (h.mem_stringsIn.mp hj).2.1
  rw [size_eq_sum, hset, Set.ncard_coe_finset, Finset.card_biUnion hdisjoint]
  exact Finset.sum_congr rfl fun i _ => (h.card_stringsIn i).symm

/-- A shard holds the strings that belong there and are known, and the empty string. -/
theorem Tidy.shard_size_eq (h : Tidy home t) (i : Fin shardCount) :
    (t.shards.get i).strings.size = {s | s ≠ "" ∧ home s = i ∧ ∃ n, t.find? home s = some n}.ncard + 1 := by
  have hset : {s | s ≠ "" ∧ home s = i ∧ ∃ n, t.find? home s = some n} = ↑(t.stringsIn i) := by
    ext s
    exact h.mem_stringsIn.symm
  have hpos : 0 < (t.shards.get i).strings.size := Array.size_pos_of_mem (h.hasEmpty i)
  rw [hset, Set.ncard_coe_finset, h.card_stringsIn]
  omega

/-! ## Histories -/

inductive Call where
  | intern (s : String)
  | lookup (n : Name)
  | size

inductive Answer where
  | name (n : Name)
  | full (e : ShardFull)
  | string (s : String)
  | count (k : Nat)

/-- The answer to a call and the table afterwards. Where interning fails, the table is as it was. -/
def Call.run (home : String → Fin shardCount) (t : NameTable) : Call → Answer × NameTable
  | .intern s =>
    match t.internIn (home s) s with
    | .ok (n, t') => (.name n, t')
    | .error e => (.full e, t)
  | .lookup n => (.string (t.lookup n), t)
  | .size => (.count t.size, t)

/-- The table after a history of calls. -/
def after (home : String → Fin shardCount) (t : NameTable) (calls : List Call) : NameTable :=
  calls.foldl (fun t c => (c.run home t).2) t

/-- The calls of a history with their answers. -/
def transcript (home : String → Fin shardCount) : NameTable → List Call → List (Call × Answer)
  | _, [] => []
  | t, c :: cs => (c, (c.run home t).1) :: transcript home (c.run home t).2 cs

theorem transcript_append (t : NameTable) (cs cs' : List Call) :
    transcript home t (cs ++ cs') = transcript home t cs ++ transcript home (t.after home cs) cs' := by
  induction cs generalizing t with
  | nil => rfl
  | cons c cs ih => rw [List.cons_append, transcript, ih, transcript, List.cons_append]; rfl

/-- A call either leaves the table as it is, or it names a new string. -/
theorem Call.run_cases (home : String → Fin shardCount) (t : NameTable) (c : Call) :
    (c.run home t).2 = t ∨
      ∃ s, ∃ hnew : t.find? home s = none, (t.shards.get (home s)).strings.size ≤ Name.maxSlot ∧
        c = .intern s ∧
        c.run home t = (.name (.pack (home s) (t.shards.get (home s)).strings.size), t.push s hnew) := by
  cases c with
  | intern s =>
    rw [Call.run]
    cases hfind : t.find? home s with
    | some n =>
      rw [internIn_known hfind]
      exact .inl rfl
    | none =>
      rw [internIn_new hfind]
      by_cases hroom : (t.shards.get (home s)).strings.size ≤ Name.maxSlot
      · exact .inr ⟨s, hfind, hroom, rfl, by simp [hroom]⟩
      · exact .inl (by simp [hroom])
  | lookup n => exact .inl rfl
  | size => exact .inl rfl

/-- A call leaves the table tidy, also where it fails. -/
theorem Tidy.run (h : Tidy home t) (c : Call) : Tidy home (c.run home t).2 := by
  rcases c.run_cases home t with hsame | ⟨s, hnew, hroom, -, hrun⟩
  · rwa [hsame]
  · rw [hrun]
    exact h.push hnew hroom

/-- No history of calls puts a string into a wrong shard. -/
theorem tidy_after (home : String → Fin shardCount) (cs : List Call) : Tidy home (empty.after home cs) := by
  induction cs using List.reverseRecOn with
  | nil => exact tidy_empty home
  | append_singleton cs c ih =>
    rw [after, List.foldl_concat]
    exact ih.run c

/-- After a call, a string has the name it had before or the one that the call has given it. -/
theorem Call.find?_run (c : Call) :
    (c.run home t).2.find? home s = some n ↔
      t.find? home s = some n ∨ c = .intern s ∧ (c.run home t).1 = .name n := by
  cases c with
  | lookup m => simp [Call.run]
  | size => simp [Call.run]
  | intern r =>
    rw [Call.run]
    cases hfind : t.find? home r with
    | some m =>
      simp only [internIn_known hfind, Call.intern.injEq, Answer.name.injEq]
      refine ⟨.inl, fun h => h.elim id ?_⟩
      rintro ⟨rfl, rfl⟩
      exact hfind
    | none =>
      rw [internIn_new hfind]
      by_cases hroom : (t.shards.get (home r)).strings.size ≤ Name.maxSlot
      · simp only [hroom, if_true, find?_push hfind, Call.intern.injEq, Answer.name.injEq]
        by_cases hs : s = r
        · subst hs
          simp [hfind]
        · simp [hs, Ne.symm hs]
      · simp [hroom]

theorem find?_empty (hhome : (home "").val = 0) :
    empty.find? home s = some n ↔ s = "" ∧ n = .empty := by
  rw [find?, get_empty]
  simp only [Shard.push, Shard.blank, Std.TreeMap.getElem?_insert, Std.LawfulEqCmp.compare_eq_iff_eq]
  by_cases hs : s = ""
  · subst hs
    have hpack : Name.pack (home "") 0 = .empty := by simp [Name.pack, Name.empty, hhome]
    simp [hpack, eq_comm]
  · simp [hs, Ne.symm hs]

/-- A string is known after a history if it was named in it; the empty string is always known. -/
theorem find?_after (hhome : (home "").val = 0) (calls : List Call) :
    (empty.after home calls).find? home s = some n ↔
      s = "" ∧ n = .empty ∨ (.intern s, .name n) ∈ transcript home empty calls := by
  induction calls using List.reverseRecOn with
  | nil => simp [after, transcript, find?_empty hhome]
  | append_singleton calls c ih =>
    rw [transcript_append, List.mem_append, ← or_assoc, ← ih, after, List.foldl_concat, Call.find?_run]
    simp [transcript, after, eq_comm]

/-! ## Moments of a history -/

theorem take_transcript (t : NameTable) (calls : List Call) (j : Nat) :
    (transcript home t calls).take j = transcript home t (calls.take j) := by
  induction calls generalizing t j with
  | nil => simp [transcript]
  | cons c cs ih =>
    cases j with
    | zero => rfl
    | succ j => rw [transcript, List.take_succ_cons, ih, List.take_succ_cons, transcript]

theorem drop_transcript (t : NameTable) (calls : List Call) (j : Nat) :
    (transcript home t calls).drop j = transcript home (t.after home (calls.take j)) (calls.drop j) := by
  induction calls generalizing t j with
  | nil => simp [transcript]
  | cons c cs ih =>
    cases j with
    | zero => rfl
    | succ j => exact ih _ j

/-- The answer to a call is given by the table of the moment. -/
theorem call_of_transcript {calls : List Call} {j : Nat} {c : Call} {a : Answer}
    (h : (transcript home t calls)[j]? = some (c, a)) :
    calls[j]? = some c ∧ a = (c.run home (t.after home (calls.take j))).1 := by
  have hdrop : ((transcript home t calls).drop j).head? =
      (transcript home (t.after home (calls.take j)) (calls.drop j)).head? := by rw [drop_transcript]
  rw [List.head?_drop, h] at hdrop
  cases hcalls : calls.drop j with
  | nil =>
    rw [hcalls] at hdrop
    exact nomatch hdrop
  | cons d ds =>
    rw [hcalls] at hdrop
    obtain ⟨rfl, rfl⟩ := Prod.mk.inj (Option.some.inj hdrop)
    rw [← List.head?_drop, hcalls]
    exact ⟨rfl, rfl⟩

/-- Interning fails exactly on a new string whose shard is full. -/
theorem Call.run_intern_full_iff : (∃ e, (Call.run home t (.intern s)).1 = .full e) ↔
    t.find? home s = none ∧ Name.maxSlot < (t.shards.get (home s)).strings.size := by
  rw [Call.run]
  cases hfind : t.find? home s with
  | some n => simp [internIn_known hfind]
  | none =>
    rw [internIn_new hfind]
    by_cases hroom : (t.shards.get (home s)).strings.size ≤ Name.maxSlot
    · simp [hroom, Nat.not_lt.mpr hroom]
    · simp [hroom, Nat.lt_of_not_le hroom]

section Moment

variable (hhome : (home "").val = 0) (calls : List Call) (j : Nat)
include hhome

/-- The strings known at a moment are those that were named before, and the empty one. -/
theorem find?_take : (empty.after home (calls.take j)).find? home s = some n ↔
    s = "" ∧ n = .empty ∨ (.intern s, .name n) ∈ (transcript home empty calls).take j := by
  rw [find?_after hhome, take_transcript]

theorem known_take (hs : s ≠ "") : (∃ n, (empty.after home (calls.take j)).find? home s = some n) ↔
    ∃ n, (.intern s, .name n) ∈ (transcript home empty calls).take j :=
  exists_congr fun _ => (find?_take hhome calls j).trans (or_iff_right fun h => hs h.1)

/-- The size of a table counts the strings that were given names. -/
theorem size_take : (empty.after home (calls.take j)).size =
    {s | s ≠ "" ∧ ∃ n, (.intern s, .name n) ∈ (transcript home empty calls).take j}.ncard := by
  rw [(tidy_after home _).size_eq]
  congr 1
  ext s
  exact and_congr_right fun hs => known_take hhome calls j hs

theorem shard_size_take (i : Fin shardCount) : ((empty.after home (calls.take j)).shards.get i).strings.size =
    {s | s ≠ "" ∧ home s = i ∧ ∃ n, (.intern s, .name n) ∈ (transcript home empty calls).take j}.ncard + 1 := by
  rw [(tidy_after home _).shard_size_eq]
  congr 2
  ext s
  exact and_congr_right fun hs => and_congr_right fun _ => known_take hhome calls j hs

/-- Interning fails exactly for a string that is not known and whose shard holds the largest number
of strings. -/
theorem intern_full_take : (∃ e, (Call.run home (empty.after home (calls.take j)) (.intern s)).1 = .full e) ↔
    s ≠ "" ∧ (∀ n, (.intern s, .name n) ∉ (transcript home empty calls).take j) ∧
      {r | r ≠ "" ∧ home r = home s ∧ ∃ n, (.intern r, .name n) ∈ (transcript home empty calls).take j}.ncard =
        Name.maxSlot := by
  have hnew : (empty.after home (calls.take j)).find? home s = none ↔
      s ≠ "" ∧ ∀ n, (.intern s, .name n) ∉ (transcript home empty calls).take j := by
    simp only [Option.eq_none_iff_forall_ne_some, ne_eq, find?_take hhome, not_or, not_and, forall_and]
    exact and_congr_left' ⟨fun h hs => h _ hs rfl, fun h _ hs => absurd hs h⟩
  have hfits := (tidy_after home (calls.take j)).fits (home s)
  rw [shard_size_take hhome calls j] at hfits
  rw [Call.run_intern_full_iff, hnew, shard_size_take hhome calls j, and_assoc]
  refine and_congr_right fun _ => and_congr_right fun _ => ?_
  omega

end Moment

/-- A call that fails leaves no trace. -/
theorem transcript_eraseIdx {calls : List Call} {j : Nat} {e : ShardFull}
    (h : (transcript home t calls)[j]? = some (.intern s, .full e)) :
    transcript home t (calls.eraseIdx j) = (transcript home t calls).eraseIdx j := by
  obtain ⟨hcall, hanswer⟩ := call_of_transcript h
  have hsame : t.after home (calls.take (j + 1)) = t.after home (calls.take j) := by
    rw [List.take_add_one, hcall, Option.toList_some, after, List.foldl_concat, ← after]
    rcases Call.run_cases home (t.after home (calls.take j)) (.intern s) with hrun | ⟨r, _, -, -, hrun⟩
    · exact hrun
    · rw [hrun] at hanswer
      exact nomatch hanswer
  rw [List.eraseIdx_eq_take_drop_succ, List.eraseIdx_eq_take_drop_succ, transcript_append, take_transcript,
    drop_transcript, hsame]

/-- A name fits into 32 bits. -/
theorem Tidy.raw_lt (h : Tidy home t) (hn : t.find? home s = some n) : n.raw < 2 ^ 32 := by
  obtain ⟨slot, hslot, rfl⟩ := Option.map_eq_some_iff.mp hn
  have hfits := h.fits (home s)
  obtain ⟨hlt, -⟩ := Array.getElem?_eq_some_iff.mp ((Shard.agree _).mp hslot)
  have hshard : (home s).val < 16 := (home s).isLt
  simp only [Name.maxSlot] at hfits
  simp only [Name.pack, shardCount]
  omega

/-- A name table is a stable bijection, whatever shards strings are sent to, as long as the empty one goes to
shard 0. In every history of calls two answers give the same name exactly if it is for the same string,
names fit into 32 bits, looking a name up later gives its string, the empty string always has the empty
name, and the size is the number of other strings named before. Interning fails exactly on a new string
whose shard has no slot left, and the history without such a call has the same other answers. -/
theorem transcript_stable_bijection {home : String → Fin shardCount} (hhome : (home "").val = 0)
    (calls : List Call) :
    let log := transcript home empty calls
    (∀ s s' n n', (.intern s, .name n) ∈ log → (.intern s', .name n') ∈ log → (n = n' ↔ s = s')) ∧
      (∀ s n, (.intern s, .name n) ∈ log → n.raw < 2 ^ 32) ∧
      (∀ (i j : Nat) s n a, i < j → log[i]? = some (.intern s, .name n) → log[j]? = some (.lookup n, a) →
        a = .string s) ∧
      (∀ a, (.intern "", a) ∈ log → a = .name .empty) ∧
      (∀ (j : Nat) a, log[j]? = some (.size, a) →
        a = .count {s | s ≠ "" ∧ ∃ n, (.intern s, .name n) ∈ log.take j}.ncard) ∧
      (∀ (j : Nat) s a, log[j]? = some (.intern s, a) → ((∃ e, a = .full e) ↔
        s ≠ "" ∧ (∀ n, (.intern s, .name n) ∉ log.take j) ∧
          {r | r ≠ "" ∧ home r = home s ∧ ∃ n, (.intern r, .name n) ∈ log.take j}.ncard = Name.maxSlot)) ∧
      ∀ (j : Nat) s e, log[j]? = some (.intern s, .full e) →
        transcript home empty (calls.eraseIdx j) = log.eraseIdx j := by
  -- a string that got a name is known to the end
  have hknown : ∀ {s n}, (.intern s, .name n) ∈ transcript home empty calls →
      (empty.after home calls).find? home s = some n := fun h => (find?_after hhome calls).mpr (.inr h)
  refine ⟨fun s s' n n' h h' => ⟨?_, ?_⟩, fun s n h => (tidy_after home calls).raw_lt (hknown h),
    fun i j s n a hij hi hj => ?_, fun a ha => ?_, fun j a hj => ?_, fun j s a hj => ?_, fun j s e hj => ?_⟩
  · rintro rfl
    exact (lookup_of_find? (hknown h)).symm.trans (lookup_of_find? (hknown h'))
  · rintro rfl
    exact Option.some.inj ((hknown h).symm.trans (hknown h'))
  · obtain ⟨-, rfl⟩ := call_of_transcript hj
    have hmem : (.intern s, .name n) ∈ (transcript home empty calls).take j :=
      List.mem_of_getElem? ((List.getElem?_take_of_lt hij).trans hi)
    exact congrArg Answer.string (lookup_of_find? ((find?_take hhome calls j).mpr (.inr hmem)))
  · obtain ⟨j, hj⟩ := List.mem_iff_getElem?.mp ha
    obtain ⟨-, rfl⟩ := call_of_transcript hj
    rw [Call.run, internIn_known ((find?_take hhome calls j).mpr (.inl ⟨rfl, rfl⟩))]
  · obtain ⟨-, rfl⟩ := call_of_transcript hj
    exact congrArg Answer.count (size_take hhome calls j)
  · obtain ⟨-, rfl⟩ := call_of_transcript hj
    exact intern_full_take hhome calls j
  · exact transcript_eraseIdx hj

/-- Four strings are interned, one of them twice and one of them empty: the table then holds two. -/
theorem transcript_stable_bijection_homeShard :
    (homeShard "").val = 0 ∧
      {s | s ≠ "" ∧ ∃ n, (.intern s, .name n) ∈ (transcript homeShard empty
        [.intern "x", .intern "", .intern "y", .intern "x", .size]).take 4}.ncard = 2 := by
  have hhome : (homeShard "").val = 0 := rfl
  refine ⟨hhome, ?_⟩
  obtain ⟨-, -, -, -, hsize, -⟩ := transcript_stable_bijection hhome
    [.intern "x", .intern "", .intern "y", .intern "x", .size]
  have hlog : (transcript homeShard empty [.intern "x", .intern "", .intern "y", .intern "x", .size])[4]? =
      some (.size, .count 2) := by cbv
  exact (Answer.count.inj (hsize 4 _ hlog)).symm

end NameTable

end SsaFlow

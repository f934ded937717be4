-- SUMMARY: Identifiers of variables, temporaries and blocks, versioned variables, and operands.

/-!
# Values

What instructions read and write. Variables, temporaries and blocks are numbered; a variable reference
carries a version, and version 0 means that no definition has been bound to it.
-/

namespace SsaFlow

/-- A source variable, by its place in the function's variable table. -/
abbrev VarId := Nat

/-- A temporary that holds an intermediate result; each is written once. -/
abbrev TempId := Nat

/-- A block of a flow graph, by its place in the graph. -/
abbrev BlockId := Nat

def showVar (var : VarId) : String := s!"%{var}"

def showTemp (temp : TempId) : String := s!"t{temp}"

def showBlock (block : BlockId) : String := s!"bb{block}"

def commaSeparated (parts : List String) : String := ", ".intercalate parts

/-! ## Versioned variables -/

/-- A source variable at one version. -/
structure VersionedVar where
  var : VarId
  version : Nat
deriving DecidableEq, Hashable, Inhabited

namespace VersionedVar

/-- A reference that no definition is bound to yet. -/
def unbound (var : VarId) : VersionedVar := ⟨var, 0⟩

/-- Whether a definition is bound to the reference. -/
def isBound (v : VersionedVar) : Bool := v.version != 0

/-- The written form `%variable.version`. -/
def text : VersionedVar → String
  | ⟨var, version⟩ => s!"%{var}.{version}"

instance : ToString VersionedVar := ⟨text⟩

@[simp] theorem unbound_var (var : VarId) : (unbound var).var = var := rfl

@[simp] theorem unbound_version (var : VarId) : (unbound var).version = 0 := rfl

theorem isBound_iff {v : VersionedVar} : v.isBound = true ↔ v.version ≠ 0 := by
  simp [isBound]

/-- Order by variable, then by version. -/
instance : Ord VersionedVar := ⟨compareLex (compareOn var) (compareOn version)⟩

instance : Std.TransOrd VersionedVar :=
  inferInstanceAs (Std.TransCmp (compareLex (compareOn var) (compareOn version)))

instance : Std.LawfulEqOrd VersionedVar where
  eq_of_compare {v w} h := by
    obtain ⟨hvar, hversion⟩ := compareLex_eq_eq.mp h
    cases v
    cases w
    cases Nat.compare_eq_eq.mp hvar
    cases Nat.compare_eq_eq.mp hversion
    rfl

end VersionedVar

/-! ## Operands -/

/-- A value that an instruction or a jump reads. -/
inductive Operand where
  | const (value : Int)
  | temp (id : TempId)
  | var (value : VersionedVar)
deriving DecidableEq, Inhabited

namespace Operand

/-- The variable that the operand reads, if it reads one. -/
def var? : Operand → Option VersionedVar
  | .var v => some v
  | .const _ | .temp _ => none

/-- Replaces the variable read, if there is one. -/
def mapVar (f : VersionedVar → VersionedVar) : Operand → Operand
  | .var v => .var (f v)
  | .const c => .const c
  | .temp t => .temp t

def text : Operand → String
  | .const value => toString value
  | .temp id => showTemp id
  | .var v => v.text

instance : ToString Operand := ⟨text⟩

end Operand

end SsaFlow

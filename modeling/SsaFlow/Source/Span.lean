-- SUMMARY: Half-open ranges of source offsets, their union and their order.

/-!
# Source spans

A span is a half-open range `start..stop` of offsets. Spans are ordered by where they start, then by
where they stop; `Span.le` is that order as a test, for sorting.
-/

namespace SsaFlow

/-- A range of source offsets; `stop` is the first offset after it. -/
structure Span where
  start : Nat
  stop : Nat
deriving DecidableEq, Inhabited

namespace Span

/-- The span of something that stands nowhere in the source. -/
def nowhere : Span := ⟨0, 0⟩

def isEmpty (s : Span) : Bool := decide (s.stop ≤ s.start)

/-- The least span that covers both. -/
def merge (s t : Span) : Span := ⟨min s.start t.start, max s.stop t.stop⟩

/-- Order by start, then by stop. -/
def cmp (s t : Span) : Ordering := (compare s.start t.start).then (compare s.stop t.stop)

/-- `s` does not come after `t`. -/
def le (s t : Span) : Bool := decide (s.start < t.start ∨ (s.start = t.start ∧ s.stop ≤ t.stop))

def text : Span → String
  | ⟨start, stop⟩ => s!"{start}..{stop}"

instance : ToString Span := ⟨text⟩

/-! ## Order -/

theorem le_iff {s t : Span} :
    s.le t = true ↔ s.start < t.start ∨ (s.start = t.start ∧ s.stop ≤ t.stop) := by
  simp [le]

theorem le_trans {s t u : Span} (h : s.le t = true) (k : t.le u = true) : s.le u = true := by
  rw [le_iff] at *
  omega

theorem le_total (s t : Span) : (s.le t || t.le s) = true := by
  rw [Bool.or_eq_true, le_iff, le_iff]
  omega

theorem le_antisymm {s t : Span} (h : s.le t = true) (k : t.le s = true) : s = t := by
  rw [le_iff] at h k
  cases s
  cases t
  simp only [mk.injEq] at *
  omega

end Span

end SsaFlow

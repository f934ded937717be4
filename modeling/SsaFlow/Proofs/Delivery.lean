-- SUMMARY: A diagnostic queue refuses errors past its limit and repeats, and delivers the rest once, in source order.
import Mathlib
import SsaFlow.Diagnostic.Queue

/-!
# Delivery of diagnostics

A queue is used by pushing and draining. What it owes to its user can be told from the outside: a listener
who hears each request and its reply knows what was taken and not delivered yet, and that is what waits in the
queue. The invariant on the queue itself is `Consistent`: the counter counts the errors that wait, a limit is
kept to, and where repeats are refused none waits.
-/

namespace SsaFlow

namespace DiagnosticQueue

variable {q : DiagnosticQueue} {d e : Diagnostic} {config : QueueConfig}

/-! ## Refusing -/

/-- Two diagnostics say the same thing of the same place. -/
def Repeats (d e : Diagnostic) : Prop := d.code = e.code ∧ d.anchor? = e.anchor?

def errorsIn (ds : List Diagnostic) : Nat := ds.countP fun d => decide (d.severity = .error)

/-- Why a diagnostic is refused while others wait: it is an error too many, or a repeat. -/
def Refused (config : QueueConfig) (waiting : List Diagnostic) (d : Diagnostic) : Prop :=
  (d.severity = .error ∧ config.errorLimit ≠ 0 ∧ config.errorLimit ≤ errorsIn waiting) ∨
    (config.deduplicate = true ∧ ∃ w ∈ waiting, Repeats w d)

theorem errorsIn_append_singleton (ds : List Diagnostic) (d : Diagnostic) :
    errorsIn (ds ++ [d]) = if d.severity = .error then errorsIn ds + 1 else errorsIn ds := by
  unfold errorsIn
  rw [List.countP_append, List.countP_singleton]
  split <;> simp_all

/-- The errors are counted, kept within the limit, and no diagnostic waits twice where that is refused. -/
structure Consistent (q : DiagnosticQueue) : Prop where
  counted : q.errorCount = errorsIn q.waiting
  limited : q.config.errorLimit ≠ 0 → q.errorCount ≤ q.config.errorLimit
  distinct : q.config.deduplicate = true → q.waiting.Pairwise fun d e => ¬ Repeats d e

theorem holds_iff : q.holds d = true ↔ ∃ w ∈ q.waiting, Repeats w d := by
  simp [holds, Repeats]

/-- A consistent queue takes what there is no reason to refuse. -/
theorem Consistent.accepts_iff (h : q.Consistent) :
    q.accepts d = true ↔ ¬ Refused q.config q.waiting d := by
  have hreasons : (d.isError && q.isFull || q.config.deduplicate && q.holds d) = true ↔
      Refused q.config q.waiting d := by
    rw [Bool.or_eq_true, Bool.and_eq_true, Bool.and_eq_true, holds_iff]
    simp [Refused, isFull, Diagnostic.isError, h.counted]
  rw [accepts, Bool.not_eq_true', ← Bool.not_eq_true, hreasons]

/-! ## Pushing and draining -/

theorem consistent_new (config : QueueConfig) : Consistent { config := config } :=
  ⟨rfl, fun _ => Nat.zero_le _, fun _ => .nil⟩

/-- A push is refused for a reason and then changes nothing, or the diagnostic joins at the end. -/
theorem Consistent.push_cases (h : q.Consistent) (d : Diagnostic) :
    (Refused q.config q.waiting d ∧ q.push d = (false, q)) ∨
      (¬ Refused q.config q.waiting d ∧ ∃ q', q.push d = (true, q') ∧ q'.config = q.config ∧
        q'.waiting = q.waiting ++ [d] ∧
        q'.errorCount = if d.severity = .error then q.errorCount + 1 else q.errorCount) := by
  unfold push
  by_cases haccept : q.accepts d = true
  · rw [if_pos haccept]
    exact .inr ⟨h.accepts_iff.mp haccept, _, rfl, rfl, rfl, by simp [Diagnostic.isError]⟩
  · rw [if_neg haccept]
    exact .inl ⟨not_not.mp (mt h.accepts_iff.mpr haccept), rfl⟩

/-- The counts stay right whether a diagnostic is taken or refused. -/
theorem Consistent.push (h : q.Consistent) (d : Diagnostic) : (q.push d).2.Consistent := by
  obtain ⟨-, heq⟩ | ⟨hnot, q', heq, hconfig, hwaiting, hcount⟩ := h.push_cases d
  · rw [heq]
    exact h
  · rw [heq]
    refine ⟨?_, fun hlimit => ?_, fun hdedup => ?_⟩
    · rw [hcount, hwaiting, errorsIn_append_singleton, h.counted]
    · rw [hconfig] at hlimit ⊢
      rw [hcount]
      split
      · next herror =>
        -- An error is taken only while there is room for one more.
        have hroom : ¬ q.config.errorLimit ≤ q.errorCount := fun hfull =>
          hnot (.inl ⟨herror, hlimit, h.counted ▸ hfull⟩)
        exact Nat.lt_of_not_le hroom
      · exact h.limited hlimit
    · rw [hconfig] at hdedup
      rw [hwaiting, List.pairwise_append]
      refine ⟨h.distinct hdedup, List.pairwise_singleton _ _, fun w hw e he => ?_⟩
      rw [List.mem_singleton.mp he]
      exact fun hrepeat => hnot (.inr ⟨hdedup, w, hw, hrepeat⟩)

/-- The delivered diagnostics are the given ones, sorted by place, where those at one place keep their
order. -/
structure SortedByPlace (given delivered : List Diagnostic) : Prop where
  perm : delivered.Perm given
  sorted : delivered.Pairwise fun d e =>
    (sortKey d).start < (sortKey e).start ∨
      ((sortKey d).start = (sortKey e).start ∧ (sortKey d).stop ≤ (sortKey e).stop)
  stable : ∀ place : Span,
    (delivered.filter fun d => decide (sortKey d = place)) = given.filter fun d => decide (sortKey d = place)

/-- Delivery is a stable sort by place. -/
theorem drain_sorted (q : DiagnosticQueue) : SortedByPlace q.waiting q.drain.1 := by
  let le : Diagnostic → Diagnostic → Bool := fun d e => (sortKey d).le (sortKey e)
  have htrans : ∀ a b c, le a b = true → le b c = true → le a c = true := fun _ _ _ => Span.le_trans
  have htotal : ∀ a b, (le a b || le b a) = true := fun _ _ => Span.le_total _ _
  have hperm : (q.waiting.mergeSort le).Perm q.waiting := List.mergeSort_perm _ _
  refine ⟨hperm, (List.pairwise_mergeSort htrans htotal _).imp Span.le_iff.mp, fun place => ?_⟩
  -- What stands at one place is sorted as it came, so the sort has it as a sublist.
  let atPlace : Diagnostic → Bool := fun d => decide (sortKey d = place)
  have hsame : (q.waiting.filter atPlace).Pairwise fun d e => le d e = true := by
    refine List.pairwise_of_forall_mem_list fun d hd e he => ?_
    have hplace : ∀ {d}, d ∈ q.waiting.filter atPlace → sortKey d = place := fun hd =>
      of_decide_eq_true (List.mem_filter.mp hd).2
    rw [Span.le_iff, hplace hd, hplace he]
    exact .inr ⟨rfl, Nat.le_refl _⟩
  have hsub : (q.waiting.filter atPlace).Sublist ((q.waiting.mergeSort le).filter atPlace) := by
    simpa using (List.sublist_mergeSort htrans htotal hsame List.filter_sublist).filter atPlace
  exact (hsub.eq_of_length (hperm.filter atPlace).length_eq.symm).symm

theorem drain_snd (q : DiagnosticQueue) : q.drain.2 = { config := q.config } := rfl

/-! ## Histories -/

inductive Request where
  | push (d : Diagnostic)
  | drain
deriving DecidableEq

inductive Reply where
  | pushed (taken : Bool)
  | delivered (ds : List Diagnostic)
deriving DecidableEq

def ask (q : DiagnosticQueue) : Request → Reply × DiagnosticQueue
  | .push d => (.pushed (q.push d).1, (q.push d).2)
  | .drain => (.delivered q.drain.1, q.drain.2)

/-- What a listener knows to be under way after a request and its reply: a diagnostic that was taken joins,
and a delivery clears the slate. -/
def note (underWay : List Diagnostic) : Request → Reply → List Diagnostic
  | .push d, .pushed true => underWay ++ [d]
  | .push _, _ => underWay
  | .drain, _ => []

/-- A queue and what a listener knows to be under way. -/
structure Session where
  queue : DiagnosticQueue
  underWay : List Diagnostic := []
deriving DecidableEq

namespace Session

variable {s : Session}

def step (s : Session) (request : Request) : Session :=
  ⟨(s.queue.ask request).2, note s.underWay request (s.queue.ask request).1⟩

/-- A new queue, asked for one thing after the other. -/
def run (config : QueueConfig) (requests : List Request) : Session :=
  requests.foldl step { queue := { config := config } }

/-- The queue is consistent and the listener is right. -/
structure Honest (config : QueueConfig) (s : Session) : Prop where
  configured : s.queue.config = config
  consistent : s.queue.Consistent
  waiting : s.queue.waiting = s.underWay

/-- One request keeps the listener right. -/
theorem Honest.step (h : Honest config s) (request : Request) : Honest config (s.step request) := by
  cases request with
  | push d =>
    refine ⟨?_, h.consistent.push d, ?_⟩
    all_goals
      unfold Session.step ask
      obtain ⟨-, heq⟩ | ⟨-, q', heq, hconfig, hwaiting, -⟩ := h.consistent.push_cases d
    · simpa [heq] using h.configured
    · simpa [heq, hconfig] using h.configured
    · simpa [heq, note] using h.waiting
    · simpa [heq, note, hwaiting] using h.waiting
  | drain => exact ⟨h.configured, consistent_new _, rfl⟩

/-- After any requests the listener is right about what is waiting. -/
theorem honest_run (config : QueueConfig) (requests : List Request) : Honest config (run config requests) := by
  unfold run
  induction requests using List.reverseRecOn with
  | nil => exact ⟨rfl, consistent_new config, rfl⟩
  | append_singleton requests request ih =>
    rw [List.foldl_append, List.foldl_cons, List.foldl_nil]
    exact ih.step request

end Session

/-- After any requests to a new queue, what waits is what was taken and not delivered, the errors among it are
counted and kept within the limit, and no repeat waits where repeats are refused. The next push is refused
exactly for one of the two reasons, and then changes nothing; the next delivery is what waits, sorted by place,
and leaves the queue as new. -/
theorem push_drain_exact (config : QueueConfig) (requests : List Request) :
    ∃ q underWay, Session.run config requests = ⟨q, underWay⟩ ∧
      q.config = config ∧ q.waiting = underWay ∧
      q.errorCount = errorsIn q.waiting ∧
      (config.errorLimit ≠ 0 → q.errorCount ≤ config.errorLimit) ∧
      (config.deduplicate = true → q.waiting.Pairwise fun d e => ¬ Repeats d e) ∧
      (∀ d, ((q.push d).1 = false ↔ Refused config q.waiting d) ∧
        ((q.push d).1 = false → (q.push d).2 = q) ∧
        ((q.push d).1 = true → (q.push d).2.waiting = q.waiting ++ [d])) ∧
      SortedByPlace underWay q.drain.1 ∧ q.drain.2 = { config := config } := by
  obtain ⟨hconfig, hconsistent, hwaiting⟩ := Session.honest_run config requests
  generalize Session.run config requests = s at *
  obtain ⟨q, underWay⟩ := s
  simp only at hconfig hconsistent hwaiting
  subst hconfig
  refine ⟨q, underWay, rfl, rfl, hwaiting, hconsistent.counted, hconsistent.limited, hconsistent.distinct,
    fun d => ?_, hwaiting ▸ drain_sorted q, drain_snd q⟩
  obtain ⟨hrefused, heq⟩ | ⟨hnot, q', heq, -, hjoined, -⟩ := hconsistent.push_cases d
  · simp [heq, hrefused]
  · simp [heq, hnot, hjoined]

def errorAt (span : Span) : Diagnostic := ⟨.internalError, .error, "", [⟨span, "", true⟩], []⟩

-- A delivery makes room again, for errors and for repeats alike.
example :
    (Session.run ⟨1, true⟩ [.push (errorAt ⟨4, 6⟩), .push (errorAt ⟨0, 2⟩), .drain,
      .push (errorAt ⟨4, 6⟩)]).underWay = [errorAt ⟨4, 6⟩] := by
  decide

end DiagnosticQueue

end SsaFlow

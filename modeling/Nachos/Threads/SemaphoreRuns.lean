import Nachos.Lib.List
import Nachos.Library.Runs
import Nachos.Threads.Synch

/-! One semaphore of `threads/synch.cc` under every interleaving of its callers. Interrupts
are off from the test of `value` to `value--`, or to the switch inside `Sleep`, and during the
whole of `V`, so a run is a sequence of tests and releases. A thread that `V` has handed to
`ReadyToRun` tests again only when it is dispatched; any number of other threads may get in
between and take the permit. -/
namespace Nachos.SemaphoreRuns

/-- A semaphore with its `int` counter and the threads inside `P`. -/
structure State where
  value : ℤ
  queue : List ThreadId
  /-- Threads that `V` moved to the ready list and that have not tested `value` again. -/
  woken : List ThreadId
  /-- How often `P` and `V` have run to the end. -/
  completedP : ℕ
  completedV : ℕ
  /-- The assertion in `List::Append` has failed. -/
  aborted : Bool
  deriving DecidableEq

inductive Label where
  /-- A thread enters `P` and tests `value`. -/
  | P (t : ThreadId)
  /-- A thread returns from `Sleep` inside `P` and tests `value` again. -/
  | resume (t : ThreadId)
  /-- `V`, by a thread or by an interrupt handler. -/
  | V (caller : Option ThreadId)
  deriving DecidableEq

namespace State

/-- A thread that is not inside `P`. -/
def Outside (s : State) (t : ThreadId) : Prop := t ∉ s.queue ∧ t ∉ s.woken

instance (s : State) (t : ThreadId) : Decidable (s.Outside t) :=
  inferInstanceAs (Decidable (_ ∧ _))

/-- One turn of the loop in `P`: `value--`, or `queue->Append` and `Sleep`. -/
def test (s : State) (t : ThreadId) : State :=
  if s.value = 0 then
    (LinkedList.append s.queue t).elim { s with aborted := true } fun queue =>
      { s with queue := queue }
  else { s with value := s.value - 1, completedP := s.completedP + 1 }

/-- `Semaphore::V`. -/
def V (s : State) : State :=
  { s with
    value := s.value + 1, queue := s.queue.tail, woken := s.woken ++ s.queue.head?.toList,
    completedV := s.completedV + 1 }

end State

/-- A sleeping thread does not run, and a failed assertion ends the run. -/
def step (s : State) (l : Label) : Option State :=
  if s.aborted then none
  else match l with
    | .P t => if s.Outside t then some (s.test t) else none
    | .resume t => if t ∈ s.woken then some ({ s with woken := s.woken.erase t }.test t) else none
    | .V caller => if ∀ t ∈ caller, s.Outside t then some s.V else none

/-- `Semaphore::Semaphore`. -/
def start (initialValue : ℤ) : State := ⟨initialValue, [], [], 0, 0, false⟩

/-- What holds between any two steps. -/
structure Inv (initialValue : ℤ) (s : State) : Prop where
  nonneg : 0 ≤ s.value
  balance : s.value = initialValue + s.completedV - s.completedP
  nodup : (s.queue ++ s.woken).Nodup
  onTheirWay : s.queue ≠ [] → s.value ≤ s.woken.length
  running : s.aborted = false

section

variable {initialValue : ℤ} {s s' : State}

/-- A turn of a thread that is neither queued nor woken, with `k` threads woken: `k` may be one
less than `value`, which the turn then takes. -/
theorem Inv.test {t : ThreadId} (hnonneg : 0 ≤ s.value)
    (hbalance : s.value = initialValue + s.completedV - s.completedP)
    (hnodup : (s.queue ++ s.woken).Nodup) (hout : s.Outside t)
    (hway : s.queue ≠ [] → s.value ≤ s.woken.length + 1) (hrun : s.aborted = false) :
    Inv initialValue (s.test t) := by
  unfold State.test
  split_ifs with hv
  · rw [LinkedList.append_eq_some hout.1]
    refine ⟨hnonneg, hbalance, ?_, ?_, hrun⟩
    · show (s.queue ++ [t] ++ s.woken).Nodup
      rw [List.append_assoc, List.singleton_append, List.nodup_middle]
      apply List.nodup_cons.mpr
      refine ⟨?_, hnodup⟩
      rw [List.mem_append, not_or]
      exact hout
    · intro _
      show s.value ≤ s.woken.length
      rw [hv]
      exact Int.natCast_nonneg _
  · refine ⟨?_, ?_, hnodup, ?_, hrun⟩
    · show 0 ≤ s.value - 1
      omega
    · show s.value - 1 = initialValue + s.completedV - (s.completedP + 1 : ℕ)
      omega
    · intro hq
      have := hway hq
      show s.value - 1 ≤ s.woken.length
      omega

theorem Inv.V (hi : Inv initialValue s) : Inv initialValue s.V := by
  refine ⟨?_, ?_, ?_, ?_, hi.running⟩
  · show 0 ≤ s.value + 1
    have := hi.nonneg
    omega
  · show s.value + 1 = initialValue + (s.completedV + 1 : ℕ) - s.completedP
    have := hi.balance
    omega
  · show (s.queue.tail ++ (s.woken ++ s.queue.head?.toList)).Nodup
    have hperm : (s.queue.tail ++ (s.woken ++ s.queue.head?.toList)).Perm (s.queue ++ s.woken) := by
      cases s.queue with
      | nil => simp
      | cons t queue =>
        show (queue ++ (s.woken ++ [t])).Perm (t :: (queue ++ s.woken))
        rw [← List.append_assoc]
        exact List.perm_append_singleton t _
    exact hperm.nodup_iff.mpr hi.nodup
  · show s.queue.tail ≠ [] → s.value + 1 ≤ (s.woken ++ s.queue.head?.toList).length
    intro htail
    cases hq : s.queue with
    | nil => simp [hq] at htail
    | cons t queue =>
      have := hi.onTheirWay (by simp [hq])
      simp only [List.head?_cons, Option.toList_some, List.length_append, List.length_singleton]
      omega

/-- Every step keeps the invariant. -/
theorem Inv.step {l : Label} (hi : Inv initialValue s) (hs : step s l = some s') :
    Inv initialValue s' := by
  unfold SemaphoreRuns.step at hs
  rw [if_neg (by simp [hi.running])] at hs
  cases l with
  | P t =>
    obtain ⟨hout, h⟩ := Option.ite_none_right_eq_some.mp hs
    cases h
    apply Inv.test hi.nonneg hi.balance hi.nodup hout _ hi.running
    intro hq
    have := hi.onTheirWay hq
    omega
  | resume t =>
    obtain ⟨hmem, h⟩ := Option.ite_none_right_eq_some.mp hs
    cases h
    have hdisjoint := List.nodup_append.mp hi.nodup
    apply Inv.test (s := { s with woken := s.woken.erase t }) hi.nonneg hi.balance _ _ _ hi.running
    · exact hi.nodup.sublist (List.Sublist.append_left List.erase_sublist _)
    · refine ⟨fun hq => hdisjoint.2.2 t hq t hmem rfl, ?_⟩
      exact hdisjoint.2.1.not_mem_erase
    · intro hq
      have := hi.onTheirWay hq
      have := List.length_erase_add_one hmem
      show s.value ≤ (s.woken.erase t).length + 1
      omega
  | V caller =>
    obtain ⟨-, h⟩ := Option.ite_none_right_eq_some.mp hs
    cases h
    exact hi.V

theorem Inv.start (h : 0 ≤ initialValue) : Inv initialValue (start initialValue) :=
  ⟨h, by simp [SemaphoreRuns.start], List.nodup_nil, fun h => absurd rfl h, rfl⟩

/-- The semaphore with a natural number as its counter. -/
def State.semaphore (s : State) : Semaphore := ⟨s.value.toNat, s.queue⟩

/-- As long as the counter is not negative, tests and releases are those of `Semaphore`. -/
theorem Inv.test_semaphore {t : ThreadId} (hi : Inv initialValue s) (hout : t ∉ s.queue) :
    (s.test t).semaphore = (s.semaphore.P t).2 := by
  have hnonneg := hi.nonneg
  unfold State.test Semaphore.P State.semaphore
  by_cases hv : s.value = 0
  · simp [hv, LinkedList.append_eq_some hout]
  · have hpos : ¬ s.value.toNat = 0 := by omega
    have hpred : (s.value - 1).toNat = s.value.toNat - 1 := by omega
    simp [hv, hpos, hpred]

theorem Inv.V_semaphore (hi : Inv initialValue s) : s.V.semaphore = s.semaphore.V.2 := by
  have hnonneg := hi.nonneg
  have hsucc : (s.value + 1).toNat = s.value.toNat + 1 := by omega
  simp [State.V, Semaphore.V, State.semaphore, hsucc]

/-- Permits are conserved, nobody is queued twice, and no wake-up is lost. -/
theorem permits_conserved (h : 0 ≤ initialValue)
    (hr : Runs.Reach step (fun _ _ => True) (start initialValue) s) :
    0 ≤ s.value ∧ s.value = initialValue + s.completedV - s.completedP ∧ s.queue.Nodup ∧
      s.woken.Nodup ∧ (∀ t ∈ s.queue, t ∉ s.woken) ∧ s.aborted = false ∧
      (s.queue ≠ [] → s.value ≤ s.woken.length) ∧
      ¬ (0 < s.value ∧ s.queue ≠ [] ∧ s.woken = []) := by
  have hi : Inv initialValue s := hr.invariant (.start h) fun _ _ _ hi _ hs => hi.step hs
  obtain ⟨hqueue, hwoken, hdisjoint⟩ := List.nodup_append.mp hi.nodup
  refine ⟨hi.nonneg, hi.balance, hqueue, hwoken, ?_, hi.running, hi.onTheirWay, ?_⟩
  · intro t hq hw
    exact hdisjoint t hq t hw rfl
  · rintro ⟨hpos, hq, hw⟩
    have hway := hi.onTheirWay hq
    rw [hw] at hway
    exact absurd hpos (not_lt.mpr hway)

end

/-- Thread 2 takes the permit meant for thread 1, which then queues behind thread 3. -/
def barging : List Label :=
  [.P 1, .V (some 2), .P 2, .P 3, .resume 1, .V none]

theorem permits_conserved_barging :
    ∃ s, Runs.exec step (start 0) barging = some s ∧ s.queue = [1] ∧ s.woken = [3] ∧
      s.value ≤ s.woken.length := by
  have hr : Runs.exec step (start 0) barging = some ⟨1, [1], [3], 1, 2, false⟩ := by decide
  refine ⟨_, hr, rfl, rfl, ?_⟩
  obtain ⟨-, -, -, -, -, -, hway, -⟩ :=
    permits_conserved (le_refl 0) (Runs.reach_of_exec hr)
  exact hway (by decide)

end Nachos.SemaphoreRuns

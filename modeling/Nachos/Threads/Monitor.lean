import Nachos.Lib.List
import Nachos.Library.Runs
import Nachos.Threads.Synch

/-! `Lock` and `Condition` of `threads/synch.cc`, used by any number of threads. A run
interleaves single accesses to shared data: a thread may lose the processor after each of
them, also inside `V` after its release has taken effect. Every assertion of the source is
checked, and a failed one ends the run. -/
namespace Nachos.Monitor

/-- Semaphores that `Condition::Wait` allocates, numbered in the order of allocation. -/
abbrev WaiterId := ℕ

structure Lock where
  semaphore : Semaphore
  lockHolder : Option ThreadId
  deriving DecidableEq

/-- Who called `Acquire` or `Release`. -/
inductive Caller where
  | client
  | wait (waiter : WaiterId)
  deriving DecidableEq

/-- What a call of `Signal` or `Broadcast` found queued, and what it has released since. The
source keeps no such record. -/
structure Call where
  queued : List WaiterId
  released : List WaiterId
  deriving DecidableEq

/-- The statement a thread executes next. In a `Signal` made by `Broadcast`, `loop` is the
record of that `Broadcast`. -/
inductive Pc where
  | outside
  /-- `semaphore->P()`, in the loop. -/
  | acquireP (caller : Caller)
  /-- `lockHolder = kernel->currentThread`. -/
  | acquireSet (caller : Caller)
  /-- `ASSERT(IsHeldByCurrentThread())` and `lockHolder = NULL`. -/
  | releaseTest (caller : Caller)
  /-- `semaphore->V()`. -/
  | releaseV (caller : Caller)
  /-- `waitQueue->Append(waiter)`. -/
  | waitAppend (waiter : WaiterId)
  /-- `waiter->P()`, in the loop. -/
  | waitP (waiter : WaiterId)
  /-- `delete waiter`. -/
  | waitDelete (waiter : WaiterId)
  /-- The assertion and `waitQueue->IsEmpty()`. -/
  | signalTest (loop : Option Call)
  /-- `waiter = waitQueue->RemoveFront()`. -/
  | signalRemove (queued : List WaiterId) (loop : Option Call)
  /-- `waiter->V()`. -/
  | signalV (waiter : WaiterId) (queued : List WaiterId) (loop : Option Call)
  /-- The end of `V`, where interrupts are enabled again, and the end of `Signal`. -/
  | signalReturn (call : Call) (loop : Option Call)
  /-- `waitQueue->IsEmpty()` in the loop of `Broadcast`. -/
  | broadcastTest (call : Call)
  /-- The end of `Broadcast`. -/
  | broadcastReturn (call : Call)
  deriving DecidableEq

inductive Event where
  | enqueued (t : ThreadId) (waiter : WaiterId)
  | released (waiter : WaiterId)
  | reacquired (t : ThreadId) (waiter : WaiterId)
  | returned (t : ThreadId) (waiter : WaiterId)
  deriving DecidableEq

inductive Failure where
  /-- `ASSERT(IsHeldByCurrentThread())`. -/
  | notHeld
  /-- The assertion in `List::Append`. -/
  | duplicate
  /-- The assertion in `List::RemoveFront`. -/
  | emptyList
  /-- Use of a semaphore that is not, or no longer, allocated. -/
  | deleted
  deriving DecidableEq

structure State where
  lock : Lock
  waitQueue : List WaiterId
  /-- The allocated semaphores. -/
  waiter : WaiterId → Option Semaphore
  next : WaiterId
  pc : ThreadId → Pc
  /-- Threads between the end of `Acquire` and the start of `Release`. -/
  inside : List ThreadId
  log : List Event
  failure : Option Failure

inductive Routine where
  | acquire
  | release
  | wait
  | signal
  | broadcast
  deriving DecidableEq

inductive Label where
  | call (t : ThreadId) (routine : Routine)
  | run (t : ThreadId)
  deriving DecidableEq

def Label.thread : Label → ThreadId
  | .call t _ | .run t => t

/-- The lock is free and nobody waits. -/
def start : State where
  lock := ⟨Semaphore.new 1, none⟩
  waitQueue := []
  waiter := fun _ => none
  next := 0
  pc := fun _ => .outside
  inside := []
  log := []
  failure := none

/-- Where a thread goes on after `Acquire`, and what its return means for the log. -/
def Caller.afterAcquire : Caller → Pc
  | .client => .outside
  | .wait w => .waitDelete w

def Caller.acquired (t : ThreadId) : Caller → List Event
  | .client => []
  | .wait w => [.reacquired t w]

def Caller.afterRelease : Caller → Pc
  | .client => .outside
  | .wait w => .waitP w

/-- Where a thread goes on after `Signal`. -/
def Call.afterSignal (call : Call) : Option Call → Pc
  | none => .outside
  | some loop => .broadcastTest ⟨loop.queued, loop.released ++ call.released⟩

namespace State

def goto (s : State) (t : ThreadId) (pc : Pc) : State :=
  { s with pc := Function.update s.pc t pc }

def fail (s : State) (failure : Failure) : State := { s with failure := some failure }

/-- `Lock::IsHeldByCurrentThread`. -/
def Held (s : State) (t : ThreadId) : Prop := s.lock.lockHolder = some t

instance (s : State) (t : ThreadId) : Decidable (s.Held t) :=
  inferInstanceAs (Decidable (_ = _))

/-- The start of a routine, up to its first access to shared data. `Wait` has checked its
assertion and allocated its semaphore; `Broadcast` has looked at the queue once. -/
def enter (s : State) (t : ThreadId) : Routine → State
  | .acquire => s.goto t (.acquireP .client)
  | .release => s.goto t (.releaseTest .client)
  | .wait =>
    if s.Held t then
      { s with
        waiter := Function.update s.waiter s.next (some (Semaphore.new 0)), next := s.next + 1,
        pc := Function.update s.pc t (.waitAppend s.next) }
    else s.fail .notHeld
  | .signal => s.goto t (.signalTest none)
  | .broadcast =>
    if s.waitQueue = [] then s.goto t (.broadcastReturn ⟨[], []⟩)
    else s.goto t (.signalTest (some ⟨s.waitQueue, []⟩))

/-- One turn of the loop in `P` on the semaphore of the lock. -/
def acquireTurn (s : State) (t : ThreadId) (caller : Caller) : Option State :=
  if t ∈ s.lock.semaphore.queue then none
  else
    let turn := s.lock.semaphore.P t
    some { s with
      lock := { s.lock with semaphore := turn.2 },
      pc := Function.update s.pc t (if turn.1 then .acquireSet caller else .acquireP caller) }

/-- One turn of the loop in `P` on the waiter's own semaphore. -/
def waitTurn (s : State) (t : ThreadId) (w : WaiterId) : Option State :=
  match s.waiter w with
  | none => some (s.fail .deleted)
  | some sem =>
    if t ∈ sem.queue then none
    else
      let turn := sem.P t
      some { s with
        waiter := Function.update s.waiter w (some turn.2),
        pc := Function.update s.pc t (if turn.1 then .acquireP (.wait w) else .waitP w) }

/-- The next statement of thread `t`. A thread that sleeps in a queue has none. -/
def advance (s : State) (t : ThreadId) : Option State :=
  match s.pc t with
  | .outside => none
  | .acquireP caller => s.acquireTurn t caller
  | .acquireSet caller => some { s with
      lock := { s.lock with lockHolder := some t }, inside := t :: s.inside,
      log := s.log ++ caller.acquired t, pc := Function.update s.pc t caller.afterAcquire }
  | .releaseTest caller =>
    if s.Held t then some { s with
      lock := { s.lock with lockHolder := none }, inside := s.inside.erase t,
      pc := Function.update s.pc t (.releaseV caller) }
    else some (s.fail .notHeld)
  | .releaseV caller => some { s with
      lock := { s.lock with semaphore := s.lock.semaphore.V.2 },
      pc := Function.update s.pc t caller.afterRelease }
  | .waitAppend w =>
    match LinkedList.append s.waitQueue w with
    | none => some (s.fail .duplicate)
    | some queue => some { s with
        waitQueue := queue, log := s.log ++ [.enqueued t w],
        pc := Function.update s.pc t (.releaseTest (.wait w)) }
  | .waitP w => s.waitTurn t w
  | .waitDelete w =>
    match s.waiter w with
    | none => some (s.fail .deleted)
    | some _ => some { s with
        waiter := Function.update s.waiter w none, log := s.log ++ [.returned t w],
        pc := Function.update s.pc t .outside }
  | .signalTest loop =>
    if s.Held t then
      if s.waitQueue = [] then some (s.goto t (.signalReturn ⟨[], []⟩ loop))
      else some (s.goto t (.signalRemove s.waitQueue loop))
    else some (s.fail .notHeld)
  | .signalRemove queued loop =>
    match LinkedList.removeFront s.waitQueue with
    | none => some (s.fail .emptyList)
    | some (w, queue) => some { s with
        waitQueue := queue, pc := Function.update s.pc t (.signalV w queued loop) }
  | .signalV w queued loop =>
    match s.waiter w with
    | none => some (s.fail .deleted)
    | some sem => some { s with
        waiter := Function.update s.waiter w (some sem.V.2), log := s.log ++ [.released w],
        pc := Function.update s.pc t (.signalReturn ⟨queued, [w]⟩ loop) }
  | .signalReturn call loop => some (s.goto t (call.afterSignal loop))
  | .broadcastTest call =>
    if s.waitQueue = [] then some (s.goto t (.broadcastReturn call))
    else some (s.goto t (.signalTest (some call)))
  | .broadcastReturn _ => some (s.goto t .outside)

end State

def step (s : State) (l : Label) : Option State :=
  if s.failure.isSome then none
  else match l with
    | .call t routine => if s.pc t = .outside then some (s.enter t routine) else none
    | .run t => s.advance t

/-- What one step of thread `t` does. -/
inductive Move (s : State) (t : ThreadId) : State → Prop
  | goto {pc : Pc} (hpc : s.pc t = .outside) (hpc' : pc = .acquireP .client ∨
      pc = .releaseTest .client ∨ pc = .signalTest none) : Move s t (s.goto t pc)
  | newWaiter (hpc : s.pc t = .outside) (held : s.Held t) : Move s t { s with
      waiter := Function.update s.waiter s.next (some (Semaphore.new 0)), next := s.next + 1,
      pc := Function.update s.pc t (.waitAppend s.next) }
  | broadcastNone (hpc : s.pc t = .outside) : Move s t (s.goto t (.broadcastReturn ⟨[], []⟩))
  | broadcastSome (hpc : s.pc t = .outside) (hqueue : s.waitQueue ≠ []) :
      Move s t (s.goto t (.signalTest (some ⟨s.waitQueue, []⟩)))
  | lockTaken {caller : Caller} (hpc : s.pc t = .acquireP caller)
      (hvalue : s.lock.semaphore.value ≠ 0) : Move s t { s with
        lock := { s.lock with semaphore :=
          { s.lock.semaphore with value := s.lock.semaphore.value - 1 } },
        pc := Function.update s.pc t (.acquireSet caller) }
  | lockQueued {caller : Caller} (hpc : s.pc t = .acquireP caller) : Move s t { s with
      lock := { s.lock with semaphore :=
        { s.lock.semaphore with queue := s.lock.semaphore.queue ++ [t] } },
      pc := Function.update s.pc t (.acquireP caller) }
  | acquireSet {caller : Caller} (hpc : s.pc t = .acquireSet caller) : Move s t { s with
      lock := { s.lock with lockHolder := some t }, inside := t :: s.inside,
      log := s.log ++ caller.acquired t, pc := Function.update s.pc t caller.afterAcquire }
  | releaseTest {caller : Caller} (hpc : s.pc t = .releaseTest caller) (held : s.Held t) :
      Move s t { s with
        lock := { s.lock with lockHolder := none }, inside := s.inside.erase t,
        pc := Function.update s.pc t (.releaseV caller) }
  | releaseV {caller : Caller} (hpc : s.pc t = .releaseV caller) : Move s t { s with
      lock := { s.lock with semaphore := s.lock.semaphore.V.2 },
      pc := Function.update s.pc t caller.afterRelease }
  | waitAppend {w : WaiterId} (hpc : s.pc t = .waitAppend w) : Move s t { s with
      waitQueue := s.waitQueue ++ [w], log := s.log ++ [.enqueued t w],
      pc := Function.update s.pc t (.releaseTest (.wait w)) }
  | waiterTaken {w : WaiterId} {sem : Semaphore} (hpc : s.pc t = .waitP w)
      (hw : s.waiter w = some sem) (hvalue : sem.value ≠ 0) : Move s t { s with
        waiter := Function.update s.waiter w (some { sem with value := sem.value - 1 }),
        pc := Function.update s.pc t (.acquireP (.wait w)) }
  | waiterQueued {w : WaiterId} {sem : Semaphore} (hpc : s.pc t = .waitP w)
      (hw : s.waiter w = some sem) (hawake : t ∉ sem.queue) (hvalue : sem.value = 0) :
      Move s t { s with
        waiter := Function.update s.waiter w (some { sem with queue := sem.queue ++ [t] }),
        pc := Function.update s.pc t (.waitP w) }
  | waitDelete {w : WaiterId} (hpc : s.pc t = .waitDelete w) : Move s t { s with
      waiter := Function.update s.waiter w none, log := s.log ++ [.returned t w],
      pc := Function.update s.pc t .outside }
  | signalNone {loop : Option Call} (hpc : s.pc t = .signalTest loop) (held : s.Held t)
      (hqueue : s.waitQueue = []) : Move s t (s.goto t (.signalReturn ⟨[], []⟩ loop))
  | signalSome {loop : Option Call} (hpc : s.pc t = .signalTest loop) (held : s.Held t)
      (hqueue : s.waitQueue ≠ []) : Move s t (s.goto t (.signalRemove s.waitQueue loop))
  | signalRemove {w : WaiterId} {queue queued : List WaiterId} {loop : Option Call}
      (hpc : s.pc t = .signalRemove queued loop) (hqueue : s.waitQueue = w :: queue) :
      Move s t { s with
        waitQueue := queue, pc := Function.update s.pc t (.signalV w queued loop) }
  | signalV {w : WaiterId} {sem : Semaphore} {queued : List WaiterId} {loop : Option Call}
      (hpc : s.pc t = .signalV w queued loop) (hw : s.waiter w = some sem) : Move s t { s with
        waiter := Function.update s.waiter w (some sem.V.2), log := s.log ++ [.released w],
        pc := Function.update s.pc t (.signalReturn ⟨queued, [w]⟩ loop) }
  | signalReturn {call : Call} {loop : Option Call} (hpc : s.pc t = .signalReturn call loop) :
      Move s t (s.goto t (call.afterSignal loop))
  | broadcastEnd {call : Call} (hpc : s.pc t = .broadcastTest call) (hqueue : s.waitQueue = []) :
      Move s t (s.goto t (.broadcastReturn call))
  | broadcastNext {call : Call} (hpc : s.pc t = .broadcastTest call) (hqueue : s.waitQueue ≠ []) :
      Move s t (s.goto t (.signalTest (some call)))
  | broadcastReturn {call : Call} (hpc : s.pc t = .broadcastReturn call) :
      Move s t (s.goto t .outside)

/-- The thread is about to assert that it holds the lock. -/
def Pc.asserts : Pc → Bool
  | .releaseTest _ | .signalTest _ => true
  | _ => false

/-- Why a step of thread `t` may fail. The first assertion of `Wait` is checked on entry. -/
inductive Fails (s : State) (t : ThreadId) : Failure → Prop
  | notHeld (hpc : s.pc t = .outside ∨ (s.pc t).asserts = true) (h : ¬ s.Held t) :
      Fails s t .notHeld
  | duplicate {w : WaiterId} (hpc : s.pc t = .waitAppend w) (hw : w ∈ s.waitQueue) :
      Fails s t .duplicate
  | emptyList {queued : List WaiterId} {loop : Option Call}
      (hpc : s.pc t = .signalRemove queued loop) (hqueue : s.waitQueue = []) :
      Fails s t .emptyList
  | waitP {w : WaiterId} (hpc : s.pc t = .waitP w) (hw : s.waiter w = none) : Fails s t .deleted
  | waitDelete {w : WaiterId} (hpc : s.pc t = .waitDelete w) (hw : s.waiter w = none) :
      Fails s t .deleted
  | signalV {w : WaiterId} {queued : List WaiterId} {loop : Option Call}
      (hpc : s.pc t = .signalV w queued loop) (hw : s.waiter w = none) : Fails s t .deleted

section

variable {s s' : State} {t : ThreadId}

/-- A step moves its thread or fails. -/
def Result (s : State) (t : ThreadId) (s' : State) : Prop :=
  Move s t s' ∨ ∃ failure, Fails s t failure ∧ s' = s.fail failure

theorem enter_result {routine : Routine} (hpc : s.pc t = .outside) :
    Result s t (s.enter t routine) := by
  cases routine with
  | acquire => exact .inl (.goto hpc (by simp))
  | release => exact .inl (.goto hpc (by simp))
  | wait =>
    simp only [State.enter]
    split_ifs with held
    · exact .inl (.newWaiter hpc held)
    · exact .inr ⟨_, .notHeld (.inl hpc) held, rfl⟩
  | signal => exact .inl (.goto hpc (by simp))
  | broadcast =>
    simp only [State.enter]
    split_ifs with hqueue
    · exact .inl (.broadcastNone hpc)
    · exact .inl (.broadcastSome hpc hqueue)

theorem acquireTurn_result {caller : Caller} (hpc : s.pc t = .acquireP caller)
    (h : s.acquireTurn t caller = some s') : Result s t s' := by
  obtain ⟨-, h⟩ := Option.ite_none_left_eq_some.mp h
  by_cases hvalue : s.lock.semaphore.value = 0
  · rw [Semaphore.P_of_zero hvalue] at h
    cases h
    exact .inl (.lockQueued hpc)
  · rw [Semaphore.P_of_ne_zero hvalue] at h
    cases h
    exact .inl (.lockTaken hpc hvalue)

theorem waitTurn_result {w : WaiterId} (hpc : s.pc t = .waitP w)
    (h : s.waitTurn t w = some s') : Result s t s' := by
  unfold State.waitTurn at h
  cases hw : s.waiter w with
  | none =>
    rw [hw] at h
    cases h
    exact .inr ⟨_, .waitP hpc hw, rfl⟩
  | some sem =>
    rw [hw] at h
    obtain ⟨hawake, h⟩ := Option.ite_none_left_eq_some.mp h
    by_cases hvalue : sem.value = 0
    · rw [Semaphore.P_of_zero hvalue] at h
      cases h
      exact .inl (.waiterQueued hpc hw hawake hvalue)
    · rw [Semaphore.P_of_ne_zero hvalue] at h
      cases h
      exact .inl (.waiterTaken hpc hw hvalue)

theorem advance_result (h : s.advance t = some s') : Result s t s' := by
  unfold State.advance at h
  cases hpc : s.pc t <;> rw [hpc] at h <;> dsimp only at h
  case outside => cases h
  case acquireP caller => exact acquireTurn_result hpc h
  case acquireSet caller =>
    cases h
    exact .inl (.acquireSet hpc)
  case releaseTest caller =>
    split_ifs at h with held <;> cases h
    · exact .inl (.releaseTest hpc held)
    · exact .inr ⟨_, .notHeld (.inr (by rw [hpc]; rfl)) held, rfl⟩
  case releaseV caller =>
    cases h
    exact .inl (.releaseV hpc)
  case waitAppend w =>
    unfold LinkedList.append at h
    split_ifs at h with hw <;> cases h
    · exact .inr ⟨_, .duplicate hpc hw, rfl⟩
    · exact .inl (.waitAppend hpc)
  case waitP w => exact waitTurn_result hpc h
  case waitDelete w =>
    cases hw : s.waiter w <;> rw [hw] at h <;> cases h
    · exact .inr ⟨_, .waitDelete hpc hw, rfl⟩
    · exact .inl (.waitDelete hpc)
  case signalTest loop =>
    split_ifs at h with held hqueue <;> cases h
    · exact .inl (.signalNone hpc held hqueue)
    · exact .inl (.signalSome hpc held hqueue)
    · exact .inr ⟨_, .notHeld (.inr (by rw [hpc]; rfl)) held, rfl⟩
  case signalRemove queued loop =>
    cases hqueue : s.waitQueue <;> rw [hqueue] at h <;> cases h
    · exact .inr ⟨_, .emptyList hpc hqueue, rfl⟩
    · exact .inl (.signalRemove hpc hqueue)
  case signalV w queued loop =>
    cases hw : s.waiter w <;> rw [hw] at h <;> cases h
    · exact .inr ⟨_, .signalV hpc hw, rfl⟩
    · exact .inl (.signalV hpc hw)
  case signalReturn call loop =>
    cases h
    exact .inl (.signalReturn hpc)
  case broadcastTest call =>
    split_ifs at h with hqueue <;> cases h
    · exact .inl (.broadcastEnd hpc hqueue)
    · exact .inl (.broadcastNext hpc hqueue)
  case broadcastReturn call =>
    cases h
    exact .inl (.broadcastReturn hpc)

theorem step_result {l : Label} (h : step s l = some s') :
    s.failure = none ∧ Result s l.thread s' := by
  unfold step at h
  split_ifs at h with hfailure
  refine ⟨by simpa using hfailure, ?_⟩
  cases l with
  | call t routine =>
    obtain ⟨hpc, h⟩ := Option.ite_none_right_eq_some.mp h
    cases h
    exact enter_result hpc
  | run t => exact advance_result h

end

end Nachos.Monitor

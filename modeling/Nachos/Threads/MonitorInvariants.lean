import Nachos.Threads.Monitor

/-! Safety of `Lock` and `Condition`. The semaphore of a lock has one permit, which is either
in its counter or with one thread. Everything about the queue of a condition and about the
semaphores in it rests on that, since both are only touched by the thread that has it. -/
namespace Nachos.Monitor

/-- The thread has the permit while `lockHolder` does not name it. -/
def Pc.passing : Pc → Bool
  | .acquireSet _ | .releaseV _ => true
  | _ => false

/-- The thread has passed an assertion that it holds the lock. -/
def Pc.holding : Pc → Bool
  | .releaseTest (.wait _) | .waitAppend _ | .waitDelete _ | .signalRemove _ _
  | .signalV _ _ _ | .signalReturn _ _ | .broadcastTest _ => true
  | _ => false

/-- The permit of the lock is with `token`. -/
structure LockInv (s : State) (token : Option ThreadId) : Prop where
  value : s.lock.semaphore.value = if token = none then 1 else 0
  inside : s.inside = s.lock.lockHolder.toList
  holder : ∀ t, s.Held t → token = some t
  passing : ∀ t, (s.pc t).passing = true → token = some t ∧ s.lock.lockHolder = none
  holding : ∀ t, (s.pc t).holding = true → s.Held t

section

variable {s s' : State} {t : ThreadId} {pc : Pc} {token : Option ThreadId}

theorem update_cases (f : ThreadId → Pc) (t : ThreadId) (pc : Pc) (u : ThreadId) :
    (u = t ∧ Function.update f t pc u = pc) ∨ (u ≠ t ∧ Function.update f t pc u = f u) := by
  by_cases hu : u = t
  · subst hu
    exact .inl ⟨rfl, Function.update_self ..⟩
  · exact .inr ⟨hu, Function.update_of_ne hu ..⟩

/-- The state after `t` has gone to `pc`, from what is new about `t` and about the rest. -/
theorem LockInv.of_update (hpc : s'.pc = Function.update s.pc t pc)
    (hvalue : s'.lock.semaphore.value = if token = none then 1 else 0)
    (hinside : s'.inside = s'.lock.lockHolder.toList) (hholder : ∀ u, s'.Held u → token = some u)
    (hpass : pc.passing = true → token = some t ∧ s'.lock.lockHolder = none)
    (hhold : pc.holding = true → s'.Held t)
    (hothers : ∀ u ≠ t, ((s.pc u).passing = true → token = some u ∧ s'.lock.lockHolder = none) ∧
      ((s.pc u).holding = true → s'.Held u)) : LockInv s' token := by
  refine ⟨hvalue, hinside, hholder, ?_, ?_⟩
  · intro u hu
    rw [hpc] at hu
    rcases update_cases s.pc t pc u with ⟨rfl, h⟩ | ⟨hne, h⟩
    · exact hpass (h ▸ hu)
    · exact (hothers u hne).1 (h ▸ hu)
  · intro u hu
    rw [hpc] at hu
    rcases update_cases s.pc t pc u with ⟨rfl, h⟩ | ⟨hne, h⟩
    · exact hhold (h ▸ hu)
    · exact (hothers u hne).2 (h ▸ hu)

/-- The thread goes on without touching the lock. -/
theorem LockInv.goto (h : LockInv s token)
    (hvalue : s'.lock.semaphore.value = s.lock.semaphore.value)
    (hholder : s'.lock.lockHolder = s.lock.lockHolder) (hinside : s'.inside = s.inside)
    (hpc : s'.pc = Function.update s.pc t pc) (hpass : pc.passing = false)
    (hhold : pc.holding = true → s.Held t) : LockInv s' token := by
  have hheld (u : ThreadId) : s'.Held u ↔ s.Held u := by rw [State.Held, State.Held, hholder]
  apply LockInv.of_update hpc (hvalue.trans h.value)
  · rw [hinside, hholder, h.inside]
  · intro u hu
    exact h.holder u ((hheld u).mp hu)
  · intro hp
    cases hpass.symm.trans hp
  · intro hp
    exact (hheld t).mpr (hhold hp)
  · intro u _
    rw [hheld, hholder]
    exact ⟨h.passing u, h.holding u⟩

/-- While nobody has the permit, nobody is past a test of the lock. -/
theorem LockInv.nobody (h : LockInv s none) :
    s.lock.lockHolder = none ∧ ∀ u, (s.pc u).passing = false ∧ (s.pc u).holding = false := by
  have hnone (u : ThreadId) : ¬ s.Held u := fun hu => nomatch h.holder u hu
  refine ⟨Option.eq_none_iff_forall_ne_some.mpr hnone, ?_⟩
  intro u
  constructor
  · by_contra hp
    cases (h.passing u (by simpa using hp)).1
  · by_contra hp
    exact hnone u (h.holding u (by simpa using hp))

/-- While `t` has the permit, no other thread is past a test of the lock. -/
theorem LockInv.alone (h : LockInv s (some t)) {u : ThreadId} (hu : u ≠ t) :
    (s.pc u).passing = false ∧ (s.pc u).holding = false := by
  constructor
  · by_contra hp
    cases (h.passing u (by simpa using hp)).1
    exact hu rfl
  · by_contra hp
    cases h.holder u (h.holding u (by simpa using hp))
    exact hu rfl

/-- `P` on the lock has taken the permit. -/
theorem LockInv.taken {caller : Caller} (h : LockInv s token)
    (hvalue : s.lock.semaphore.value ≠ 0) : LockInv { s with
      lock := { s.lock with semaphore :=
        { s.lock.semaphore with value := s.lock.semaphore.value - 1 } },
      pc := Function.update s.pc t (.acquireSet caller) } (some t) := by
  have hfree : token = none := by
    by_contra hne
    exact hvalue (h.value.trans (if_neg hne))
  subst hfree
  obtain ⟨hnone, hidle⟩ := h.nobody
  refine LockInv.of_update (s := s) rfl ?_ h.inside ?_ ?_ nofun ?_
  · show s.lock.semaphore.value - 1 = 0
    rw [h.value]
    rfl
  · intro u hu
    cases hnone.symm.trans hu
  · intro _
    exact ⟨rfl, hnone⟩
  · intro u _
    simp [hidle u]

theorem LockInv.acquired {caller : Caller} (h : LockInv s token)
    (hpc : s.pc t = .acquireSet caller) : LockInv { s with
      lock := { s.lock with lockHolder := some t }, inside := t :: s.inside,
      log := s.log ++ caller.acquired t,
      pc := Function.update s.pc t caller.afterAcquire } (some t) := by
  obtain ⟨rfl, hnone⟩ := h.passing t (by rw [hpc]; rfl)
  refine LockInv.of_update (s := s) rfl h.value ?_ ?_ ?_ ?_ ?_
  · show t :: s.inside = [t]
    rw [h.inside, hnone]
    rfl
  · intro u hu
    exact hu
  · intro hp
    cases caller <;> cases hp
  · intro _
    rfl
  · intro u hu
    simp [h.alone hu]

theorem LockInv.releasing {caller : Caller} (h : LockInv s token) (held : s.Held t) :
    LockInv { s with
      lock := { s.lock with lockHolder := none }, inside := s.inside.erase t,
      pc := Function.update s.pc t (.releaseV caller) } token := by
  have htoken := h.holder t held
  subst htoken
  refine LockInv.of_update (s := s) rfl h.value ?_ nofun ?_ nofun ?_
  · show s.inside.erase t = []
    rw [h.inside, held]
    simp
  · intro _
    exact ⟨rfl, rfl⟩
  · intro u hu
    simp [h.alone hu]

theorem LockInv.released {caller : Caller} (h : LockInv s token)
    (hpc : s.pc t = .releaseV caller) : LockInv { s with
      lock := { s.lock with semaphore := s.lock.semaphore.V.2 },
      pc := Function.update s.pc t caller.afterRelease } none := by
  obtain ⟨rfl, hnone⟩ := h.passing t (by rw [hpc]; rfl)
  refine LockInv.of_update (s := s) rfl ?_ h.inside ?_ ?_ ?_ ?_
  · show s.lock.semaphore.value + 1 = 1
    rw [h.value]
    rfl
  · intro u hu
    cases hnone.symm.trans hu
  · intro hp
    cases caller <;> cases hp
  · intro hp
    cases caller <;> cases hp
  · intro u hu
    simp [h.alone hu]

/-- Every move leaves the permit with one thread or in the counter. -/
theorem LockInv.move (h : LockInv s token) (hm : Move s t s') : ∃ token', LockInv s' token' := by
  have held (hp : (s.pc t).holding = true) : s.Held t := h.holding t hp
  cases hm with
  | lockTaken hpc hvalue => exact ⟨_, h.taken hvalue⟩
  | acquireSet hpc => exact ⟨_, h.acquired hpc⟩
  | releaseTest hpc held => exact ⟨_, h.releasing held⟩
  | releaseV hpc => exact ⟨_, h.released hpc⟩
  | goto hpc hpc' =>
    refine ⟨token, h.goto rfl rfl rfl rfl ?_ ?_⟩ <;>
      rcases hpc' with rfl | rfl | rfl <;> first | rfl | nofun
  | newWaiter hpc hheld => exact ⟨token, h.goto rfl rfl rfl rfl rfl fun _ => hheld⟩
  | broadcastNone hpc => exact ⟨token, h.goto rfl rfl rfl rfl rfl nofun⟩
  | broadcastSome hpc hqueue => exact ⟨token, h.goto rfl rfl rfl rfl rfl nofun⟩
  | lockQueued hpc => exact ⟨token, h.goto rfl rfl rfl rfl rfl nofun⟩
  | waitAppend hpc => exact ⟨token, h.goto rfl rfl rfl rfl rfl fun _ => held (by rw [hpc]; rfl)⟩
  | waiterTaken hpc hw hvalue => exact ⟨token, h.goto rfl rfl rfl rfl rfl nofun⟩
  | waiterQueued hpc hw hawake hvalue => exact ⟨token, h.goto rfl rfl rfl rfl rfl nofun⟩
  | waitDelete hpc => exact ⟨token, h.goto rfl rfl rfl rfl rfl nofun⟩
  | signalNone hpc hheld hqueue => exact ⟨token, h.goto rfl rfl rfl rfl rfl fun _ => hheld⟩
  | signalSome hpc hheld hqueue => exact ⟨token, h.goto rfl rfl rfl rfl rfl fun _ => hheld⟩
  | signalRemove hpc hqueue =>
    exact ⟨token, h.goto rfl rfl rfl rfl rfl fun _ => held (by rw [hpc]; rfl)⟩
  | signalV hpc hw => exact ⟨token, h.goto rfl rfl rfl rfl rfl fun _ => held (by rw [hpc]; rfl)⟩
  | @signalReturn call loop hpc =>
    refine ⟨token, h.goto rfl rfl rfl rfl ?_ fun _ => held (by rw [hpc]; rfl)⟩
    cases loop <;> rfl
  | broadcastEnd hpc hqueue => exact ⟨token, h.goto rfl rfl rfl rfl rfl nofun⟩
  | broadcastNext hpc hqueue => exact ⟨token, h.goto rfl rfl rfl rfl rfl nofun⟩
  | broadcastReturn hpc => exact ⟨token, h.goto rfl rfl rfl rfl rfl nofun⟩

end

def Event.enqueues : Event → Option WaiterId
  | .enqueued _ w => some w
  | _ => none

def Event.releases : Event → Option WaiterId
  | .released w => some w
  | _ => none

/-- The waiters in the order in which they entered the queue. -/
def enqueued (log : List Event) : List WaiterId := log.filterMap Event.enqueues

/-- The waiters in the order in which they were released. -/
def released (log : List Event) : List WaiterId := log.filterMap Event.releases

@[simp]
theorem mem_enqueued {log : List Event} {w : WaiterId} :
    w ∈ enqueued log ↔ ∃ t, .enqueued t w ∈ log := by
  simp only [enqueued, List.mem_filterMap]
  constructor
  · rintro ⟨e, he, hw⟩
    cases e <;> cases hw
    exact ⟨_, he⟩
  · rintro ⟨t, he⟩
    exact ⟨_, he, rfl⟩

@[simp]
theorem mem_released {log : List Event} {w : WaiterId} :
    w ∈ released log ↔ .released w ∈ log := by
  simp only [released, List.mem_filterMap]
  constructor
  · rintro ⟨e, he, hw⟩
    cases e <;> cases hw
    exact he
  · intro he
    exact ⟨_, he, rfl⟩

/-- Two logs that tell the same about the queue. -/
def SameQueue (log log' : List Event) : Prop :=
  enqueued log' = enqueued log ∧ released log' = released log ∧
    (∀ t w, .enqueued t w ∈ log' ↔ .enqueued t w ∈ log) ∧
    ∀ w, .released w ∈ log' ↔ .released w ∈ log

theorem SameQueue.refl (log : List Event) : SameQueue log log :=
  ⟨rfl, rfl, fun _ _ => Iff.rfl, fun _ => Iff.rfl⟩

theorem sameQueue_acquired (log : List Event) (caller : Caller) (t : ThreadId) :
    SameQueue log (log ++ caller.acquired t) := by
  cases caller <;>
    simp [SameQueue, Caller.acquired, enqueued, released, Event.enqueues, Event.releases]

theorem sameQueue_returned (log : List Event) (w : WaiterId) (t : ThreadId) :
    SameQueue log (log ++ [.returned t w]) := by
  simp [SameQueue, enqueued, released, Event.enqueues, Event.releases]

/-- The waiter that the lock holder has taken from the queue and not yet released. -/
def Pc.removed : Pc → List WaiterId
  | .signalV w _ _ => [w]
  | _ => []

def State.removed (s : State) : List WaiterId :=
  s.lock.lockHolder.elim [] fun t => (s.pc t).removed

/-- The queue is first in, first out. -/
structure QueueInv (s : State) : Prop where
  fifo : enqueued s.log = released s.log ++ s.removed ++ s.waitQueue
  nodup : (enqueued s.log).Nodup
  fresh : ∀ w ∈ enqueued s.log, w < s.next

/-- How far a thread is in `Wait`. -/
inductive Phase where
  | created
  | leaving
  | asleep
  | back
  deriving DecidableEq

/-- The semaphore of the `Wait` a thread is in. -/
def Pc.waiting : Pc → Option (WaiterId × Phase)
  | .waitAppend w => some (w, .created)
  | .releaseTest (.wait w) | .releaseV (.wait w) => some (w, .leaving)
  | .waitP w => some (w, .asleep)
  | .acquireP (.wait w) | .acquireSet (.wait w) | .waitDelete w => some (w, .back)
  | _ => none

/-- What the semaphore of a thread in `Wait` looks like, and what has been logged about it. -/
def Stage (log : List Event) (t : ThreadId) (w : WaiterId) (sem : Semaphore) : Phase → Prop
  | .created => (∀ u, .enqueued u w ∉ log) ∧ sem = Semaphore.new 0
  | .leaving => .enqueued t w ∈ log ∧ .released w ∉ log ∧ sem = Semaphore.new 0
  | .asleep => .enqueued t w ∈ log ∧
      ((.released w ∉ log ∧ sem.value = 0 ∧ (sem.queue = [] ∨ sem.queue = [t])) ∨
        (.released w ∈ log ∧ sem = ⟨1, []⟩))
  | .back => .enqueued t w ∈ log ∧ .released w ∈ log ∧ sem = Semaphore.new 0

structure WaiterInv (s : State) : Prop where
  stage : ∀ t w phase, (s.pc t).waiting = some (w, phase) →
    w < s.next ∧ ∃ sem, s.waiter w = some sem ∧ Stage s.log t w sem phase
  unique : ∀ t u w phase phase', (s.pc t).waiting = some (w, phase) →
    (s.pc u).waiting = some (w, phase') → t = u
  owned : ∀ w ∈ enqueued s.log, w ∉ released s.log → ∃ t phase,
    (s.pc t).waiting = some (w, phase)

section

variable {s s' : State} {t : ThreadId} {pc : Pc} {token : Option ThreadId}

theorem Pc.permit_of_leaving {w : WaiterId} (h : pc.waiting = some (w, .leaving)) :
    pc.passing = true ∨ pc.holding = true := by
  cases pc with
  | releaseTest caller => cases caller <;> first | exact .inr rfl | cases h
  | releaseV caller => exact .inl rfl
  | acquireP caller | acquireSet caller => cases caller <;> cases h
  | _ => cases h

theorem State.removed_update (hholder : s'.lock.lockHolder = s.lock.lockHolder)
    (hpc : s'.pc = Function.update s.pc t pc) (hremoved : pc.removed = (s.pc t).removed) :
    s'.removed = s.removed := by
  unfold State.removed
  rw [hholder, hpc]
  cases s.lock.lockHolder with
  | none => rfl
  | some u =>
    show (Function.update s.pc t pc u).removed = (s.pc u).removed
    rcases update_cases s.pc t pc u with ⟨rfl, h⟩ | ⟨-, h⟩
    · rw [h, hremoved]
    · rw [h]

theorem State.removed_of_held (held : s.Held t) : s.removed = (s.pc t).removed := by
  unfold State.removed
  rw [held]
  rfl

theorem State.removed_of_free (h : s.lock.lockHolder = none) : s.removed = [] := by
  unfold State.removed
  rw [h]
  rfl

theorem QueueInv.enqueued_of_released (h : QueueInv s) {w : WaiterId} (hw : .released w ∈ s.log) :
    ∃ u, .enqueued u w ∈ s.log := by
  apply mem_enqueued.mp
  rw [h.fifo]
  simp [hw]

theorem QueueInv.of_same (h : QueueInv s) (hlog : SameQueue s.log s'.log)
    (hremoved : s'.removed = s.removed) (hqueue : s'.waitQueue = s.waitQueue)
    (hnext : s.next ≤ s'.next) : QueueInv s' := by
  obtain ⟨henqueued, hreleased, -, -⟩ := hlog
  refine ⟨?_, ?_, ?_⟩
  · rw [henqueued, hreleased, hremoved, hqueue, h.fifo]
  · rw [henqueued]
    exact h.nodup
  · intro w hw
    rw [henqueued] at hw
    exact (h.fresh w hw).trans_le hnext

/-- Moves that leave the queue, and what has been taken from it, as they are. -/
theorem QueueInv.goto (h : QueueInv s) (hlog : SameQueue s.log s'.log)
    (hholder : s'.lock.lockHolder = s.lock.lockHolder)
    (hpc : s'.pc = Function.update s.pc t pc) (hremoved : pc.removed = (s.pc t).removed)
    (hqueue : s'.waitQueue = s.waitQueue) (hnext : s.next ≤ s'.next) : QueueInv s' :=
  h.of_same hlog (State.removed_update hholder hpc hremoved) hqueue hnext

/-- Moves of the thread that holds the lock. -/
theorem QueueInv.of_held (held : s'.Held t) (hpc : s'.pc = Function.update s.pc t pc)
    (hfifo : enqueued s'.log = released s'.log ++ pc.removed ++ s'.waitQueue)
    (hnodup : (enqueued s'.log).Nodup) (hfresh : ∀ w ∈ enqueued s'.log, w < s'.next) :
    QueueInv s' := by
  refine ⟨?_, hnodup, hfresh⟩
  rw [State.removed_of_held held, hpc, Function.update_self, hfifo]

theorem QueueInv.move (h : QueueInv s) (hl : LockInv s token) (hw : WaiterInv s)
    (hm : Move s t s') : QueueInv s' := by
  have held (hp : (s.pc t).holding = true) : s.Held t := hl.holding t hp
  have goto {pc : Pc} (hremoved : pc.removed = (s.pc t).removed) : QueueInv (s.goto t pc) :=
    h.goto (.refl _) rfl rfl hremoved rfl le_rfl
  cases hm with
  | goto hpc hpc' =>
    apply goto
    rw [hpc]
    rcases hpc' with rfl | rfl | rfl <;> rfl
  | newWaiter hpc hheld => exact h.goto (.refl _) rfl rfl (by rw [hpc]; rfl) rfl (Nat.le_succ _)
  | broadcastNone hpc => exact goto (by rw [hpc]; rfl)
  | broadcastSome hpc hqueue => exact goto (by rw [hpc]; rfl)
  | lockTaken hpc hvalue => exact h.goto (.refl _) rfl rfl (by rw [hpc]; rfl) rfl le_rfl
  | lockQueued hpc => exact h.goto (.refl _) rfl rfl (by rw [hpc]) rfl le_rfl
  | @acquireSet caller hpc =>
    obtain ⟨henqueued, hreleased, -, -⟩ := sameQueue_acquired s.log caller t
    have hfree := State.removed_of_free (hl.passing t (by rw [hpc]; rfl)).2
    refine QueueInv.of_held (s := s) (t := t) rfl rfl ?_ ?_ ?_ <;> dsimp only <;> rw [henqueued]
    · rw [hreleased, h.fifo, hfree]
      cases caller <;> rfl
    · exact h.nodup
    · exact h.fresh
  | releaseTest hpc hheld =>
    refine h.of_same (.refl _) ?_ rfl le_rfl
    rw [State.removed_of_held hheld, hpc]
    rfl
  | @releaseV caller hpc =>
    refine h.goto (.refl _) rfl rfl ?_ rfl le_rfl
    rw [hpc]
    cases caller <;> rfl
  | @waitAppend w hpc =>
    have hheld := held (by rw [hpc]; rfl)
    obtain ⟨hnext, sem, -, hnew, -⟩ := hw.stage t w .created (by rw [hpc]; rfl)
    have henqueued : enqueued (s.log ++ [.enqueued t w]) = enqueued s.log ++ [w] := by
      simp [enqueued, Event.enqueues]
    have hreleased : released (s.log ++ [.enqueued t w]) = released s.log := by
      simp [released, Event.releases]
    refine QueueInv.of_held (s := s) hheld rfl ?_ ?_ ?_ <;> dsimp only <;> rw [henqueued]
    · rw [hreleased, h.fifo, State.removed_of_held hheld, hpc]
      simp [Pc.removed]
    · refine List.nodup_append.mpr ⟨h.nodup, List.nodup_singleton _, ?_⟩
      rintro v hv _ hv' rfl
      cases List.mem_singleton.mp hv'
      obtain ⟨u, hu⟩ := mem_enqueued.mp hv
      exact hnew u hu
    · intro v hv
      rcases List.mem_append.mp hv with hv | hv
      · exact h.fresh v hv
      · cases List.mem_singleton.mp hv
        exact hnext
  | waiterTaken hpc hw hvalue => exact h.goto (.refl _) rfl rfl (by rw [hpc]; rfl) rfl le_rfl
  | waiterQueued hpc hw hawake hvalue => exact h.goto (.refl _) rfl rfl (by rw [hpc]) rfl le_rfl
  | waitDelete hpc =>
    exact h.goto (sameQueue_returned _ _ _) rfl rfl (by rw [hpc]; rfl) rfl le_rfl
  | signalNone hpc hheld hqueue => exact goto (by rw [hpc]; rfl)
  | signalSome hpc hheld hqueue => exact goto (by rw [hpc]; rfl)
  | @signalRemove w queue queued loop hpc hqueue =>
    have hheld := held (by rw [hpc]; rfl)
    refine QueueInv.of_held (s := s) hheld rfl ?_ h.nodup h.fresh
    dsimp only
    rw [h.fifo, hqueue, State.removed_of_held hheld, hpc]
    simp [Pc.removed]
  | @signalV w sem queued loop hpc hsem =>
    have hheld := held (by rw [hpc]; rfl)
    have henqueued : enqueued (s.log ++ [.released w]) = enqueued s.log := by
      simp [enqueued, Event.enqueues]
    have hreleased : released (s.log ++ [.released w]) = released s.log ++ [w] := by
      simp [released, Event.releases]
    refine QueueInv.of_held (s := s) hheld rfl ?_ ?_ ?_ <;> dsimp only <;> rw [henqueued]
    · rw [hreleased, h.fifo, State.removed_of_held hheld, hpc]
      simp [Pc.removed]
    · exact h.nodup
    · exact h.fresh
  | @signalReturn call loop hpc =>
    apply goto
    rw [hpc]
    cases loop <;> rfl
  | broadcastEnd hpc hqueue => exact goto (by rw [hpc]; rfl)
  | broadcastNext hpc hqueue => exact goto (by rw [hpc]; rfl)
  | broadcastReturn hpc => exact goto (by rw [hpc]; rfl)

theorem Stage.congr {log log' : List Event} {w : WaiterId} {sem : Semaphore} {phase : Phase}
    (henqueued : ∀ u, .enqueued u w ∈ log' ↔ .enqueued u w ∈ log)
    (hreleased : .released w ∈ log' ↔ .released w ∈ log) (h : Stage log t w sem phase) :
    Stage log' t w sem phase := by
  cases phase <;> simpa only [Stage, henqueued, hreleased] using h

/-- The state after `t` has gone to `pc`, from the stage of `t` and that of the rest. -/
theorem WaiterInv.of_update (h : WaiterInv s) (hpc : s'.pc = Function.update s.pc t pc)
    (hself : ∀ w phase, pc.waiting = some (w, phase) →
      (∃ sem, s'.waiter w = some sem ∧ Stage s'.log t w sem phase) ∧
        ((∃ phase', (s.pc t).waiting = some (w, phase')) ∨ w = s.next ∧ s.next < s'.next))
    (hothers : ∀ u ≠ t, ∀ w phase sem, (s.pc u).waiting = some (w, phase) →
      s.waiter w = some sem → Stage s.log u w sem phase →
        ∃ sem', s'.waiter w = some sem' ∧ Stage s'.log u w sem' phase)
    (hnext : s.next ≤ s'.next)
    (howned : ∀ w ∈ enqueued s'.log, w ∉ released s'.log →
      (∃ phase, pc.waiting = some (w, phase)) ∨
        (w ∈ enqueued s.log ∧ w ∉ released s.log ∧
          ∀ phase, (s.pc t).waiting ≠ some (w, phase))) : WaiterInv s' := by
  -- another thread never has the semaphore that `t` has now
  have hdistinct {u : ThreadId} {w : WaiterId} {phase phase' : Phase} (hu : u ≠ t)
      (ht : pc.waiting = some (w, phase)) (huw : (s.pc u).waiting = some (w, phase')) : False := by
    rcases (hself w phase ht).2 with ⟨phase'', ht'⟩ | ⟨rfl, -⟩
    · exact hu (h.unique u t w _ _ huw ht')
    · exact lt_irrefl _ (h.stage u _ _ huw).1
  refine ⟨?_, ?_, ?_⟩
  · intro u w phase hu
    rw [hpc] at hu
    rcases update_cases s.pc t pc u with ⟨rfl, he⟩ | ⟨hne, he⟩ <;> rw [he] at hu
    · obtain ⟨hsem, hw⟩ := hself w phase hu
      refine ⟨?_, hsem⟩
      rcases hw with ⟨phase', hw⟩ | ⟨rfl, hlt⟩
      · exact (h.stage u w phase' hw).1.trans_le hnext
      · exact hlt
    · obtain ⟨hlt, sem, hsem, hstage⟩ := h.stage u w phase hu
      exact ⟨hlt.trans_le hnext, hothers u hne w phase sem hu hsem hstage⟩
  · intro u v w phase phase' hu hv
    rw [hpc] at hu hv
    rcases update_cases s.pc t pc u with ⟨hut, he⟩ | ⟨hne, he⟩ <;> rw [he] at hu <;>
      rcases update_cases s.pc t pc v with ⟨hvt, he'⟩ | ⟨hne', he'⟩ <;> rw [he'] at hv
    · exact hut.trans hvt.symm
    · exact (hdistinct hne' hu hv).elim
    · exact (hdistinct hne hv hu).elim
    · exact h.unique u v w phase phase' hu hv
  · intro w hw hfree
    rw [hpc]
    rcases howned w hw hfree with ⟨phase, hself⟩ | ⟨hw, hfree, hnot⟩
    · exact ⟨t, phase, by rw [Function.update_self]; exact hself⟩
    · obtain ⟨u, phase, hu⟩ := h.owned w hw hfree
      have hne : u ≠ t := fun he => hnot phase (he ▸ hu)
      exact ⟨u, phase, by rw [Function.update_of_ne hne]; exact hu⟩

/-- Moves that leave every semaphore as it is and the thread at the same stage. -/
theorem WaiterInv.goto (h : WaiterInv s) (hpc : s'.pc = Function.update s.pc t pc)
    (hwaiting : pc.waiting = (s.pc t).waiting) (hwaiter : s'.waiter = s.waiter)
    (hlog : SameQueue s.log s'.log) (hnext : s'.next = s.next) : WaiterInv s' := by
  obtain ⟨henqueued, hreleased, hmem, hmem'⟩ := hlog
  refine h.of_update hpc ?_ ?_ hnext.ge ?_
  · intro w phase ht
    rw [hwaiting] at ht
    obtain ⟨-, sem, hsem, hstage⟩ := h.stage t w phase ht
    exact ⟨⟨sem, hwaiter ▸ hsem, hstage.congr (hmem · w) (hmem' w)⟩, .inl ⟨phase, ht⟩⟩
  · intro u _ w phase sem hu hsem hstage
    exact ⟨sem, hwaiter ▸ hsem, hstage.congr (hmem · w) (hmem' w)⟩
  · intro w hw hfree
    rw [henqueued] at hw
    rw [hreleased] at hfree
    by_cases hself : ∃ phase, pc.waiting = some (w, phase)
    · exact .inl hself
    · refine .inr ⟨hw, hfree, ?_⟩
      intro phase ht
      exact hself ⟨phase, hwaiting.trans ht⟩

/-- Moves of a thread on its own semaphore `w`. -/
theorem WaiterInv.own {w : WaiterId} {phase phase' : Phase} {m : Semaphore} (h : WaiterInv s)
    (hpc : s'.pc = Function.update s.pc t pc) (hbefore : (s.pc t).waiting = some (w, phase))
    (hafter : pc.waiting = some (w, phase'))
    (hwaiter : s'.waiter = Function.update s.waiter w (some m))
    (hstage : Stage s'.log t w m phase')
    (hlog : ∀ v ≠ w, (∀ u, .enqueued u v ∈ s'.log ↔ .enqueued u v ∈ s.log) ∧
      (.released v ∈ s'.log ↔ .released v ∈ s.log)) (hnext : s'.next = s.next) :
    WaiterInv s' := by
  refine h.of_update hpc ?_ ?_ hnext.ge ?_
  · intro v p ht
    cases hafter.symm.trans ht
    exact ⟨⟨m, by rw [hwaiter, Function.update_self], hstage⟩, .inl ⟨phase, hbefore⟩⟩
  · intro u hu v p sem' huv hsem' hstage'
    have hne : v ≠ w := by
      rintro rfl
      exact hu (h.unique u t v _ _ huv hbefore)
    refine ⟨sem', by rw [hwaiter, Function.update_of_ne hne, hsem'], ?_⟩
    exact hstage'.congr (hlog v hne).1 (hlog v hne).2
  · intro v hv hfree
    by_cases hvw : v = w
    · exact .inl ⟨phase', hvw ▸ hafter⟩
    · simp only [mem_enqueued, mem_released, hlog v hvw] at hv hfree
      refine .inr ⟨mem_enqueued.mpr hv, mem_released.not.mpr hfree, ?_⟩
      intro p ht
      cases hbefore.symm.trans ht
      exact hvw rfl

/-- The waiter a signaller has taken from the queue is asleep, or about to be, in `P`. -/
theorem WaiterInv.sleeper {w : WaiterId} {queued : List WaiterId} {loop : Option Call}
    (h : WaiterInv s) (hl : LockInv s token) (hq : QueueInv s)
    (hpc : s.pc t = .signalV w queued loop) :
    .released w ∉ s.log ∧ ∃ u, u ≠ t ∧ (s.pc u).waiting = some (w, .asleep) := by
  have held : s.Held t := hl.holding t (by rw [hpc]; rfl)
  have hfifo : enqueued s.log = released s.log ++ [w] ++ s.waitQueue := by
    rw [hq.fifo, State.removed_of_held held, hpc]
    rfl
  have hmem : w ∈ enqueued s.log := by
    rw [hfifo]
    simp
  have hfree : w ∉ released s.log := by
    have hnodup := hq.nodup
    rw [hfifo, List.append_assoc] at hnodup
    intro hw
    exact (List.nodup_append.mp hnodup).2.2 w hw w (by simp) rfl
  obtain ⟨u, phase, hu⟩ := h.owned w hmem hfree
  have hut : u ≠ t := by
    rintro rfl
    rw [hpc] at hu
    cases hu
  refine ⟨mem_released.not.mp hfree, u, hut, ?_⟩
  obtain ⟨-, sem, -, hstage⟩ := h.stage u w phase hu
  have htoken := hl.holder t held
  subst htoken
  -- a thread that is leaving still has the permit, which is with the signaller
  obtain ⟨hpass, hhold⟩ := hl.alone hut
  cases phase with
  | created =>
    obtain ⟨v, hv⟩ := mem_enqueued.mp hmem
    exact (hstage.1 v hv).elim
  | leaving =>
    rcases Pc.permit_of_leaving hu with hp | hp
    · cases hpass.symm.trans hp
    · cases hhold.symm.trans hp
  | asleep => exact hu
  | back => exact (hfree (mem_released.mpr hstage.2.1)).elim

theorem WaiterInv.move (h : WaiterInv s) (hl : LockInv s token) (hq : QueueInv s)
    (hm : Move s t s') : WaiterInv s' := by
  have goto {pc : Pc} (hw : pc.waiting = (s.pc t).waiting) : WaiterInv (s.goto t pc) :=
    h.goto rfl hw rfl (.refl _) rfl
  have stage (w : WaiterId) (phase : Phase) (hw : (s.pc t).waiting = some (w, phase)) :=
    (h.stage t w phase hw).2
  cases hm with
  | goto hpc hpc' =>
    apply goto
    rw [hpc]
    rcases hpc' with rfl | rfl | rfl <;> rfl
  | newWaiter hpc held =>
    refine h.of_update rfl ?_ ?_ (Nat.le_succ _) ?_
    · intro w phase hw
      cases hw
      refine ⟨⟨_, Function.update_self .., ?_, rfl⟩, .inr ⟨rfl, Nat.lt_succ_self _⟩⟩
      intro u hu
      exact lt_irrefl _ (hq.fresh _ (mem_enqueued.mpr ⟨u, hu⟩))
    · intro u _ w phase sem hu hsem hstage
      have hne : w ≠ s.next := (h.stage u w phase hu).1.ne
      exact ⟨sem, by dsimp only; rw [Function.update_of_ne hne, hsem], hstage⟩
    · intro w hw hfree
      exact .inr ⟨hw, hfree, by simp [hpc, Pc.waiting]⟩
  | broadcastNone hpc => exact goto (by rw [hpc]; rfl)
  | broadcastSome hpc hqueue => exact goto (by rw [hpc]; rfl)
  | @lockTaken caller hpc hvalue =>
    refine h.goto rfl ?_ rfl (.refl _) rfl
    rw [hpc]
    cases caller <;> rfl
  | lockQueued hpc => exact h.goto rfl (by rw [hpc]) rfl (.refl _) rfl
  | @acquireSet caller hpc =>
    refine h.goto rfl ?_ rfl (sameQueue_acquired _ _ _) rfl
    rw [hpc]
    cases caller <;> rfl
  | @releaseTest caller hpc held =>
    refine h.goto rfl ?_ rfl (.refl _) rfl
    rw [hpc]
    cases caller <;> rfl
  | @releaseV caller hpc =>
    cases caller with
    | client => exact h.goto rfl (by rw [hpc]; rfl) rfl (.refl _) rfl
    | wait w =>
      obtain ⟨sem, hsem, hlog, hfree, rfl⟩ := stage w .leaving (by rw [hpc]; rfl)
      refine h.own (w := w) (m := Semaphore.new 0) rfl (by rw [hpc]; rfl) rfl ?_ ?_ ?_ rfl
      · exact (Function.update_eq_self_iff.mpr hsem.symm).symm
      · exact ⟨hlog, .inl ⟨hfree, rfl, .inl rfl⟩⟩
      · exact fun _ _ => ⟨fun _ => Iff.rfl, Iff.rfl⟩
  | @waitAppend w hpc =>
    obtain ⟨sem, hsem, hnew, rfl⟩ := stage w .created (by rw [hpc]; rfl)
    have hfree : .released w ∉ s.log := by
      intro hw
      obtain ⟨u, hu⟩ := hq.enqueued_of_released hw
      exact hnew u hu
    refine h.own (w := w) (m := Semaphore.new 0) rfl (by rw [hpc]; rfl) rfl ?_ ?_ ?_ rfl
    · exact (Function.update_eq_self_iff.mpr hsem.symm).symm
    · exact ⟨by simp, by simpa using hfree, rfl⟩
    · intro v hv
      simp [hv]
  | @waiterTaken w sem hpc hsem hvalue =>
    obtain ⟨sem', hsem', hlog, hcase⟩ := stage w .asleep (by rw [hpc]; rfl)
    cases hsem.symm.trans hsem'
    refine h.own rfl (by rw [hpc]; rfl) rfl rfl ?_ (fun _ _ => ⟨fun _ => Iff.rfl, Iff.rfl⟩) rfl
    rcases hcase with ⟨-, hzero, -⟩ | ⟨hdone, rfl⟩
    · exact (hvalue hzero).elim
    · exact ⟨hlog, hdone, rfl⟩
  | @waiterQueued w sem hpc hsem hawake hvalue =>
    obtain ⟨sem', hsem', hlog, hcase⟩ := stage w .asleep (by rw [hpc]; rfl)
    cases hsem.symm.trans hsem'
    refine h.own rfl (by rw [hpc]; rfl) rfl rfl ?_ (fun _ _ => ⟨fun _ => Iff.rfl, Iff.rfl⟩) rfl
    rcases hcase with ⟨hfree, hzero, hempty | hself⟩ | ⟨-, rfl⟩
    · exact ⟨hlog, .inl ⟨hfree, hzero, .inr (by rw [hempty]; rfl)⟩⟩
    · exact (hawake (by simp [hself])).elim
    · cases hvalue
  | @waitDelete w hpc =>
    obtain ⟨sem, hsem, hlog, hdone, -⟩ := stage w .back (by rw [hpc]; rfl)
    obtain ⟨henqueued, hreleased, hmem, hmem'⟩ := sameQueue_returned s.log w t
    refine h.of_update rfl nofun ?_ le_rfl ?_
    · intro u hu v phase sem' hv hsem' hstage
      have hne : v ≠ w := by
        rintro rfl
        exact hu (h.unique u t v _ _ hv (by rw [hpc]; rfl))
      refine ⟨sem', by dsimp only; rw [Function.update_of_ne hne, hsem'], ?_⟩
      exact hstage.congr (hmem · v) (hmem' v)
    · dsimp only
      rw [henqueued, hreleased]
      intro v hv hfree
      refine .inr ⟨hv, hfree, ?_⟩
      intro phase hp
      rw [hpc] at hp
      cases hp
      exact hfree (mem_released.mpr hdone)
  | signalNone hpc held hqueue => exact goto (by rw [hpc]; rfl)
  | signalSome hpc held hqueue => exact goto (by rw [hpc]; rfl)
  | signalRemove hpc hqueue => exact h.goto rfl (by rw [hpc]; rfl) rfl (.refl _) rfl
  | @signalV w sem queued loop hpc hsem =>
    obtain ⟨hfree, v, hvt, hv⟩ := h.sleeper hl hq hpc
    refine h.of_update rfl nofun ?_ le_rfl ?_
    · intro u hu x phase sem' hx hsem' hstage
      by_cases hxw : x = w
      · subst hxw
        cases h.unique u v x _ _ hx hv
        cases hx.symm.trans hv
        cases hsem.symm.trans hsem'
        refine ⟨_, Function.update_self .., ?_⟩
        obtain ⟨hlog, hcase⟩ := hstage
        refine ⟨by simp [hlog], .inr ⟨by simp, ?_⟩⟩
        rcases hcase with ⟨-, hzero, hqueue⟩ | ⟨hdone, -⟩
        · unfold Semaphore.V
          rw [hzero]
          rcases hqueue with hqueue | hqueue <;> rw [hqueue] <;> rfl
        · exact (hfree hdone).elim
      · refine ⟨sem', by dsimp only; rw [Function.update_of_ne hxw, hsem'], ?_⟩
        apply hstage.congr <;> simp [hxw]
    · intro x hx hxfree
      simp only [mem_enqueued, mem_released, List.mem_append, List.mem_singleton, reduceCtorEq,
        or_false, Event.released.injEq, not_or] at hx hxfree
      exact .inr ⟨mem_enqueued.mpr hx, mem_released.not.mpr hxfree.1, by simp [hpc, Pc.waiting]⟩
  | @signalReturn call loop hpc =>
    apply goto
    rw [hpc]
    cases loop <;> rfl
  | broadcastEnd hpc hqueue => exact goto (by rw [hpc]; rfl)
  | broadcastNext hpc hqueue => exact goto (by rw [hpc]; rfl)
  | broadcastReturn hpc => exact goto (by rw [hpc]; rfl)

end

end Nachos.Monitor

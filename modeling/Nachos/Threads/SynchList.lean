import Nachos.Threads.MonitorRoutines

/-! `threads/synchlist.cc`: a list shared by producers and consumers under one lock, with a
condition for the consumers that find it empty. Every statement of `SynchList::Append` and
`SynchList::RemoveFront` is a step, and inside a call of the lock or the condition every step
is one of `Monitor`. -/
namespace Nachos.SynchList

open Monitor (Routine)

/-- Where a thread is. Between two calls its `Monitor.Pc` is `outside`. -/
inductive Task (α : Type*) where
  | idle
  /-- In `lock->Acquire()`, then at `list->Append(item)`. -/
  | appendAcquire (item : α)
  /-- At the call of `listEmpty->Signal(lock)`. -/
  | appendInserted
  /-- In `listEmpty->Signal(lock)`, then at the call of `lock->Release()`. -/
  | appendSignal
  /-- In `lock->Release()`, then at the end. -/
  | appendRelease
  /-- In `lock->Acquire()`, then at `list->IsEmpty()`. -/
  | removeAcquire
  /-- In `listEmpty->Wait(lock)`, then at `list->IsEmpty()`. -/
  | removeWait
  /-- At `item = list->RemoveFront()`. -/
  | removeTake
  /-- At the call of `lock->Release()`. -/
  | removeTaken (item : α)
  /-- In `lock->Release()`, then at `return item`. -/
  | removeRelease (item : α)
  deriving DecidableEq

structure State (α : Type*) where
  monitor : Monitor.State
  list : List α
  task : ThreadId → Task α
  /-- The items in the order in which they entered the list. -/
  appended : List α
  /-- The items in the order in which they were taken from the list. -/
  taken : List α
  /-- An assertion of `list` has failed. -/
  failed : Bool

inductive Label (α : Type*) where
  | append (t : ThreadId) (item : α)
  | removeFront (t : ThreadId)
  | run (t : ThreadId)
  deriving DecidableEq

variable {α : Type*}

def start : State α := ⟨Monitor.start, [], fun _ => .idle, [], [], false⟩

namespace State

def goto (s : State α) (t : ThreadId) (task : Task α) : State α :=
  { s with task := Function.update s.task t task }

/-- The call of a routine of the lock or the condition. -/
def call (s : State α) (t : ThreadId) (routine : Routine) (task : Task α) : Option (State α) :=
  (Monitor.step s.monitor (.call t routine)).map fun m => { s.goto t task with monitor := m }

/-- The next statement of a thread that is in no routine of the lock or the condition. -/
def advance [DecidableEq α] (s : State α) (t : ThreadId) : Option (State α) :=
  match s.task t with
  | .idle => none
  | .appendAcquire item =>
    match LinkedList.append s.list item with
    | none => some { s with failed := true }
    | some list => some { s.goto t .appendInserted with
        list := list, appended := s.appended ++ [item] }
  | .appendInserted => s.call t .signal .appendSignal
  | .appendSignal => s.call t .release .appendRelease
  | .appendRelease => some (s.goto t .idle)
  | .removeAcquire | .removeWait =>
    if s.list = [] then s.call t .wait .removeWait else some (s.goto t .removeTake)
  | .removeTake =>
    match LinkedList.removeFront s.list with
    | none => some { s with failed := true }
    | some (item, list) => some { s.goto t (.removeTaken item) with
        list := list, taken := s.taken ++ [item] }
  | .removeTaken item => s.call t .release (.removeRelease item)
  | .removeRelease _ => some (s.goto t .idle)

end State

def step [DecidableEq α] (s : State α) (l : Label α) : Option (State α) :=
  if s.failed then none
  else match l with
    | .append t item => if s.task t = .idle then s.call t .acquire (.appendAcquire item) else none
    | .removeFront t => if s.task t = .idle then s.call t .acquire .removeAcquire else none
    | .run t =>
      if s.monitor.pc t = .outside then s.advance t
      else (Monitor.step s.monitor (.run t)).map fun m => { s with monitor := m }

/-- The routine a task is in, until it returns. -/
def Task.routine : Task α → Option Routine
  | .appendAcquire _ | .removeAcquire => some .acquire
  | .appendSignal => some .signal
  | .appendRelease | .removeRelease _ => some .release
  | .removeWait => some .wait
  | .idle | .appendInserted | .removeTake | .removeTaken _ => none

/-- The task and the routine agree, and between routines the lock is held, except at the ends. -/
def Fits (s : State α) (t : ThreadId) : Prop :=
  ((s.monitor.pc t).routine = (s.task t).routine ∨ s.monitor.pc t = .outside) ∧
    (s.monitor.pc t = .outside → s.task t ≠ .idle → (s.task t).routine ≠ some .release →
      s.monitor.Held t)

/-- The holder of the lock is about to signal for an item, or to take one. -/
def Task.owes : Task α → Monitor.Pc → Bool
  | .appendInserted, .outside | .appendSignal, .signalTest _ | .appendSignal, .signalRemove _ _
  | .appendSignal, .signalV _ _ _ | .removeWait, .waitDelete _ | .removeWait, .outside
  | .removeTake, .outside => true
  | _, _ => false

def State.credit (s : State α) : ℕ :=
  s.monitor.lock.lockHolder.elim 0 fun t => ((s.task t).owes (s.monitor.pc t)).toNat

structure Inv (s : State α) : Prop where
  sound : Monitor.Sound s.monitor
  coming : Monitor.ComingInv s.monitor
  fits : ∀ t, Fits s t
  fifo : s.appended = s.taken ++ s.list
  /-- A consumer that is about to wait has found the list empty. -/
  empty : ∀ t w, s.monitor.pc t = .waitAppend w → s.list = []
  nonempty : ∀ t, s.task t = .removeTake → s.list ≠ []
  count : s.monitor.waitQueue ≠ [] →
    s.list.length ≤ (Monitor.coming s.monitor.log).length + s.credit

section

variable {s s' : State α} {t u : ThreadId} {task : Task α} {routine : Routine}

/-- A step of `t` that leaves the lock as it is, and takes no debt of `t` away. -/
theorem credit_le (hholder : s'.monitor.lock.lockHolder = s.monitor.lock.lockHolder)
    (htask : ∀ u ≠ t, s'.task u = s.task u) (hpc : ∀ u ≠ t, s'.monitor.pc u = s.monitor.pc u)
    (howes : (s.task t).owes (s.monitor.pc t) = true →
      (s'.task t).owes (s'.monitor.pc t) = true) : s.credit ≤ s'.credit := by
  unfold State.credit
  rw [hholder]
  cases s.monitor.lock.lockHolder with
  | none => exact le_rfl
  | some u =>
    show ((s.task u).owes (s.monitor.pc u)).toNat ≤ ((s'.task u).owes (s'.monitor.pc u)).toNat
    by_cases hu : u = t
    · subst hu
      exact Bool.toNat_le_toNat howes
    · rw [htask u hu, hpc u hu]

theorem Fits.outside (h : Fits s t) (htask : (s.task t).routine = none) :
    s.monitor.pc t = .outside := by
  rcases h.1 with hr | hout
  · exact Monitor.Pc.outside_of_routine (hr.trans htask)
  · exact hout

/-- The others keep what they have when the monitor moves for `t`. -/
theorem Fits.other {token : Option ThreadId} (h : Fits s u) (hu : u ≠ t)
    (hl : Monitor.LockInv s.monitor token) (hm : Monitor.Move s.monitor t s'.monitor)
    (htask : s'.task u = s.task u) : Fits s' u := by
  unfold Fits
  rw [htask, hm.pc_of_ne hu]
  refine ⟨h.1, ?_⟩
  intro hout hidle hrelease
  exact hm.held_other hl hu (h.2 hout hidle hrelease)

/-- The call of a routine by a thread that is allowed to make it. -/
theorem Inv.call (h : Inv s) (hs : s.call t routine task = some s')
    (hroutine : task.routine = some routine) (hbroadcast : routine ≠ .broadcast)
    (hheld : routine ≠ .acquire → s.monitor.Held t)
    (howes : s.list = [] ∨ ((s.task t).owes .outside = true →
      task.owes (routine.entry s.monitor.next) = true))
    (hwait : routine = .wait → s.list = []) : Inv s' := by
  obtain ⟨m, hm, rfl⟩ := Option.map_eq_some_iff.mp hs
  obtain ⟨⟨token, hi⟩, -, -⟩ := h.sound
  obtain ⟨hpc, hmove, hlock, hqueue, hlog, hentry⟩ := Monitor.step_call hm hheld hbroadcast
  have hsound := h.sound.call hm hheld
  refine ⟨hsound, h.coming.move hi.waiter hmove, ?_, h.fifo, ?_, ?_, ?_⟩
  · intro u
    by_cases hu : u = t
    · subst hu
      refine ⟨.inl ?_, ?_⟩
      · show (m.pc u).routine = (Function.update s.task u task u).routine
        rw [Function.update_self, hentry, hroutine]
        cases routine <;> first | rfl | exact (hbroadcast rfl).elim
      · intro hout
        cases routine <;> cases hentry.symm.trans hout
    · exact (h.fits u).other hu hi.lock hmove (Function.update_of_ne hu ..)
  · intro u w hw
    by_cases hu : u = t
    · subst hu
      apply hwait
      cases routine <;> first | rfl | cases hentry.symm.trans hw
    · exact h.empty u w ((hmove.pc_of_ne hu).symm.trans hw)
  · intro u hu
    by_cases hut : u = t
    · subst hut
      replace hu : Function.update s.task u task u = .removeTake := hu
      rw [Function.update_self] at hu
      rw [hu] at hroutine
      cases hroutine
    · exact h.nonempty u ((Function.update_of_ne hut ..).symm.trans hu)
  · intro hne
    rcases howes with hempty | howes
    · show s.list.length ≤ _
      rw [hempty]
      exact Nat.zero_le _
    · have hcredit : s.credit ≤ State.credit { s.goto t task with monitor := m } := by
        apply credit_le (t := t) (congrArg _ hlock)
        · exact fun u hu => Function.update_of_ne hu ..
        · exact fun u hu => hmove.pc_of_ne hu
        · intro ho
          show (Function.update s.task t task t).owes (m.pc t) = true
          rw [Function.update_self, hentry]
          exact howes (hpc ▸ ho)
      have hcount := h.count (hqueue ▸ hne)
      show s.list.length ≤ (Monitor.coming m.log).length + _
      rw [hlog]
      exact hcount.trans (Nat.add_le_add_left hcredit _)

/-- A thread between two routines goes on in its own code, with the list as it is or changed. -/
theorem Inv.own {list appended taken : List α} (h : Inv s) (hpc : s.monitor.pc t = .outside)
    (held : task ≠ .idle → s.monitor.Held t)
    (hlist : list = s.list ∨ s.monitor.Held t) (hfifo : appended = taken ++ list)
    (hnonempty : task = .removeTake → list ≠ [])
    (hcount : list.length + ((s.task t).owes .outside).toNat ≤
      s.list.length + (task.owes .outside).toNat) :
    Inv { s.goto t task with list := list, appended := appended, taken := taken } := by
  obtain ⟨⟨token, hi⟩, -, -⟩ := h.sound
  -- nobody else holds the lock when the list changes
  have hothers {u : ThreadId} (hu : u ≠ t) (hh : s.monitor.Held u) : list = s.list := by
    rcases hlist with hlist | ht
    · exact hlist
    · cases hh.symm.trans ht
      exact (hu rfl).elim
  have htask_of_ne {u : ThreadId} (hu : u ≠ t) : Function.update s.task t task u = s.task u :=
    Function.update_of_ne hu ..
  refine ⟨h.sound, h.coming, ?_, hfifo, ?_, ?_, ?_⟩
  · intro u
    unfold Fits
    show ((s.monitor.pc u).routine = (Function.update s.task t task u).routine ∨ _) ∧
      (_ → Function.update s.task t task u ≠ .idle →
        (Function.update s.task t task u).routine ≠ some .release → s.monitor.Held u)
    by_cases hu : u = t
    · subst hu
      rw [Function.update_self]
      exact ⟨.inr hpc, fun _ hidle _ => held hidle⟩
    · rw [htask_of_ne hu]
      exact h.fits u
  · intro u w hw
    have hu : u ≠ t := by
      rintro rfl
      cases hpc.symm.trans hw
    have hh : s.monitor.Held u := hi.lock.holding u ((congrArg Monitor.Pc.holding hw).trans rfl)
    exact (hothers hu hh).trans (h.empty u w hw)
  · intro u hut
    by_cases hu : u = t
    · subst hu
      replace hut : Function.update s.task u task u = .removeTake := hut
      rw [Function.update_self] at hut
      exact hnonempty hut
    · replace hut : s.task u = .removeTake := (htask_of_ne hu).symm.trans hut
      have hh : s.monitor.Held u := by
        apply (h.fits u).2 ((h.fits u).outside (by rw [hut]; rfl)) <;> rw [hut] <;> nofun
      show list ≠ []
      rw [hothers hu hh]
      exact h.nonempty u hut
  · intro hne
    have hbefore := h.count hne
    show list.length ≤ (Monitor.coming s.monitor.log).length + _
    unfold State.credit at hbefore ⊢
    show _ ≤ _ + s.monitor.lock.lockHolder.elim 0 fun u =>
      ((Function.update s.task t task u).owes (s.monitor.pc u)).toNat
    cases hholder : s.monitor.lock.lockHolder with
    | none =>
      rw [hholder] at hbefore
      rcases hlist with rfl | ht
      · exact hbefore
      · cases hholder.symm.trans ht
    | some u =>
      rw [hholder] at hbefore
      simp only [Option.elim_some] at hbefore ⊢
      by_cases hu : u = t
      · subst hu
        rw [Function.update_self, hpc]
        rw [hpc] at hbefore
        omega
      · rw [htask_of_ne hu, hothers hu hholder]
        exact hbefore

theorem credit_le_one (s : State α) : s.credit ≤ 1 := by
  unfold State.credit
  cases s.monitor.lock.lockHolder with
  | none => exact Nat.zero_le _
  | some t => exact Bool.toNat_le _

theorem credit_of_free (h : s.monitor.lock.lockHolder = none) : s.credit = 0 := by
  unfold State.credit
  rw [h]
  rfl

/-- The count of items and consumers after a step inside a routine. -/
theorem Inv.count_move {m : Monitor.State} {token : Option ThreadId} (h : Inv s)
    (hi : Monitor.Inv s.monitor token) (hm : Monitor.Move s.monitor t m)
    (hin : s.monitor.pc t ≠ .outside) (hne : m.waitQueue ≠ []) :
    s.list.length ≤ (Monitor.coming m.log).length + State.credit { s with monitor := m } := by
  -- nothing but the statement of `t` changes
  have quiet (hlock : m.lock.lockHolder = s.monitor.lock.lockHolder)
      (hqueue : m.waitQueue ≠ [] → s.monitor.waitQueue ≠ [])
      (hlog : Monitor.coming m.log = Monitor.coming s.monitor.log)
      (howes : (s.task t).owes (s.monitor.pc t) = true → (s.task t).owes (m.pc t) = true) :
      s.list.length ≤ (Monitor.coming m.log).length + State.credit { s with monitor := m } := by
    rw [hlog]
    have hcredit : s.credit ≤ State.credit { s with monitor := m } :=
      credit_le (t := t) hlock (fun _ _ => rfl) (fun u hu => hm.pc_of_ne hu) howes
    exact (h.count (hqueue hne)).trans (Nat.add_le_add_left hcredit _)
  have never (hp : (s.task t).owes (s.monitor.pc t) = false) :
      (s.task t).owes (s.monitor.pc t) = true → (s.task t).owes (m.pc t) = true := by
    intro ho
    cases hp.symm.trans ho
  have free (hp : ∀ task : Task α, task.owes (s.monitor.pc t) = false) := never (hp _)
  cases hm with
  | goto hpc _ => exact (hin hpc).elim
  | newWaiter hpc _ => exact (hin hpc).elim
  | broadcastNone hpc => exact (hin hpc).elim
  | broadcastSome hpc _ => exact (hin hpc).elim
  | lockTaken hpc hvalue =>
    exact quiet rfl id rfl (free fun task => by rw [hpc]; cases task <;> rfl)
  | lockQueued hpc => exact quiet rfl id rfl (free fun task => by rw [hpc]; cases task <;> rfl)
  | @acquireSet caller hpc =>
    have hbefore := h.count hne
    rw [credit_of_free (hi.lock.passing t (by rw [hpc]; rfl)).2] at hbefore
    cases caller with
    | client =>
      have hlog : s.monitor.log ++ Monitor.Caller.client.acquired t = s.monitor.log :=
        List.append_nil _
      dsimp only
      rw [hlog]
      exact hbefore.trans (Nat.add_le_add_left (Nat.zero_le _) _)
    | wait w =>
      -- the consumer that has the lock again still owes the item it came for
      obtain ⟨-, sem, -, -, hreleased, -⟩ := hi.waiter.stage t w .back (by rw [hpc]; rfl)
      have hfresh := h.coming.pending t w (by rw [hpc]; rfl)
      have hcoming := Monitor.coming_reacquired (t := t) (Monitor.coming_nodup hi.queue)
        hreleased hfresh
      have htask : s.task t = .removeWait := by
        have hfits := (h.fits t).1
        rw [hpc] at hfits
        rcases hfits with hfits | hfits
        · cases htask : s.task t <;> rw [htask] at hfits <;> cases hfits
        · cases hfits
      have hcredit : (((s.task t).owes
          (Function.update s.monitor.pc t (.waitDelete w) t)).toNat) = 1 := by
        rw [Function.update_self, htask]
        rfl
      show s.list.length ≤ (Monitor.coming (s.monitor.log ++ [.reacquired t w])).length +
        ((s.task t).owes (Function.update s.monitor.pc t (.waitDelete w) t)).toNat
      omega
  | releaseTest hpc held =>
    have hbefore := h.count hne
    have hcredit : s.credit = 0 := by
      unfold State.credit
      rw [held]
      show ((s.task t).owes (s.monitor.pc t)).toNat = 0
      rw [hpc]
      cases s.task t <;> rfl
    rw [hcredit] at hbefore
    exact hbefore
  | releaseV hpc => exact quiet rfl id rfl (free fun task => by rw [hpc]; cases task <;> rfl)
  | waitAppend hpc =>
    rw [h.empty t _ hpc]
    exact Nat.zero_le _
  | waiterTaken hpc _ _ => exact quiet rfl id rfl (free fun task => by rw [hpc]; cases task <;> rfl)
  | waiterQueued hpc _ _ _ =>
    exact quiet rfl id rfl (free fun task => by rw [hpc]; cases task <;> rfl)
  | waitDelete hpc =>
    refine quiet rfl id (Monitor.coming_append rfl rfl) ?_
    intro ho
    dsimp only
    rw [Function.update_self]
    rw [hpc] at ho
    cases htask : s.task t <;> rw [htask] at ho <;> first | rfl | cases ho
  | signalNone hpc held hqueue => exact (hne hqueue).elim
  | signalSome hpc held hqueue =>
    refine quiet rfl id rfl ?_
    intro ho
    dsimp only [Monitor.State.goto]
    rw [Function.update_self]
    rw [hpc] at ho
    cases htask : s.task t <;> rw [htask] at ho <;> first | rfl | cases ho
  | signalRemove hpc hqueue =>
    refine quiet rfl ?_ rfl ?_
    · intro _
      rw [hqueue]
      exact List.cons_ne_nil _ _
    · intro ho
      dsimp only
      rw [Function.update_self]
      rw [hpc] at ho
      cases htask : s.task t <;> rw [htask] at ho <;> first | rfl | cases ho
  | @signalV w sem queued loop hpc hsem =>
    obtain ⟨-, u, -, hu⟩ := hi.waiter.sleeper hi.lock hi.queue hpc
    have hbefore := h.count hne
    have hone := credit_le_one s
    have hfresh : w ∉ Monitor.reacquired s.monitor.log := by
      apply h.coming.pending u w
      exact Monitor.Pc.pending_of_asleep hu
    dsimp only
    rw [Monitor.coming_released hfresh, List.length_append, List.length_singleton]
    omega
  | signalReturn hpc => exact quiet rfl id rfl (free fun task => by rw [hpc]; cases task <;> rfl)
  | broadcastEnd hpc _ => exact quiet rfl id rfl (free fun task => by rw [hpc]; cases task <;> rfl)
  | broadcastNext hpc _ => exact quiet rfl id rfl (free fun task => by rw [hpc]; cases task <;> rfl)
  | broadcastReturn hpc =>
    exact quiet rfl id rfl (free fun task => by rw [hpc]; cases task <;> rfl)

/-- A step inside a routine of the lock or the condition. -/
theorem Inv.move {m : Monitor.State} (h : Inv s) (hin : s.monitor.pc t ≠ .outside)
    (hs : Monitor.step s.monitor (.run t) = some m) : Inv { s with monitor := m } := by
  obtain ⟨⟨token, hi⟩, -, -⟩ := h.sound
  obtain ⟨hsound, hm⟩ := h.sound.run hs
  refine ⟨hsound, h.coming.move hi.waiter hm, ?_, h.fifo, ?_, h.nonempty,
    h.count_move hi hm hin⟩
  · intro u
    by_cases hu : u = t
    · subst hu
      obtain ⟨hroutine, -⟩ := h.fits u
      replace hroutine := hroutine.resolve_right hin
      refine ⟨(hm.routine hin).symm.imp_left fun he => he.trans hroutine, ?_⟩
      intro hout _ hrelease
      apply hm.returns hi.lock hout
      rw [hroutine]
      -- the task is in a routine, which is neither `Release` nor `Broadcast`
      cases htask : s.task u
      case idle | appendInserted | removeTake | removeTaken =>
        exact (hin ((h.fits u).outside (by simp [htask, Task.routine]))).elim
      case appendRelease | removeRelease => exact (hrelease (by simp [htask, Task.routine])).elim
      all_goals simp [Task.routine]
    · exact (h.fits u).other hu hi.lock hm rfl
  · intro u w hw
    by_cases hu : u = t
    · subst hu
      exact (hm.waitAppend_ne hin hw).elim
    · exact h.empty u w ((hm.pc_of_ne hu).symm.trans hw)

theorem Inv.fail (h : Inv s) : Inv { s with failed := true } :=
  ⟨h.sound, h.coming, h.fits, h.fifo, h.empty, h.nonempty, h.count⟩

/-- A statement of `Append` or `RemoveFront` between two routines. -/
theorem Inv.advance [DecidableEq α] (h : Inv s) (hpc : s.monitor.pc t = .outside)
    (hs : s.advance t = some s') : Inv s' := by
  have held (hidle : s.task t ≠ .idle) (hr : (s.task t).routine ≠ some .release) :
      s.monitor.Held t := (h.fits t).2 hpc hidle hr
  unfold State.advance at hs
  cases htask : s.task t <;> rw [htask] at hs held <;> dsimp only at hs
  case idle => cases hs
  case appendAcquire item =>
    have hheld := held nofun nofun
    unfold LinkedList.append at hs
    split_ifs at hs with hmem <;> cases hs
    · exact h.fail
    · refine h.own hpc (fun _ => hheld) (.inr hheld) ?_ nofun ?_
      · show s.appended ++ [item] = s.taken ++ (s.list ++ [item])
        rw [h.fifo, List.append_assoc]
      · rw [htask, List.length_append]
        exact le_rfl
  case appendInserted =>
    refine h.call hs rfl nofun (fun _ => held nofun nofun) (.inr fun _ => rfl) nofun
  case appendSignal =>
    refine h.call hs rfl nofun (fun _ => held nofun nofun) (.inr ?_) nofun
    rw [htask]
    nofun
  case appendRelease =>
    cases hs
    refine h.own hpc (fun hne => (hne rfl).elim) (.inl rfl) h.fifo nofun ?_
    rw [htask]
    exact le_rfl
  case removeTake =>
    have hheld := held nofun nofun
    cases hlist : s.list with
    | nil => exact (h.nonempty t htask hlist).elim
    | cons item list =>
      rw [hlist] at hs
      cases hs
      refine h.own hpc (fun _ => hheld) (.inr hheld) ?_ nofun ?_
      · show s.appended = s.taken ++ [item] ++ list
        rw [h.fifo, hlist]
        simp
      · rw [htask, hlist]
        exact le_rfl
  case removeTaken item =>
    refine h.call hs rfl nofun (fun _ => held nofun nofun) (.inr ?_) nofun
    rw [htask]
    nofun
  case removeRelease item =>
    cases hs
    refine h.own hpc (fun hne => (hne rfl).elim) (.inl rfl) h.fifo nofun ?_
    rw [htask]
    exact le_rfl
  all_goals
    -- the test of the list, after `Acquire` or after `Wait`
    have hheld := held nofun nofun
    split_ifs at hs with hlist
    · exact h.call hs rfl nofun (fun _ => hheld) (.inl hlist) fun _ => hlist
    · cases hs
      refine h.own hpc (fun _ => hheld) (.inl rfl) h.fifo (fun _ => hlist) ?_
      rw [htask]
      exact Nat.add_le_add_left (Bool.toNat_le _) _

theorem Inv.step [DecidableEq α] {l : Label α} (h : Inv s) (hs : step s l = some s') :
    Inv s' := by
  unfold SynchList.step at hs
  split_ifs at hs with hfailed
  cases l with
  | append t item =>
    obtain ⟨htask, hs⟩ := Option.ite_none_right_eq_some.mp hs
    refine h.call hs rfl nofun (fun hne => (hne rfl).elim) (.inr ?_) nofun
    rw [htask]
    nofun
  | removeFront t =>
    obtain ⟨htask, hs⟩ := Option.ite_none_right_eq_some.mp hs
    refine h.call hs rfl nofun (fun hne => (hne rfl).elim) (.inr ?_) nofun
    rw [htask]
    nofun
  | run t =>
    dsimp only at hs
    split_ifs at hs with hpc
    · exact h.advance hpc hs
    · obtain ⟨m, hm, rfl⟩ := Option.map_eq_some_iff.mp hs
      exact h.move hpc hm

theorem inv_start : Inv (start : State α) where
  sound := ⟨⟨none, Monitor.inv_start⟩, rfl, nofun⟩
  coming := Monitor.comingInv_start
  fits := fun _ => ⟨.inr rfl, fun _ hne => (hne rfl).elim⟩
  fifo := rfl
  empty := nofun
  nonempty := nofun
  count := fun _ => Nat.zero_le _

/-- Where a statement takes a thread that neither inserts nor removes an item. -/
inductive Next : Task α → Task α → Prop where
  | appendSignal : Next .appendInserted .appendSignal
  | appendRelease : Next .appendSignal .appendRelease
  | appendReturn : Next .appendRelease .idle
  | wait (again : Bool) : Next (if again then .removeWait else .removeAcquire) .removeWait
  | take (again : Bool) : Next (if again then .removeWait else .removeAcquire) .removeTake
  | removeRelease (item : α) : Next (.removeTaken item) (.removeRelease item)
  | removeReturn (item : α) : Next (.removeRelease item) .idle

/-- A thread in `Append`, or in no routine. -/
def Task.produces : Task α → Bool
  | .idle | .appendAcquire _ | .appendInserted | .appendSignal | .appendRelease => true
  | _ => false

/-- A thread in `RemoveFront`, or in no routine. -/
def Task.consumes : Task α → Bool
  | .idle | .removeAcquire | .removeWait | .removeTake | .removeTaken _ | .removeRelease _ => true
  | _ => false

/-- The item a thread has taken and is going to return. -/
def Task.item : Task α → Option α
  | .removeTaken item | .removeRelease item => some item
  | _ => none

theorem Next.produces {a b : Task α} (h : Next a b) (ha : a.produces = true) :
    b.produces = true := by
  cases h with
  | wait again | take again => cases again <;> cases ha
  | removeRelease | removeReturn => cases ha
  | _ => rfl

theorem Next.consumes {a b : Task α} (h : Next a b) (ha : a.consumes = true) :
    b.consumes = true := by
  cases h <;> first | rfl | cases ha

theorem Next.not_appendAcquire {a b : Task α} (h : Next a b) (item : α) :
    a ≠ .appendAcquire item ∧ b ≠ .appendAcquire item := by
  cases h with
  | wait again | take again => cases again <;> exact ⟨nofun, nofun⟩
  | _ => exact ⟨nofun, nofun⟩

theorem Next.item {a b : Task α} (h : Next a b) {item : α} (hb : b.item = some item) :
    a.item = some item := by
  cases h <;> first | exact hb | cases hb

/-- What a statement does to the list. -/
inductive Effect (s : State α) (t : ThreadId) : State α → Prop where
  | monitor (m : Monitor.State) : Effect s t { s with monitor := m }
  | next (m : Monitor.State) {task : Task α} (h : Next (s.task t) task) :
      Effect s t { s.goto t task with monitor := m }
  | duplicate {item : α} (htask : s.task t = .appendAcquire item) (hmem : item ∈ s.list) :
      Effect s t { s with failed := true }
  | insert {item : α} (htask : s.task t = .appendAcquire item) :
      Effect s t { s.goto t .appendInserted with
        list := s.list ++ [item], appended := s.appended ++ [item] }
  | remove {item : α} {list : List α} (htask : s.task t = .removeTake)
      (hlist : s.list = item :: list) :
      Effect s t { s.goto t (.removeTaken item) with list := list, taken := s.taken ++ [item] }

theorem effect_call {routine : Routine} (hs : s.call t routine task = some s')
    (h : Next (s.task t) task) : Effect s t s' := by
  obtain ⟨m, -, rfl⟩ := Option.map_eq_some_iff.mp hs
  exact .next m h

theorem Inv.effect [DecidableEq α] (h : Inv s) (hs : SynchList.step s (.run t) = some s') :
    Effect s t s' := by
  unfold SynchList.step at hs
  obtain ⟨-, hs⟩ := Option.ite_none_left_eq_some.mp hs
  dsimp only at hs
  split_ifs at hs with hpc
  · unfold State.advance at hs
    cases htask : s.task t <;> rw [htask] at hs <;> dsimp only at hs
    case idle => cases hs
    case appendAcquire item =>
      unfold LinkedList.append at hs
      split_ifs at hs with hmem <;> cases hs
      · exact .duplicate htask hmem
      · exact .insert htask
    case appendInserted => exact effect_call hs (htask ▸ .appendSignal)
    case appendSignal => exact effect_call hs (htask ▸ .appendRelease)
    case appendRelease =>
      cases hs
      exact .next s.monitor (htask ▸ .appendReturn)
    case removeAcquire =>
      split_ifs at hs with hlist
      · exact effect_call hs (htask ▸ .wait false)
      · cases hs
        exact .next s.monitor (htask ▸ .take false)
    case removeWait =>
      split_ifs at hs with hlist
      · exact effect_call hs (htask ▸ .wait true)
      · cases hs
        exact .next s.monitor (htask ▸ .take true)
    case removeTake =>
      cases hlist : s.list with
      | nil => exact (h.nonempty t htask hlist).elim
      | cons item list =>
        rw [hlist] at hs
        cases hs
        exact .remove htask hlist
    case removeTaken item => exact effect_call hs (htask ▸ .removeRelease item)
    case removeRelease item =>
      cases hs
      exact .next s.monitor (htask ▸ .removeReturn item)
  · obtain ⟨m, -, rfl⟩ := Option.map_eq_some_iff.mp hs
    exact .monitor m

/-- The calls of `Append` and `RemoveFront`. -/
theorem step_append [DecidableEq α] {item : α} (hs : step s (.append t item) = some s') :
    ∃ m, s' = { s.goto t (.appendAcquire item) with monitor := m } := by
  unfold SynchList.step at hs
  obtain ⟨-, hs⟩ := Option.ite_none_left_eq_some.mp hs
  obtain ⟨-, hs⟩ := Option.ite_none_right_eq_some.mp hs
  obtain ⟨m, -, rfl⟩ := Option.map_eq_some_iff.mp hs
  exact ⟨m, rfl⟩

/-- `Append` can be called by a thread that is in no routine. -/
theorem Inv.exists_append [DecidableEq α] (h : Inv s) (hrunning : s.failed = false)
    (hidle : s.task t = .idle) (item : α) :
    ∃ s', SynchList.step s (.append t item) = some s' := by
  have hout : s.monitor.pc t = .outside := (h.fits t).outside (by rw [hidle]; rfl)
  have hfailure : s.monitor.failure = none := h.sound.2.1
  have hcall : Monitor.step s.monitor (.call t .acquire) = some (s.monitor.enter t .acquire) := by
    unfold Monitor.step
    rw [if_neg (by simp [hfailure])]
    exact if_pos hout
  unfold SynchList.step
  rw [if_neg (by simp [hrunning])]
  dsimp only
  rw [if_pos hidle, State.call, hcall]
  exact ⟨_, rfl⟩

theorem step_removeFront [DecidableEq α] (hs : step s (.removeFront t) = some s') :
    ∃ m, s' = { s.goto t .removeAcquire with monitor := m } := by
  unfold SynchList.step at hs
  obtain ⟨-, hs⟩ := Option.ite_none_left_eq_some.mp hs
  obtain ⟨-, hs⟩ := Option.ite_none_right_eq_some.mp hs
  obtain ⟨m, -, rfl⟩ := Option.map_eq_some_iff.mp hs
  exact ⟨m, rfl⟩

/-- The assertion that fails is the one in `list->Append`. -/
theorem advance_failed [DecidableEq α] (h : Inv s) (hs : s.advance t = some s')
    (hbefore : s.failed = false) (hfailed : s'.failed = true) :
    ∃ item, s'.task t = .appendAcquire item ∧ item ∈ s'.list := by
  have hgoto {task : Task α} (he : some (s.goto t task) = some s') : False := by
    cases he
    cases hbefore.symm.trans hfailed
  have hcall {routine : Routine} {task : Task α} (he : s.call t routine task = some s') :
      False := by
    obtain ⟨m, -, rfl⟩ := Option.map_eq_some_iff.mp he
    cases hbefore.symm.trans hfailed
  unfold State.advance at hs
  cases htask : s.task t <;> rw [htask] at hs <;> dsimp only at hs
  case idle => cases hs
  case appendAcquire item =>
    unfold LinkedList.append at hs
    split_ifs at hs with hmem <;> cases hs
    · exact ⟨item, htask, hmem⟩
    · cases hbefore.symm.trans hfailed
  case removeTake =>
    cases hlist : s.list with
    | nil => exact (h.nonempty t htask hlist).elim
    | cons item list =>
      rw [hlist] at hs
      cases hs
      cases hbefore.symm.trans hfailed
  case removeAcquire | removeWait =>
    split_ifs at hs
    · exact (hcall hs).elim
    · exact (hgoto hs).elim
  all_goals first | exact (hgoto hs).elim | exact (hcall hs).elim

theorem step_failed [DecidableEq α] {l : Label α} (h : Inv s) (hs : step s l = some s')
    (hfailed : s'.failed = true) : ∃ t item, s'.task t = .appendAcquire item ∧ item ∈ s'.list := by
  unfold SynchList.step at hs
  split_ifs at hs with hbefore
  rw [Bool.not_eq_true] at hbefore
  cases l with
  | append t item =>
    obtain ⟨-, hs⟩ := Option.ite_none_right_eq_some.mp hs
    obtain ⟨m, -, rfl⟩ := Option.map_eq_some_iff.mp hs
    cases hbefore.symm.trans hfailed
  | removeFront t =>
    obtain ⟨-, hs⟩ := Option.ite_none_right_eq_some.mp hs
    obtain ⟨m, -, rfl⟩ := Option.map_eq_some_iff.mp hs
    cases hbefore.symm.trans hfailed
  | run t =>
    dsimp only at hs
    split_ifs at hs with hpc
    · exact ⟨t, advance_failed h hs hbefore hfailed⟩
    · obtain ⟨m, -, rfl⟩ := Option.map_eq_some_iff.mp hs
      cases hbefore.symm.trans hfailed

/-- The consumers that come for items while the lock is free. -/
theorem Inv.consumers (h : Inv s) (hfree : s.monitor.lock.lockHolder = none)
    (hne : s.monitor.waitQueue ≠ []) :
    ∃ consumers : List ThreadId, consumers.Nodup ∧ s.list.length ≤ consumers.length ∧
      ∀ t ∈ consumers, s.task t = .removeWait ∧ ∃ w, Monitor.Returning s.monitor t w := by
  obtain ⟨⟨token, hi⟩, -, -⟩ := h.sound
  have hcount := h.count hne
  rw [credit_of_free hfree, Nat.add_zero] at hcount
  obtain ⟨ts, hnodup, hlength, hall⟩ := Monitor.exists_returning hi h.coming
  refine ⟨ts, hnodup, hlength ▸ hcount, ?_⟩
  intro t ht
  obtain ⟨w, -, hw⟩ := hall t ht
  refine ⟨?_, w, hw⟩
  have hfits := (h.fits t).1
  obtain ⟨-, hpc | hpc | hpc⟩ := hw <;> rw [hpc] at hfits <;>
    replace hfits := hfits.resolve_right nofun <;>
    cases htask : s.task t <;> rw [htask] at hfits <;> cases hfits

/-- The shared list is first in, first out, and nobody waits for an item that nobody is coming
for. Only an `Append` of an item that is in the list already can fail. -/
theorem synchList_fifo [DecidableEq α]
    (hr : Runs.Reach step (fun _ _ => True) (start : State α) s) :
    s.appended = s.taken ++ s.list ∧ s.taken <+: s.appended ∧
      (s.monitor.lock.lockHolder = none → s.monitor.waitQueue ≠ [] →
        ∃ consumers : List ThreadId, consumers.Nodup ∧ s.list.length ≤ consumers.length ∧
          ∀ t ∈ consumers, s.task t = .removeWait ∧ ∃ w, Monitor.Returning s.monitor t w) ∧
      (∀ t, s.monitor.pc t = .outside → s.task t ≠ .idle →
        (s.task t).routine ≠ some .release → s.monitor.lock.lockHolder = some t) ∧
      s.monitor.failure = none ∧
      (s.failed = true → ∃ t item, s.task t = .appendAcquire item ∧ item ∈ s.list) := by
  have reach {s : State α} (hr : Runs.Reach step (fun _ _ => True) start s) : Inv s :=
    hr.invariant inv_start fun _ _ _ h _ hs => h.step hs
  have h := reach hr
  refine ⟨h.fifo, ?_, h.consumers, fun t => (h.fits t).2, h.sound.2.1, ?_⟩
  · rw [h.fifo]
    exact List.prefix_append _ _
  · intro hfailed
    cases hr with
    | refl => cases hfailed
    | tail hr _ hs => exact step_failed (reach hr) hs hfailed

end

/-- Three consumers wait, two items arrive, and a fourth consumer takes the first of them. -/
def bargingConsumer : List (Label ℕ) :=
  let wait (t : ThreadId) : List (Label ℕ) := .removeFront t :: List.replicate 7 (.run t)
  let append (item : ℕ) : List (Label ℕ) := .append 4 item :: List.replicate 12 (.run 4)
  wait 1 ++ wait 2 ++ wait 3 ++ append 10 ++ append 11 ++
    .removeFront 5 :: List.replicate 8 (.run 5)

theorem synchList_fifo_bargingConsumer :
    ∃ s, Runs.exec step start bargingConsumer = some s ∧ s.appended = [10, 11] ∧
      s.taken = [10] ∧ s.list.length = 1 ∧ ∃ consumers : List ThreadId, consumers.Nodup ∧
        s.list.length ≤ consumers.length ∧
        ∀ t ∈ consumers, s.task t = .removeWait ∧ ∃ w, Monitor.Returning s.monitor t w := by
  have hview : (Runs.exec step start bargingConsumer).map (fun s => (s.appended, s.taken,
      s.list.length, s.monitor.lock.lockHolder, s.monitor.waitQueue)) =
      some ([10, 11], [10], 1, none, [2]) := by
    decide +kernel
  obtain ⟨s, hs, hv⟩ := Option.map_eq_some_iff.mp hview
  obtain ⟨happended, htaken, hlength, hfree, hqueue⟩ := by simpa only [Prod.mk.injEq] using hv
  obtain ⟨-, -, hconsumers, -⟩ := synchList_fifo (Runs.reach_of_exec hs)
  refine ⟨s, hs, happended, htaken, hlength, hconsumers hfree ?_⟩
  rw [hqueue]
  exact List.cons_ne_nil _ _

end Nachos.SynchList

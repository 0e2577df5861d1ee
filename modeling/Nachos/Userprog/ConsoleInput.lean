import Nachos.Threads.LockClients

/-! The keyboard of `machine/console.cc`, as `userprog/synchconsole.cc` uses it. An empty buffer
is marked by `EOF`, which is also the byte 0xFF. Every statement of `SynchConsoleInput::GetChar`
is a step, and inside a call of the lock every step is one of `Monitor`. -/
namespace Nachos

abbrev EOF : ℤ := -1

/-- A `char` as an `int`; it is signed. -/
def charInt (ch : UInt8) : ℤ := ch.toBitVec.toInt

/-- `(char) EOF`. -/
abbrev eofChar : UInt8 := 255

theorem charInt_eq_eof {ch : UInt8} : charInt ch = EOF ↔ ch = eofChar := by
  unfold charInt
  constructor
  · intro h
    apply UInt8.toBitVec_inj.mp
    exact BitVec.eq_of_toInt_eq h
  · rintro rfl
    rfl

/-- `class ConsoleInput`, and the UNIX file, which has been read up to `offset`. -/
structure ConsoleInput where
  incoming : UInt8
  /-- How many interrupts `ConsoleReadInt` are pending. -/
  scheduled : ℕ
  offset : ℕ
  /-- `ReadPartial` has found the end of the file. -/
  ended : Bool

namespace ConsoleInput

/-- The constructor. -/
def new : ConsoleInput := ⟨eofChar, 1, 0, false⟩

/-- `ConsoleInput::CallBack`, when `PollFile` answers `polled`, and whether it calls the handler of
its user. There is no result if the assertion fails. -/
def callBack (stream : ℕ → Option UInt8) (polled : Bool) (console : ConsoleInput) :
    Option (ConsoleInput × Bool) :=
  if charInt console.incoming ≠ EOF then none
  else if polled = false then some ({ console with scheduled := console.scheduled + 1 }, false)
  else match stream console.offset with
    | none => some ({ console with ended := true }, true)
    | some ch => some ({ console with incoming := ch, offset := console.offset + 1 }, true)

/-- `ConsoleInput::GetChar`. -/
def getChar (console : ConsoleInput) : UInt8 × ConsoleInput :=
  (console.incoming, { console with
    scheduled := if charInt console.incoming ≠ EOF then console.scheduled + 1 else console.scheduled
    incoming := eofChar })

end ConsoleInput

namespace SynchConsoleInput

open Monitor (Routine Clients duty)

/-- Where a thread is; the calls of `consoleInput->GetChar()` are numbered. -/
inductive Task where
  | idle
  /-- In `lock->Acquire()`, then in `waitFor->P()`. -/
  | acquire
  /-- At `consoleInput->GetChar()`. -/
  | waited
  /-- At the call of `lock->Release()`. -/
  | got (n : ℕ) (ch : UInt8)
  /-- In `lock->Release()`, then at the return. -/
  | release (n : ℕ) (ch : UInt8)
  deriving DecidableEq

/-- The routine a task is in, until it returns. -/
def Task.routine : Task → Option Routine
  | .acquire => some .acquire
  | .release _ _ => some .release
  | .idle | .waited | .got _ _ => none

/-- Between its routines a task holds the lock, except at the ends. -/
def Task.holds : Task → Bool
  | .acquire | .waited | .got _ _ => true
  | .idle | .release _ _ => false

/-- The byte is still to be got. -/
def Task.due : Task → Bool
  | .acquire | .waited => true
  | .idle | .got _ _ | .release _ _ => false

/-- What a task has got. -/
def Task.has : Task → Option (ℕ × UInt8)
  | .got n ch | .release n ch => some (n, ch)
  | .idle | .acquire | .waited => none

structure State where
  monitor : Monitor.State
  waitFor : Semaphore
  console : ConsoleInput
  task : ThreadId → Task
  /-- Who obtained the lock, in that order. -/
  obtained : List ThreadId
  /-- What `consoleInput->GetChar()` has returned, in that order. -/
  taken : List (ThreadId × UInt8)
  /-- The assertion of the device has failed. -/
  failed : Bool

inductive Label where
  | call (t : ThreadId)
  | run (t : ThreadId)
  /-- The interrupt, with the answer of `PollFile`. -/
  | interrupt (polled : Bool)
  deriving DecidableEq

def start : State where
  monitor := Monitor.start
  waitFor := Semaphore.new 0
  console := .new
  task := fun _ => .idle
  obtained := []
  taken := []
  failed := false

namespace State

def goto (s : State) (t : ThreadId) (task : Task) : State :=
  { s with task := Function.update s.task t task }

/-- The call of a routine of the lock. -/
def call (s : State) (t : ThreadId) (routine : Routine) (task : Task) : Option State :=
  (Monitor.step s.monitor (.call t routine)).map fun m => { s.goto t task with monitor := m }

/-- A step inside a routine of the lock, which `Acquire` obtains with its last statement. -/
def routine (s : State) (t : ThreadId) : Option State :=
  (Monitor.step s.monitor (.run t)).map fun m => { s with
    monitor := m
    obtained := s.obtained ++ if s.monitor.pc t = .acquireSet .client then [t] else [] }

/-- One turn of the loop in `P`. -/
def turn (s : State) (t : ThreadId) : Option State :=
  if t ∈ s.waitFor.queue then none
  else
    let turn := s.waitFor.P t
    some { s.goto t (if turn.1 then .waited else .acquire) with waitFor := turn.2 }

def getChar (s : State) (t : ThreadId) : State :=
  let (ch, console) := s.console.getChar
  { s.goto t (.got s.taken.length ch) with console, taken := s.taken ++ [(t, ch)] }

/-- The next statement of a thread that is in no routine of the lock. -/
def advance (s : State) (t : ThreadId) : Option State :=
  match s.task t with
  | .idle => none
  | .acquire => s.turn t
  | .waited => some (s.getChar t)
  | .got n ch => s.call t .release (.release n ch)
  | .release _ _ => some (s.goto t .idle)

/-- The interrupt, no longer pending, and `SynchConsoleInput::CallBack`. -/
def interrupt (stream : ℕ → Option UInt8) (s : State) (polled : Bool) : State :=
  match { s.console with scheduled := s.console.scheduled - 1 }.callBack stream polled with
  | none => { s with failed := true }
  | some (console, called) =>
    { s with console, waitFor := if called then s.waitFor.V.2 else s.waitFor }

end State

def step (stream : ℕ → Option UInt8) (s : State) (l : Label) : Option State :=
  if s.failed then none
  else match l with
    | .call t => if s.task t = .idle then s.call t .acquire .acquire else none
    | .run t => if s.monitor.pc t = .outside then s.advance t else s.routine t
    | .interrupt polled =>
      if s.console.scheduled = 0 then none else some (s.interrupt stream polled)

namespace State

/-- The holder of the lock that has not got its byte yet. -/
def next (s : State) : List ThreadId := duty s.monitor fun t => (s.task t).due

/-- A byte has been read from the file, and the next `GetChar` will return it. -/
def Buffered (s : State) : Prop :=
  s.console.offset = s.taken.length + 1 ∧
    (s.waitFor.value = 1 ∧ s.waitFor.queue = [] ∨ ∃ t, s.task t = .waited)

end State

/-- Every byte is delivered: those that have been returned are those of the file, in the order in
which the lock was obtained, and the next one is in sight. -/
structure Delivers (stream : ℕ → Option UInt8) (s : State) : Prop where
  running : s.failed = false ∧ s.monitor.failure = none
  order : s.obtained = s.taken.map Prod.fst ++ s.next
  returns : ∀ t n ch, s.task t = .release n ch → s.taken[n]? = some (t, ch)
  /-- At the end of the file `EOF` is returned, once. -/
  bytes : ∀ n call, s.taken[n]? = some call → stream n = some call.2 ∨
    stream n = none ∧ s.console.ended = true ∧ call.2 = eofChar ∧ s.taken.length = n + 1
  supplied : s.console.ended = false → 0 < s.console.scheduled ∨ s.Buffered

/-- The bytes that have been returned are those of the file, and none of them looks like `EOF`. -/
def Clean (stream : ℕ → Option UInt8) (taken : List (ThreadId × UInt8)) : Prop :=
  ∀ n call, taken[n]? = some call → stream n = some call.2 ∧ call.2 ≠ eofChar

/-- The buffer has what the next `GetChar` will return. -/
structure Full (stream : ℕ → Option UInt8) (s : State) : Prop where
  clean : Clean stream s.taken
  next : s.console.ended = false ∧ s.console.offset = s.taken.length + 1 ∧
      stream s.taken.length = some s.console.incoming ∨
    s.console.ended = true ∧ stream s.taken.length = none ∧ s.console.incoming = eofChar

/-- `EOF` has been returned, whatever it was. -/
structure Stopped (stream : ℕ → Option UInt8) (s : State) : Prop where
  empty : s.console.incoming = eofChar
  last : ∃ before t, s.taken = before ++ [(t, eofChar)] ∧ Clean stream before ∧
    (s.console.ended = false ∧ s.console.offset = s.taken.length ∧
        stream before.length = some eofChar ∨
      s.console.ended = true ∧ stream before.length = none)

/-- The interrupt is pending, or there is a permit for what it has brought, or a thread has taken
the permit, or nothing more will come. -/
inductive Mode (stream : ℕ → Option UInt8) (s : State) : Prop where
  | polling (hscheduled : s.console.scheduled = 1) (hvalue : s.waitFor.value = 0)
      (hnone : ∀ t, s.task t ≠ .waited) (hempty : s.console.incoming = eofChar)
      (hoffset : s.console.offset = s.taken.length) (hended : s.console.ended = false)
      (hclean : Clean stream s.taken)
  | arrived (hscheduled : s.console.scheduled = 0) (hvalue : s.waitFor.value = 1)
      (hqueue : s.waitFor.queue = []) (hnone : ∀ t, s.task t ≠ .waited) (hfull : Full stream s)
  | passed (t : ThreadId) (hscheduled : s.console.scheduled = 0) (hvalue : s.waitFor.value = 0)
      (hone : ∀ u, s.task u = .waited ↔ u = t) (hfull : Full stream s)
  | stopped (hscheduled : s.console.scheduled = 0) (hvalue : s.waitFor.value = 0)
      (hnone : ∀ t, s.task t ≠ .waited) (hstopped : Stopped stream s)

/-- What holds between any two steps. -/
structure Inv (stream : ℕ → Option UInt8) (s : State) : Prop where
  clients : Clients Task.routine Task.holds s.monitor s.task
  running : s.failed = false
  mode : Mode stream s
  asleep : ∀ t ∈ s.waitFor.queue, s.waitFor.queue = [t] ∧ s.task t = .acquire ∧
    s.monitor.pc t = .outside
  order : s.obtained = s.taken.map Prod.fst ++ s.next
  has : ∀ t n ch, (s.task t).has = some (n, ch) → s.taken[n]? = some (t, ch)

section

variable {stream : ℕ → Option UInt8} {s s' : State} {t : ThreadId} {task : Task}

theorem Full.congr (h : Full stream s) (hconsole : s'.console = s.console)
    (htaken : s'.taken = s.taken) : Full stream s' := by
  refine ⟨htaken ▸ h.clean, ?_⟩
  rw [hconsole, htaken]
  exact h.next

/-- Steps that neither use the console nor take a permit. -/
theorem Mode.congr (h : Mode stream s) (hconsole : s'.console = s.console)
    (hvalue' : s'.waitFor.value = s.waitFor.value)
    (hqueue' : s.waitFor.value = 1 → s'.waitFor.queue = s.waitFor.queue)
    (htaken : s'.taken = s.taken) (htask : ∀ u, s'.task u = .waited ↔ s.task u = .waited) :
    Mode stream s' := by
  cases h with
  | polling hscheduled hvalue hnone hempty hoffset hended hclean =>
    refine .polling ?_ ?_ (fun u hu => hnone u ((htask u).mp hu)) ?_ ?_ ?_ (htaken ▸ hclean) <;>
      simpa only [hconsole, hvalue', htaken]
  | arrived hscheduled hvalue hqueue hnone hfull =>
    refine .arrived ?_ ?_ ?_ (fun u hu => hnone u ((htask u).mp hu)) (hfull.congr hconsole htaken)
      <;> simpa only [hconsole, hvalue', hqueue' hvalue]
  | passed t hscheduled hvalue hone hfull =>
    refine .passed t ?_ ?_ (fun u => (htask u).trans (hone u)) (hfull.congr hconsole htaken)
      <;> simpa only [hconsole, hvalue']
  | stopped hscheduled hvalue hnone hstopped =>
    refine .stopped ?_ ?_ (fun u hu => hnone u ((htask u).mp hu)) ⟨?_, ?_⟩
    · rwa [hconsole]
    · rwa [hvalue']
    · rw [hconsole]
      exact hstopped.empty
    · rw [hconsole, htaken]
      exact hstopped.last

theorem task_self : (s.goto t task).task t = task := Function.update_self ..

theorem task_of_ne {u : ThreadId} (hu : u ≠ t) : (s.goto t task).task u = s.task u :=
  Function.update_of_ne hu ..

/-- What a thread has got, it had before, or it has got it now. -/
theorem has_goto {u : ThreadId} {n : ℕ} {ch : UInt8}
    (h : ((s.goto t task).task u).has = some (n, ch)) :
    u = t ∧ task.has = some (n, ch) ∨ (s.task u).has = some (n, ch) := by
  by_cases hu : u = t
  · subst hu
    rw [task_self] at h
    exact .inl ⟨rfl, h⟩
  · rw [task_of_ne hu] at h
    exact .inr h

theorem waited_goto (hbefore : s.task t ≠ .waited) (hafter : task ≠ .waited) (u : ThreadId) :
    (s.goto t task).task u = .waited ↔ s.task u = .waited := by
  by_cases hu : u = t
  · subst hu
    rw [task_self]
    exact iff_of_false hafter hbefore
  · rw [task_of_ne hu]

theorem Task.ne_waited_of_due (h : task.due = false) : task ≠ .waited := by
  rintro rfl
  cases h

/-- The call of a routine of the lock. -/
theorem Inv.call {routine : Routine} (h : Inv stream s) (hs : s.call t routine task = some s')
    (hroutine : task.routine = some routine) (hbroadcast : routine ≠ .broadcast)
    (hheld : routine ≠ .acquire → s.monitor.Held t) (hdue : (s.task t).due = false)
    (hhas : ∀ x, task.has = some x → (s.task t).has = some x) : Inv stream s' := by
  obtain ⟨m, hm, rfl⟩ := Option.map_eq_some_iff.mp hs
  obtain ⟨hpc, hmove, hlock, -, -, hentry⟩ := Monitor.step_call hm hheld hbroadcast
  have hin : m.pc t ≠ .outside := by
    intro hout
    cases routine <;> first | exact (hbroadcast rfl).elim | cases hentry.symm.trans hout
  refine ⟨h.clients.call hm hheld hbroadcast hroutine, h.running, ?_, ?_, ?_, ?_⟩
  · refine h.mode.congr rfl rfl (fun _ => rfl) rfl (waited_goto (Task.ne_waited_of_due hdue) ?_)
    rintro rfl
    cases hroutine
  · intro u hu
    obtain ⟨hqueue, htask, hout⟩ := h.asleep u hu
    have hne : u ≠ t := by
      rintro rfl
      rw [htask] at hdue
      cases hdue
    exact ⟨hqueue, (task_of_ne hne).trans htask, (hmove.pc_of_ne hne).trans hout⟩
  · show s.obtained = s.taken.map Prod.fst ++ duty m fun u => ((s.goto t task).task u).due
    rw [h.order]
    refine congrArg (_ ++ ·) (Monitor.duty_congr (congrArg _ hlock) fun u => ?_).symm
    by_cases hu : u = t
    · subst hu
      exact iff_of_false (fun h => hin h.1) fun h => by simp [hdue] at h
    · rw [hmove.pc_of_ne hu]
      exact and_congr_right fun _ => by rw [task_of_ne hu]
  · intro u n ch hu
    replace hu : ((s.goto t task).task u).has = some (n, ch) := hu
    rcases has_goto hu with ⟨rfl, hself⟩ | hu
    · exact h.has u n ch (hhas _ hself)
    · exact h.has u n ch hu

/-- A step inside a routine of the lock. -/
theorem Inv.routine (h : Inv stream s) (hin : s.monitor.pc t ≠ .outside)
    (hs : s.routine t = some s') : Inv stream s' := by
  obtain ⟨m, hm, rfl⟩ := Option.map_eq_some_iff.mp hs
  obtain ⟨-, hmove⟩ := h.clients.sound.run hm
  have hroutine := (h.clients.fits t).1.resolve_right hin
  have hacquire : (s.task t).holds = true → (s.task t).routine = some .acquire := by
    intro hholds
    cases htask : s.task t <;> rw [htask] at hholds hroutine <;>
      first | rfl | exact absurd (Monitor.Pc.outside_of_routine hroutine) hin | cases hholds
  have hdue : (s.task t).due = true ↔ (s.task t).routine = some .acquire := by
    cases htask : s.task t <;> rw [htask] at hroutine <;>
      first | exact iff_of_true rfl rfl |
        exact absurd (Monitor.Pc.outside_of_routine hroutine) hin |
        exact iff_of_false (by simp [Task.due]) (by simp [Task.routine])
  refine ⟨h.clients.run hin hm hacquire, h.running,
    h.mode.congr rfl rfl (fun _ => rfl) rfl fun _ => Iff.rfl, ?_, ?_, h.has⟩
  · intro u hu
    obtain ⟨hqueue, htask, hout⟩ := h.asleep u hu
    have hne : u ≠ t := by
      rintro rfl
      exact hin hout
    exact ⟨hqueue, htask, (hmove.pc_of_ne hne).trans hout⟩
  · show s.obtained ++ _ = s.taken.map Prod.fst ++ duty m _
    rw [h.clients.duty_run hin hm hdue, h.order, List.append_assoc]
    rfl

/-- The end of the routine. -/
theorem Inv.leave (h : Inv stream s) {n : ℕ} {ch : UInt8} (hout : s.monitor.pc t = .outside)
    (htask : s.task t = .release n ch) : Inv stream (s.goto t .idle) := by
  refine ⟨h.clients.goto hout (by simp [Task.holds]), h.running, ?_, ?_, ?_, ?_⟩
  · exact h.mode.congr rfl rfl (fun _ => rfl) rfl (waited_goto (by simp [htask]) (by simp))
  · intro u hu
    obtain ⟨hqueue, hacquire, hout⟩ := h.asleep u hu
    have hne : u ≠ t := by
      rintro rfl
      cases htask.symm.trans hacquire
    exact ⟨hqueue, (task_of_ne hne).trans hacquire, hout⟩
  · show s.obtained = s.taken.map Prod.fst ++ duty s.monitor fun u => ((s.goto t .idle).task u).due
    rw [h.order]
    refine congrArg (_ ++ ·) (Monitor.duty_congr rfl fun u => ?_).symm
    by_cases hu : u = t
    · subst hu
      rw [task_self, htask]
      rfl
    · rw [task_of_ne hu]
  · intro u n ch hu
    rcases has_goto hu with ⟨-, hself⟩ | hu
    · cases hself
    · exact h.has u n ch hu

theorem Inv.held (h : Inv stream s) (hout : s.monitor.pc t = .outside)
    (hholds : (s.task t).holds = true) : s.monitor.Held t := (h.clients.fits t).2 hout hholds

/-- Nobody else is asleep while a thread is awake with the lock. -/
theorem Inv.queue_eq_nil (h : Inv stream s) (held : s.monitor.Held t)
    (hawake : t ∉ s.waitFor.queue) : s.waitFor.queue = [] := by
  apply List.eq_nil_iff_forall_not_mem.mpr
  intro u hu
  obtain ⟨-, htask, hout⟩ := h.asleep u hu
  cases (h.held hout (by rw [htask]; rfl)).symm.trans held
  exact hawake hu

/-- One turn of the loop in `P`. -/
theorem Inv.turn (h : Inv stream s) (hout : s.monitor.pc t = .outside) (htask : s.task t = .acquire)
    (hs : s.turn t = some s') : Inv stream s' := by
  obtain ⟨hawake, hs⟩ := Option.ite_none_left_eq_some.mp hs
  have held := h.held hout (by rw [htask]; rfl)
  have hempty := h.queue_eq_nil held hawake
  have hnext {task : Task} (hdue : task.due = true) :
      (duty s.monitor fun u => ((s.goto t task).task u).due) = s.next := by
    refine Monitor.duty_congr rfl fun u => ?_
    by_cases hu : u = t
    · subst hu
      rw [task_self, hdue, htask]
      rfl
    · rw [task_of_ne hu]
  have hhas {task : Task} (hnone : task.has = none) (u : ThreadId) (n : ℕ) (ch : UInt8)
      (hu : ((s.goto t task).task u).has = some (n, ch)) : s.taken[n]? = some (u, ch) := by
    rcases has_goto hu with ⟨-, hself⟩ | hu
    · cases hnone.symm.trans hself
    · exact h.has u n ch hu
  by_cases hvalue : s.waitFor.value = 0
  · rw [Semaphore.P_of_zero hvalue] at hs
    cases hs
    refine ⟨h.clients.goto hout fun _ => held, h.running, ?_, ?_, ?_, hhas rfl⟩
    · refine h.mode.congr rfl rfl (fun h1 => ?_) rfl (waited_goto (by simp [htask]) (by simp))
      rw [hvalue] at h1
      cases h1
    · intro u hu
      rw [hempty, List.nil_append, List.mem_singleton] at hu
      subst hu
      rw [hempty]
      exact ⟨rfl, task_self, hout⟩
    · show s.obtained = _ ++ duty s.monitor _
      rw [h.order]
      exact congrArg (_ ++ ·) (hnext rfl).symm
  · rw [Semaphore.P_of_ne_zero hvalue] at hs
    cases hs
    refine ⟨h.clients.goto hout fun _ => held, h.running, ?_, ?_, ?_, hhas rfl⟩
    · cases h.mode with
      | polling _ hzero | passed _ _ hzero | stopped _ hzero => exact absurd hzero hvalue
      | arrived hscheduled hone _ hnone hfull =>
        refine .passed t hscheduled ?_ (fun u => ?_) (hfull.congr rfl rfl)
        · show s.waitFor.value - 1 = 0
          omega
        · by_cases hu : u = t
          · subst hu
            exact iff_of_true task_self rfl
          · refine iff_of_false (fun hw => hnone u ?_) hu
            rw [← hw]
            exact (task_of_ne hu).symm
    · intro u hu
      rw [show s.waitFor.queue = [] from hempty] at hu
      cases hu
    · show s.obtained = _ ++ duty s.monitor _
      rw [h.order]
      exact congrArg (_ ++ ·) (hnext rfl).symm

theorem Clean.snoc {taken : List (ThreadId × UInt8)} (h : Clean stream taken) {ch : UInt8}
    (hch : stream taken.length = some ch) (hne : ch ≠ eofChar) :
    Clean stream (taken ++ [(t, ch)]) := by
  intro n call hcall
  rcases lt_or_ge n taken.length with hlt | hge
  · rw [List.getElem?_append_left hlt] at hcall
    exact h n call hcall
  · rw [List.getElem?_append_right hge, List.getElem?_singleton] at hcall
    split at hcall
    · obtain rfl : n = taken.length := by omega
      cases hcall
      exact ⟨hch, hne⟩
    · cases hcall

/-- The call of `consoleInput->GetChar()`. -/
theorem Mode.getChar (h : Mode stream s) (htask : s.task t = .waited) :
    Mode stream (s.getChar t) := by
  cases h with
  | polling _ _ hnone | arrived _ _ _ hnone | stopped _ _ hnone => exact absurd htask (hnone t)
  | passed t' hscheduled hvalue hone hfull =>
    obtain rfl := (hone t).mp htask
    have hnone (u : ThreadId) : (s.getChar t).task u ≠ .waited := by
      intro hu
      by_cases hut : u = t
      · subst hut
        cases task_self.symm.trans hu
      · exact hut ((hone u).mp ((task_of_ne hut).symm.trans hu))
    have hlength : (s.getChar t).taken.length = s.taken.length + 1 := List.length_append
    have hstopped (hch : s.console.incoming = eofChar)
        (hlast : s.console.ended = false ∧ s.console.offset = s.taken.length + 1 ∧
            stream s.taken.length = some eofChar ∨
          s.console.ended = true ∧ stream s.taken.length = none) : Mode stream (s.getChar t) := by
      refine .stopped ?_ hvalue hnone ⟨rfl, s.taken, t, ?_, hfull.clean, ?_⟩
      · show (if charInt s.console.incoming ≠ EOF then _ else _) = 0
        rw [if_neg (not_not.mpr (charInt_eq_eof.mpr hch)), hscheduled]
      · rw [← hch]
        rfl
      · rw [hlength]
        exact hlast
    rcases hfull.next with ⟨hended, hoffset, hstream⟩ | ⟨hended, hstream, hch⟩
    · by_cases hch : s.console.incoming = eofChar
      · exact hstopped hch (.inl ⟨hended, hoffset, hch ▸ hstream⟩)
      · refine .polling ?_ hvalue hnone rfl ?_ hended (hfull.clean.snoc hstream hch)
        · show (if charInt s.console.incoming ≠ EOF then _ else _) = 1
          rw [if_pos (fun h => hch (charInt_eq_eof.mp h)), hscheduled]
        · rw [hlength]
          exact hoffset
    · exact hstopped hch (.inr ⟨hended, hstream⟩)

theorem Inv.getChar (h : Inv stream s) (hout : s.monitor.pc t = .outside)
    (htask : s.task t = .waited) : Inv stream (s.getChar t) := by
  have held := h.held hout (by rw [htask]; rfl)
  refine ⟨h.clients.goto hout fun _ => held, h.running, h.mode.getChar htask, ?_, ?_, ?_⟩
  · intro u hu
    obtain ⟨hqueue, hacquire, hout⟩ := h.asleep u hu
    have hne : u ≠ t := by
      rintro rfl
      cases htask.symm.trans hacquire
    exact ⟨hqueue, (task_of_ne hne).trans hacquire, hout⟩
  · have hbefore : s.next = [t] := by
      rw [State.next, Monitor.duty_of_held held, htask]
      exact if_pos ⟨hout, rfl⟩
    have hafter : (s.getChar t).next = [] := by
      rw [State.next, Monitor.duty_of_held (t := t)]
      · refine if_neg fun hdue => ?_
        rw [show (s.getChar t).task t = _ from task_self] at hdue
        cases hdue.2
      · exact held
    rw [hafter, List.append_nil]
    show s.obtained = (s.taken ++ [(t, _)]).map Prod.fst
    rw [h.order, hbefore, List.map_append]
    rfl
  · intro u n ch hu
    show (s.taken ++ [(t, s.console.incoming)])[n]? = _
    replace hu :
      ((s.goto t (.got s.taken.length s.console.incoming)).task u).has = some (n, ch) := hu
    rcases has_goto hu with ⟨rfl, hself⟩ | hu
    · cases hself
      exact List.getElem?_concat_length
    · have hold := h.has u n ch hu
      rw [List.getElem?_append_left (List.getElem?_eq_some_iff.mp hold).1]
      exact hold

/-- The interrupt comes while the buffer is empty. -/
theorem Mode.interrupt (h : Mode stream s) (hscheduled : s.console.scheduled ≠ 0)
    (hqueue : s.waitFor.queue.tail = []) (polled : Bool) :
    Mode stream (s.interrupt stream polled) ∧ (s.interrupt stream polled).failed = s.failed := by
  cases h with
  | arrived hzero | passed _ hzero | stopped hzero => exact absurd hzero hscheduled
  | polling hone hvalue hnone hempty hoffset hended hclean =>
    have heof : ¬ charInt s.console.incoming ≠ EOF := not_not.mpr (charInt_eq_eof.mpr hempty)
    unfold State.interrupt ConsoleInput.callBack
    dsimp only
    rw [if_neg heof]
    cases polled with
    | false =>
      refine ⟨.polling ?_ hvalue hnone hempty hoffset hended hclean, rfl⟩
      show s.console.scheduled - 1 + 1 = 1
      omega
    | true =>
      rw [if_neg (by simp)]
      have hpending : s.console.scheduled - 1 = 0 := by omega
      have hpermit : s.waitFor.V.2.value = 1 := congrArg (· + 1) hvalue
      rw [hoffset]
      cases hstream : stream s.taken.length with
      | none =>
        exact ⟨.arrived hpending hpermit hqueue hnone ⟨hclean, .inr ⟨rfl, hstream, hempty⟩⟩, rfl⟩
      | some ch =>
        exact ⟨.arrived hpending hpermit hqueue hnone ⟨hclean, .inl ⟨hended, rfl, hstream⟩⟩, rfl⟩

theorem Inv.interrupt (h : Inv stream s) (hscheduled : s.console.scheduled ≠ 0) (polled : Bool) :
    Inv stream (s.interrupt stream polled) := by
  have htail : s.waitFor.queue.tail = [] := by
    cases hqueue : s.waitFor.queue with
    | nil => rfl
    | cons u queue =>
      have hu := (h.asleep u (hqueue ▸ List.mem_cons_self)).1
      rw [hqueue] at hu
      cases hu
      rfl
  obtain ⟨hmode, hfailed⟩ := h.mode.interrupt hscheduled htail polled
  -- the interrupt is no statement of a thread
  have hsame : (s.interrupt stream polled).monitor = s.monitor ∧
      (s.interrupt stream polled).task = s.task ∧
      (s.interrupt stream polled).obtained = s.obtained ∧
      (s.interrupt stream polled).taken = s.taken ∧
      ((s.interrupt stream polled).waitFor.queue = s.waitFor.queue ∨
        (s.interrupt stream polled).waitFor.queue = []) := by
    unfold State.interrupt
    split
    · exact ⟨rfl, rfl, rfl, rfl, .inl rfl⟩
    · next called _ =>
      refine ⟨rfl, rfl, rfl, rfl, ?_⟩
      cases called with
      | false => exact .inl rfl
      | true => exact .inr htail
  obtain ⟨hmonitor, htask, hobtained, htaken, hqueue⟩ := hsame
  refine ⟨?_, hfailed.trans h.running, hmode, ?_, ?_, ?_⟩
  · rw [hmonitor, htask]
    exact h.clients
  · intro u hu
    rw [hmonitor, htask]
    rcases hqueue with hqueue | hqueue <;> rw [hqueue] at hu ⊢
    · exact h.asleep u hu
    · cases hu
  · rw [hobtained, htaken, State.next, hmonitor, htask]
    exact h.order
  · rw [htask, htaken]
    exact h.has

/-- Every step keeps the invariant. -/
theorem Inv.step {l : Label} (h : Inv stream s) (hs : step stream s l = some s') :
    Inv stream s' := by
  unfold SynchConsoleInput.step at hs
  rw [if_neg (by simp [h.running])] at hs
  cases l with
  | call t =>
    obtain ⟨hidle, hs⟩ := Option.ite_none_right_eq_some.mp hs
    exact h.call hs rfl (by simp) (fun hne => absurd rfl hne) (by rw [hidle]; rfl)
      (by simp [Task.has])
  | run t =>
    dsimp only at hs
    split_ifs at hs with hout
    · unfold State.advance at hs
      cases htask : s.task t with
      | idle => simp [htask] at hs
      | acquire =>
        rw [htask] at hs
        exact h.turn hout htask hs
      | waited =>
        rw [htask] at hs
        cases hs
        exact h.getChar hout htask
      | got n ch =>
        rw [htask] at hs
        refine h.call hs rfl (by simp) (fun _ => h.held hout (by rw [htask]; rfl))
          (by rw [htask]; rfl) fun x hx => ?_
        rw [htask]
        exact hx
      | release n ch =>
        rw [htask] at hs
        cases hs
        exact h.leave hout htask
    · exact h.routine hout hs
  | interrupt polled =>
    obtain ⟨hscheduled, hs⟩ := Option.ite_none_left_eq_some.mp hs
    cases hs
    exact h.interrupt hscheduled polled

theorem inv_start (stream : ℕ → Option UInt8) : Inv stream start where
  clients := Monitor.clients_start rfl
  running := rfl
  mode := by
    refine .polling rfl rfl (by simp [start]) rfl rfl rfl fun n call hcall => ?_
    cases hcall
  asleep t ht := by cases ht
  order := rfl
  has t n ch h := by cases h

theorem inv_reach (hr : Runs.Reach (step stream) (fun _ _ => True) start s) : Inv stream s :=
  hr.invariant (inv_start stream) fun _ _ _ h _ hs => h.step hs

theorem Clean.ne_eof {taken : List (ThreadId × UInt8)} (h : Clean stream taken) {n : ℕ}
    (hn : n < taken.length) : stream n ≠ some eofChar := by
  obtain ⟨hstream, hne⟩ := h n taken[n] (List.getElem?_eq_getElem hn)
  rw [hstream]
  exact fun heq => hne (Option.some.inj heq)

/-- What has been returned until the input stopped, and the last of it. -/
theorem Stopped.taken (h : Stopped stream s) : ∃ n, s.taken.length = n + 1 ∧
    (∀ k < n, stream k ≠ some eofChar) ∧
    (∀ k call, s.taken[k]? = some call → k < n ∧ stream k = some call.2 ∨
      k = n ∧ call.2 = eofChar) ∧
    (s.console.ended = false ∧ s.console.offset = s.taken.length ∧ stream n = some eofChar ∨
      s.console.ended = true ∧ stream n = none) := by
  obtain ⟨before, t, htaken, hclean, hlast⟩ := h.last
  refine ⟨before.length, ?_, fun k hk => hclean.ne_eof hk, ?_, hlast⟩
  · rw [htaken, List.length_append]
    rfl
  · intro k call hcall
    rw [htaken] at hcall
    rcases lt_or_ge k before.length with hlt | hge
    · rw [List.getElem?_append_left hlt] at hcall
      exact .inl ⟨hlt, (hclean k call hcall).1⟩
    · rw [List.getElem?_append_right hge, List.getElem?_singleton] at hcall
      split at hcall
      · cases hcall
        exact .inr ⟨by omega, rfl⟩
      · cases hcall

theorem Full.supplied (h : Full stream s) (hready : s.waitFor.value = 1 ∧ s.waitFor.queue = [] ∨
    ∃ t, s.task t = .waited) (hended : s.console.ended = false) : s.Buffered := by
  rcases h.next with ⟨-, hoffset, -⟩ | ⟨htrue, -⟩
  · exact ⟨hoffset, hready⟩
  · cases hended.symm.trans htrue

/-- In every reachable state every byte is delivered exactly if none of those that have been
returned so far is 0xFF. -/
theorem delivers_iff (hr : Runs.Reach (step stream) (fun _ _ => True) start s) :
    Delivers stream s ↔ ∀ n < s.taken.length, stream n ≠ some eofChar := by
  have h := inv_reach hr
  have hall (hbytes : ∀ n call, s.taken[n]? = some call → stream n = some call.2 ∨
        stream n = none ∧ s.console.ended = true ∧ call.2 = eofChar ∧ s.taken.length = n + 1)
      (hsupplied : s.console.ended = false → 0 < s.console.scheduled ∨ s.Buffered) :
      Delivers stream s :=
    ⟨⟨h.running, h.clients.sound.2.1⟩, h.order,
      fun t n ch ht => h.has t n ch (by rw [ht]; rfl), hbytes, hsupplied⟩
  have hclean (hc : Clean stream s.taken)
      (hsupplied : s.console.ended = false → 0 < s.console.scheduled ∨ s.Buffered) :
      Delivers stream s ↔ ∀ n < s.taken.length, stream n ≠ some eofChar :=
    iff_of_true (hall (fun n call hcall => .inl (hc n call hcall).1) hsupplied) fun n => hc.ne_eof
  cases h.mode with
  | polling hscheduled _ _ _ _ _ hc => exact hclean hc fun _ => .inl (by omega)
  | arrived _ hvalue hqueue _ hfull =>
    exact hclean hfull.clean fun hended => .inr (hfull.supplied (.inl ⟨hvalue, hqueue⟩) hended)
  | passed t _ _ hone hfull =>
    exact hclean hfull.clean fun hended =>
      .inr (hfull.supplied (.inr ⟨t, (hone t).mpr rfl⟩) hended)
  | stopped hscheduled _ hnone hstopped =>
    obtain ⟨n, hlength, hbefore, hbytes, ⟨hended, hoffset, hlast⟩ | ⟨hended, hlast⟩⟩ :=
      hstopped.taken
    · refine iff_of_false (fun hd => ?_) fun hne => hne n (by omega) hlast
      rcases hd.supplied hended with hpos | hbuffered
      · omega
      · have hbuffer := hbuffered.1
        omega
    · refine iff_of_true (hall (fun k call hcall => ?_) fun hfalse => ?_) fun k hk => ?_
      · rcases hbytes k call hcall with ⟨-, hstream⟩ | ⟨rfl, hch⟩
        · exact .inl hstream
        · exact .inr ⟨hlast, hended, hch, hlength⟩
      · cases hfalse.symm.trans hended
      · rcases lt_or_eq_of_le (show k ≤ n by omega) with hlt | rfl
        · exact hbefore k hlt
        · rw [hlast]
          exact Option.some_ne_none _ |>.symm

end

/-- The interrupt, and the whole of a call by thread `t` after it. -/
def oneByte (t : ThreadId) : List Label :=
  .interrupt true :: .call t :: List.replicate 8 (.run t)

/-- A file with these bytes. -/
def streamOf (bytes : List UInt8) (n : ℕ) : Option UInt8 := bytes[n]?

theorem delivers_twoBytes : ∃ s,
    Runs.exec (step (streamOf [72, 105])) start (oneByte 1 ++ oneByte 2) = some s ∧
    Delivers (streamOf [72, 105]) s ∧ s.taken = [(1, 72), (2, 105)] := by
  have hrun : (Runs.exec (step (streamOf [72, 105])) start (oneByte 1 ++ oneByte 2)).map
      State.taken = some [(1, 72), (2, 105)] := by decide +kernel
  obtain ⟨s, hs, htaken⟩ := Option.map_eq_some_iff.mp hrun
  refine ⟨s, hs, (delivers_iff (Runs.reach_of_exec hs)).mpr ?_, htaken⟩
  rw [htaken]
  decide

/-- After a byte 0xFF the next byte of the file never comes. -/
theorem input_stops_after_eofChar : ∃ s,
    Runs.exec (step (streamOf [255, 65])) start (oneByte 1) = some s ∧
    s.taken = [(1, 255)] ∧ ¬ Delivers (streamOf [255, 65]) s := by
  have hrun : (Runs.exec (step (streamOf [255, 65])) start (oneByte 1)).map
      (fun s => (s.taken, s.console.ended, s.console.scheduled, s.console.offset)) =
        some ([(1, 255)], false, 0, 1) := by decide +kernel
  obtain ⟨s, hs, hview⟩ := Option.map_eq_some_iff.mp hrun
  simp only [Prod.mk.injEq] at hview
  obtain ⟨htaken, hended, hscheduled, hoffset⟩ := hview
  refine ⟨s, hs, htaken, fun hd => ?_⟩
  rcases hd.supplied hended with hpos | hbuffered
  · omega
  · have hbuffer := hbuffered.1
    rw [hoffset, htaken] at hbuffer
    cases hbuffer

end SynchConsoleInput
end Nachos

import Nachos.Threads.MonitorRoutines

/-! Routines that make an asynchronous device synchronous: `SynchDisk::ReadSector` and
`WriteSector`, `SynchConsoleOutput::PutChar` and `PostOfficeOutput::Send` all acquire a lock,
give the device a request, wait in `P` for its interrupt, whose handler calls `V`, and release
the lock. The device is a parameter. Every statement is a step, and inside a call of the lock
every step is one of `Monitor`. -/
namespace Nachos

/-- A device with requests `ρ` and what they bring `α`. An assertion that fails has no result. -/
structure Device (ρ α δ : Type*) where
  request : δ → ρ → Option (α × δ)
  /-- What the interrupt handler does to the device, before it calls `V`. -/
  callBack : δ → δ

namespace SynchDevice

open Monitor (Routine)

variable {ρ α δ : Type*}

/-- Where a thread is; requests are numbered in the order in which they are made. -/
inductive Task (ρ α : Type*) where
  | idle
  /-- In `lock->Acquire()`, then at the request. -/
  | acquire (r : ρ)
  /-- At `semaphore->P()`, in the loop. -/
  | wait (n : ℕ) (r : ρ) (answer : α)
  /-- At the call of `lock->Release()`. -/
  | waited (n : ℕ) (r : ρ) (answer : α)
  /-- In `lock->Release()`, then at the return. -/
  | release (n : ℕ) (r : ρ) (answer : α)

structure State (ρ α δ : Type*) where
  monitor : Monitor.State
  semaphore : Semaphore
  device : δ
  task : ThreadId → Task ρ α
  /-- The requests whose interrupt has been scheduled and not yet invoked. -/
  scheduled : List ℕ
  /-- The requests whose interrupt has been invoked, in that order. -/
  served : List ℕ
  /-- Who obtained the lock, and for what, in that order. -/
  obtained : List (ThreadId × ρ)
  /-- The requests and what they brought, in the order in which they were made. -/
  made : List (ThreadId × ρ × α)
  /-- An assertion of the device has failed. -/
  failed : Bool

inductive Label (ρ : Type*) where
  | call (t : ThreadId) (r : ρ)
  | run (t : ThreadId)
  /-- The interrupt for a request. -/
  | interrupt (n : ℕ)

def start (device : δ) : State ρ α δ where
  monitor := Monitor.start
  semaphore := Semaphore.new 0
  device := device
  task := fun _ => .idle
  scheduled := []
  served := []
  obtained := []
  made := []
  failed := false

/-- What a thread wants the lock for. -/
def Task.wants : Task ρ α → Option ρ
  | .acquire r => some r
  | _ => none

namespace State

def goto (s : State ρ α δ) (t : ThreadId) (task : Task ρ α) : State ρ α δ :=
  { s with task := Function.update s.task t task }

/-- The call of a routine of the lock. -/
def call (s : State ρ α δ) (t : ThreadId) (routine : Routine) (task : Task ρ α) :
    Option (State ρ α δ) :=
  (Monitor.step s.monitor (.call t routine)).map fun m => { s.goto t task with monitor := m }

/-- A step inside a routine of the lock, which `Acquire` obtains with its last statement. -/
def routine (s : State ρ α δ) (t : ThreadId) : Option (State ρ α δ) :=
  (Monitor.step s.monitor (.run t)).map fun m => { s with
    monitor := m
    obtained := s.obtained ++ if s.monitor.pc t = .acquireSet .client then
      ((s.task t).wants.map fun r => (t, r)).toList else [] }

/-- The request to the device. -/
def request (device : Device ρ α δ) (s : State ρ α δ) (t : ThreadId) (r : ρ) : State ρ α δ :=
  match device.request s.device r with
  | none => { s with failed := true }
  | some (answer, d) => { s.goto t (.wait s.made.length r answer) with
      device := d, scheduled := s.scheduled ++ [s.made.length], made := s.made ++ [(t, r, answer)] }

/-- One turn of the loop in `P`. -/
def turn (s : State ρ α δ) (t : ThreadId) (n : ℕ) (r : ρ) (answer : α) : Option (State ρ α δ) :=
  if t ∈ s.semaphore.queue then none
  else
    let turn := s.semaphore.P t
    some { s.goto t (if turn.1 then .waited n r answer else .wait n r answer) with
      semaphore := turn.2 }

/-- The next statement of a thread that is in no routine of the lock. -/
def advance (device : Device ρ α δ) (s : State ρ α δ) (t : ThreadId) : Option (State ρ α δ) :=
  match s.task t with
  | .idle => none
  | .acquire r => some (s.request device t r)
  | .wait n r answer => s.turn t n r answer
  | .waited n r answer => s.call t .release (.release n r answer)
  | .release _ _ _ => some (s.goto t .idle)

/-- The interrupt handler of the device. -/
def interrupt (device : Device ρ α δ) (s : State ρ α δ) (n : ℕ) : State ρ α δ :=
  { s with
    device := device.callBack s.device, semaphore := s.semaphore.V.2,
    scheduled := s.scheduled.erase n, served := s.served ++ [n] }

end State

def step (device : Device ρ α δ) (s : State ρ α δ) (l : Label ρ) : Option (State ρ α δ) :=
  if s.failed then none
  else match l with
    | .call t r => match s.task t with
      | .idle => s.call t .acquire (.acquire r)
      | _ => none
    | .run t => if s.monitor.pc t = .outside then s.advance device t else s.routine t
    | .interrupt n => if n ∈ s.scheduled then some (s.interrupt device n) else none

/-- The routine a task is in, until it returns. -/
def Task.routine : Task ρ α → Option Routine
  | .acquire _ => some .acquire
  | .release _ _ _ => some .release
  | .idle | .wait _ _ _ | .waited _ _ _ => none

/-- Between its routines a task holds the lock, except at the ends. -/
def Task.holds : Task ρ α → Bool
  | .acquire _ | .wait _ _ _ | .waited _ _ _ => true
  | .idle | .release _ _ _ => false

/-- A device that serves the requests in `calls` one after the other, each up to its interrupt. -/
inductive Serves (device : Device ρ α δ) (d : δ) : List (ρ × α) → δ → Prop
  | nil : Serves device d [] d
  | snoc {calls : List (ρ × α)} {r : ρ} {answer : α} {d' d'' : δ} :
      Serves device d calls d' → device.request d' r = some (answer, d'') →
      Serves device d (calls ++ [(r, answer)]) (device.callBack d'')

/-- A device whose assertions hold as long as it is given valid requests one at a time. -/
structure Reliable (device : Device ρ α δ) (ready : δ → Prop) (valid : ρ → Prop) : Prop where
  request : ∀ d r, ready d → valid r → ∃ answer d', device.request d r = some (answer, d') ∧
    ready (device.callBack d')

/-- The request a thread has made, with its number. -/
def Task.made : Task ρ α → Option (ℕ × ρ × α)
  | .wait n r answer | .waited n r answer | .release n r answer => some (n, r, answer)
  | .idle | .acquire _ => none

/-- The number of the request a thread is waiting for. -/
def Task.waitsFor : Task ρ α → Option ℕ
  | .wait n _ _ => some n
  | _ => none

/-- The number of the request a thread has seen completed. -/
def Task.completed : Task ρ α → Option ℕ
  | .waited n _ _ | .release n _ _ => some n
  | _ => none

namespace State

/-- The device as the interrupt that is still to come will leave it. -/
def settled (device : Device ρ α δ) (s : State ρ α δ) : δ :=
  if s.scheduled = [] then s.device else device.callBack s.device

/-- How many threads are in `P`. -/
def waiters (s : State ρ α δ) : ℕ :=
  s.monitor.lock.lockHolder.elim 0 fun t => (s.task t).waitsFor.toList.length

/-- What a thread that has just obtained the lock will ask for. -/
def asks (s : State ρ α δ) (t : ThreadId) : List (ThreadId × ρ) :=
  if s.monitor.pc t = .outside then ((s.task t).wants.map fun r => (t, r)).toList else []

/-- The request that the holder of the lock has not made yet. -/
def next (s : State ρ α δ) : List (ThreadId × ρ) := s.monitor.lock.lockHolder.elim [] s.asks

end State

/-- What holds of the lock and its clients. -/
structure Locking (valid : ρ → Prop) (s : State ρ α δ) : Prop where
  sound : Monitor.Sound s.monitor
  fits : ∀ t, Monitor.Fits s.monitor t (s.task t).routine ((s.task t).holds = true)
  wanted : ∀ t r, (s.task t).wants = some r → valid r

/-- What holds between any two steps. -/
structure Inv (device : Device ρ α δ) (ready : δ → Prop) (valid : ρ → Prop) (init : δ)
    (s : State ρ α δ) : Prop extends Locking valid s where
  running : s.failed = false
  ready : ready (s.settled device)
  serves : Serves device init (s.made.map Prod.snd) (s.settled device)
  numbered : s.served ++ s.scheduled = List.range s.made.length
  allValid : ∀ call ∈ s.made, valid call.2.1
  made : ∀ t n r answer, (s.task t).made = some (n, r, answer) → s.made[n]? = some (t, r, answer)
  latest : ∀ t n, (s.task t).waitsFor = some n → n + 1 = s.made.length
  completed : ∀ t n, (s.task t).completed = some n → n ∈ s.served
  permits : s.semaphore.value + s.scheduled.length = s.waiters
  queue : ∀ t ∈ s.semaphore.queue, s.semaphore.queue = [t] ∧ (s.task t).waitsFor ≠ none ∧
    s.scheduled ≠ []
  order : s.obtained = (s.made.map fun call => (call.1, call.2.1)) ++ s.next

section

variable {device : Device ρ α δ} {ready : δ → Prop} {valid : ρ → Prop} {init : δ}
  {s s' : State ρ α δ} {t : ThreadId} {task : Task ρ α}

theorem Locking.held (h : Locking valid s) (hroutine : (s.task t).routine = none)
    (hholds : (s.task t).holds = true) : s.monitor.pc t = .outside ∧ s.monitor.Held t := by
  have hfits := h.fits t
  rw [hroutine] at hfits
  exact ⟨hfits.outside, hfits.2 hfits.outside hholds⟩

theorem waiters_of_held (held : s.monitor.Held t) :
    s.waiters = (s.task t).waitsFor.toList.length := by
  unfold State.waiters
  rw [show s.monitor.lock.lockHolder = some t from held]
  rfl

theorem next_of_held (held : s.monitor.Held t) : s.next = s.asks t := by
  unfold State.next
  rw [show s.monitor.lock.lockHolder = some t from held]
  rfl

theorem task_of_ne {u : ThreadId} (hu : u ≠ t) : (s.goto t task).task u = s.task u :=
  Function.update_of_ne hu ..

theorem task_self : (s.goto t task).task t = task := Function.update_self ..

/-- What is so of a task after a statement of `t` is so of its new task, or was so before. -/
theorem goto_cases {β : Type*} {f : Task ρ α → β} {b : β} {u : ThreadId}
    (h : f ((s.goto t task).task u) = b) : u = t ∧ f task = b ∨ f (s.task u) = b := by
  by_cases hu : u = t
  · subst hu
    rw [task_self] at h
    exact .inl ⟨rfl, h⟩
  · rw [task_of_ne hu] at h
    exact .inr h

/-- A statement of `t` between two routines of the lock. -/
theorem Locking.goto (h : Locking valid s) (task : Task ρ α) (hout : s.monitor.pc t = .outside)
    (hholds : task.holds = true → s.monitor.Held t) (hwants : task.wants = none) :
    Locking valid (s.goto t task) := by
  refine ⟨h.sound, ?_, ?_⟩
  · intro u
    by_cases hu : u = t
    · subst hu
      rw [task_self]
      exact ⟨.inr hout, fun _ => hholds⟩
    · rw [task_of_ne hu]
      exact h.fits u
  · intro u r hr
    rcases goto_cases (f := Task.wants) hr with ⟨-, hr⟩ | hr
    · cases hwants.symm.trans hr
    · exact h.wanted u r hr

/-- Steps that give the device nothing to do. -/
theorem Inv.update (h : Inv device ready valid init s) (m : Monitor.State) (sem : Semaphore)
    (hlocking : Locking valid { s.goto t task with monitor := m, semaphore := sem })
    (hmade : ∀ call, task.made = some call → (s.task t).made = some call)
    (hlatest : ∀ n, task.waitsFor = some n → (s.task t).waitsFor = some n)
    (hcompleted : ∀ n, task.completed = some n → n ∈ s.served)
    (hpermits : sem.value + s.scheduled.length =
      State.waiters { s.goto t task with monitor := m, semaphore := sem })
    (hqueue : ∀ u ∈ sem.queue, sem.queue = [u] ∧
      ((s.goto t task).task u).waitsFor ≠ none ∧ s.scheduled ≠ [])
    (hnext : State.next { s.goto t task with monitor := m, semaphore := sem } = s.next) :
    Inv device ready valid init { s.goto t task with monitor := m, semaphore := sem } := by
  refine ⟨hlocking, h.running, h.ready, h.serves, h.numbered, h.allValid, ?_, ?_, ?_, hpermits,
    hqueue, ?_⟩
  · intro u n r answer hu
    rcases goto_cases (f := Task.made) hu with ⟨rfl, hself⟩ | hu
    · exact h.made u n r answer (hmade _ hself)
    · exact h.made u n r answer hu
  · intro u n hu
    rcases goto_cases (f := Task.waitsFor) hu with ⟨rfl, hself⟩ | hu
    · exact h.latest u n (hlatest n hself)
    · exact h.latest u n hu
  · intro u n hu
    rcases goto_cases (f := Task.completed) hu with ⟨-, hu⟩ | hu
    · exact hcompleted n hu
    · exact h.completed u n hu
  · rw [hnext]
    exact h.order

/-- The holder of the lock is the same, and nothing that counts changes for `t`. -/
theorem waiters_update {m : Monitor.State} {sem : Semaphore}
    (hlock : m.lock.lockHolder = s.monitor.lock.lockHolder)
    (hwaits : task.waitsFor = (s.task t).waitsFor) :
    State.waiters { s.goto t task with monitor := m, semaphore := sem } = s.waiters := by
  have heq : ∀ u, ((s.goto t task).task u).waitsFor = (s.task u).waitsFor := by
    intro u
    by_cases hu : u = t
    · rw [hu, task_self, hwaits]
    · rw [task_of_ne hu]
  show m.lock.lockHolder.elim 0 (fun u => ((s.goto t task).task u).waitsFor.toList.length) = _
  simp only [heq, hlock]
  rfl

theorem asks_of_wants (h : (s.task t).wants = none) : s.asks t = [] := by
  unfold State.asks
  rw [h]
  split <;> rfl

theorem next_update {m : Monitor.State} {sem : Semaphore}
    (hlock : m.lock.lockHolder = s.monitor.lock.lockHolder) (hpc : ∀ u ≠ t, m.pc u = s.monitor.pc u)
    (hbefore : (s.task t).wants = none) (hafter : m.pc t = .outside → task.wants = none) :
    State.next { s.goto t task with monitor := m, semaphore := sem } = s.next := by
  have heq : ∀ u,
      State.asks { s.goto t task with monitor := m, semaphore := sem } u = s.asks u := by
    intro u
    by_cases hu : u = t
    · subst hu
      rw [asks_of_wants hbefore]
      show (if m.pc u = .outside then (((s.goto u task).task u).wants.map _).toList else []) = _
      rw [task_self]
      split_ifs with hout
      · rw [hafter hout]
        rfl
      · rfl
    · show (if m.pc u = .outside then (((s.goto t task).task u).wants.map _).toList else []) = _
      rw [task_of_ne hu, hpc u hu]
      rfl
  show m.lock.lockHolder.elim []
    (State.asks { s.goto t task with monitor := m, semaphore := sem }) = _
  rw [funext heq, hlock]
  rfl

/-- A thread in `P` holds the lock. -/
theorem Locking.held_of_waits (h : Locking valid s) (hwaits : (s.task t).waitsFor ≠ none) :
    s.monitor.Held t := by
  have htask : (s.task t).routine = none ∧ (s.task t).holds = true := by
    cases htask : s.task t <;> rw [htask] at hwaits <;>
      first | exact ⟨rfl, rfl⟩ | exact absurd rfl hwaits
  exact (h.held htask.1 htask.2).2

/-- The call of a routine of the lock. -/
theorem Inv.call {routine : Routine} (h : Inv device ready valid init s)
    (hs : s.call t routine task = some s') (hroutine : task.routine = some routine)
    (hbroadcast : routine ≠ .broadcast) (hheld : routine ≠ .acquire → s.monitor.Held t)
    (hvalid : ∀ r, task.wants = some r → valid r) (hbefore : (s.task t).wants = none)
    (hwaits : (s.task t).waitsFor = none)
    (hmade : ∀ call, task.made = some call → (s.task t).made = some call)
    (hcompleted : ∀ n, task.completed = some n → n ∈ s.served) :
    Inv device ready valid init s' := by
  obtain ⟨m, hm, rfl⟩ := Option.map_eq_some_iff.mp hs
  obtain ⟨⟨token, hi⟩, -, -⟩ := h.sound
  obtain ⟨hpc, hmove, hlock, -, -, hentry⟩ := Monitor.step_call hm hheld hbroadcast
  have hwaits' : task.waitsFor = none := by
    cases task <;> first | rfl | cases hroutine
  have hholder := congrArg Monitor.Lock.lockHolder hlock
  have hother : ∀ u ∈ s.semaphore.queue, u ≠ t := by
    rintro u hu rfl
    exact (h.queue u hu).2.1 hwaits
  apply h.update m s.semaphore _ hmade _ hcompleted
  · rw [waiters_update hholder (hwaits'.trans hwaits.symm)]
    exact h.permits
  · intro u hu
    rw [task_of_ne (hother u hu)]
    exact h.queue u hu
  · apply next_update hholder (fun u hu => hmove.pc_of_ne hu) hbefore
    intro hout
    cases routine <;> first | exact (hbroadcast rfl).elim | cases hentry.symm.trans hout
  · refine ⟨h.sound.call hm hheld, ?_, ?_⟩
    · intro u
      by_cases hu : u = t
      · subst hu
        show Monitor.Fits m u ((s.goto u task).task u).routine _
        rw [task_self, hroutine]
        exact .call hm hheld hbroadcast
      · show Monitor.Fits m u ((s.goto t task).task u).routine _
        rw [task_of_ne hu]
        exact (h.fits u).other hu hi.lock hmove
    · intro u r hr
      rcases goto_cases (f := Task.wants) hr with ⟨-, hr⟩ | hr
      · exact hvalid r hr
      · exact h.wanted u r hr
  · intro n hn
    rw [hwaits'] at hn
    cases hn

/-- A thread in a routine of the lock is in the one its task says. -/
theorem Locking.in_routine (h : Locking valid s) (hin : s.monitor.pc t ≠ .outside) :
    (∃ r, s.task t = .acquire r) ∨ ∃ n r answer, s.task t = .release n r answer := by
  have hfits := h.fits t
  cases htask : s.task t with
  | acquire r => exact .inl ⟨r, rfl⟩
  | release n r answer => exact .inr ⟨n, r, answer, rfl⟩
  | _ =>
    rw [htask] at hfits
    exact absurd hfits.outside hin

theorem Locking.routine {m : Monitor.State} {obtained : List (ThreadId × ρ)} (h : Locking valid s)
    (hin : s.monitor.pc t ≠ .outside) (hm : Monitor.step s.monitor (.run t) = some m) :
    Locking valid { s with monitor := m, obtained := obtained } := by
  obtain ⟨⟨token, hi⟩, -, -⟩ := h.sound
  obtain ⟨hsound, hmove⟩ := h.sound.run hm
  refine ⟨hsound, ?_, h.wanted⟩
  intro u
  by_cases hu : u = t
  · subst hu
    apply (h.fits u).move hin hi.lock hmove
    intro hholds
    rcases h.in_routine hin with ⟨r, htask⟩ | ⟨n, r, answer, htask⟩
    · exact .inl (by rw [htask]; rfl)
    · rw [htask] at hholds
      cases hholds
  · exact (h.fits u).other hu hi.lock hmove

/-- The requests follow the order in which the lock is obtained. -/
theorem Locking.next_routine {m : Monitor.State} {obtained : List (ThreadId × ρ)}
    (h : Locking valid s) (hin : s.monitor.pc t ≠ .outside)
    (hm : Monitor.step s.monitor (.run t) = some m) :
    State.next { s with monitor := m, obtained := obtained } =
      s.next ++ if s.monitor.pc t = .acquireSet .client then
        ((s.task t).wants.map fun r => (t, r)).toList else [] := by
  obtain ⟨⟨token, hi⟩, -, -⟩ := h.sound
  obtain ⟨-, hmove⟩ := h.sound.run hm
  split_ifs with hset
  · obtain ⟨hfree, hheld, hout⟩ := hi.lock.obtains hset hm
    have hnone : s.next = [] := by
      unfold State.next
      rw [hfree]
      rfl
    rw [hnone, next_of_held (t := t) hheld]
    exact if_pos hout
  · have hself : State.asks { s with monitor := m, obtained := obtained } t = [] := by
      rcases h.in_routine hin with ⟨r, htask⟩ | ⟨n, r, answer, htask⟩
      · apply if_neg
        intro hout
        have hroutine := (h.fits t).1.resolve_right hin
        rw [htask] at hroutine
        exact hset (hmove.acquireSet_of_returns hout hroutine)
      · apply asks_of_wants
        show (s.task t).wants = none
        rw [htask]
        rfl
    have hasks : ∀ u, State.asks { s with monitor := m, obtained := obtained } u = s.asks u := by
      intro u
      by_cases hu : u = t
      · subst hu
        rw [hself]
        exact (if_neg hin).symm
      · unfold State.asks
        rw [← hmove.pc_of_ne hu]
    rw [List.append_nil]
    calc State.next { s with monitor := m, obtained := obtained }
        = s.monitor.lock.lockHolder.elim []
          (State.asks { s with monitor := m, obtained := obtained }) :=
          hmove.elim_holder hi.lock hself
      _ = s.next := by rw [funext hasks]; rfl

/-- A step inside a routine of the lock. -/
theorem Inv.routine (h : Inv device ready valid init s) (hin : s.monitor.pc t ≠ .outside)
    (hs : s.routine t = some s') : Inv device ready valid init s' := by
  obtain ⟨m, hm, rfl⟩ := Option.map_eq_some_iff.mp hs
  obtain ⟨⟨token, hi⟩, -, -⟩ := h.sound
  obtain ⟨-, hmove⟩ := h.sound.run hm
  refine ⟨h.toLocking.routine hin hm, h.running, h.ready, h.serves, h.numbered, h.allValid, h.made,
    h.latest, h.completed, ?_, h.queue, ?_⟩
  · have hzero : (s.task t).waitsFor.toList.length = 0 := by
      rcases h.in_routine hin with ⟨r, htask⟩ | ⟨n, r, answer, htask⟩ <;> rw [htask] <;> rfl
    exact h.permits.trans (hmove.elim_holder hi.lock hzero).symm
  · rw [h.toLocking.next_routine hin hm, ← List.append_assoc, ← h.order]

/-- The request of the holder of the lock. -/
theorem Inv.request (hd : Reliable device ready valid) (h : Inv device ready valid init s) {r : ρ}
    (hout : s.monitor.pc t = .outside) (htask : s.task t = .acquire r) :
    Inv device ready valid init (s.request device t r) := by
  have held : s.monitor.Held t := (h.fits t).2 hout (by rw [htask]; rfl)
  have hwaiters : s.waiters = 0 := by
    rw [waiters_of_held held, htask]
    rfl
  have hpermits := h.permits
  rw [hwaiters] at hpermits
  have hquiet : s.scheduled = [] := List.eq_nil_of_length_eq_zero (by omega)
  have hsettled : s.settled device = s.device := if_pos hquiet
  obtain ⟨answer, d, hrequest, hready⟩ :=
    hd.request s.device r (hsettled ▸ h.ready) (h.wanted t r (by rw [htask]; rfl))
  have hserves := h.serves
  rw [hsettled] at hserves
  have hnext : s.next = [(t, r)] := by
    rw [next_of_held held, State.asks, if_pos hout, htask]
    rfl
  have hlocking := h.toLocking.goto (.wait s.made.length r answer) hout (fun _ => held) rfl
  unfold State.request
  rw [hrequest]
  have hlength : (s.made ++ [(t, r, answer)]).length = s.made.length + 1 := by simp
  refine ⟨⟨hlocking.sound, hlocking.fits, hlocking.wanted⟩, h.running, ?_, ?_, ?_, ?_, ?_, ?_, ?_,
    ?_, ?_, ?_⟩
  · simpa [State.settled, hquiet] using hready
  · have hafter := Serves.snoc hserves hrequest
    simpa [State.settled, hquiet] using hafter
  · show s.served ++ (s.scheduled ++ [s.made.length]) = _
    rw [← List.append_assoc, h.numbered, hlength, List.range_succ]
  · intro call hcall
    rcases List.mem_append.mp hcall with hcall | hcall
    · exact h.allValid call hcall
    · rw [List.mem_singleton.mp hcall]
      exact h.wanted t r (by rw [htask]; rfl)
  · intro u n r' answer' hu
    show (s.made ++ [(t, r, answer)])[n]? = _
    rcases goto_cases (f := Task.made) hu with ⟨rfl, hself⟩ | hu
    · cases hself
      exact List.getElem?_concat_length
    · exact List.getElem?_append_left (List.getElem?_eq_some_iff.mp (h.made u _ _ _ hu)).1 ▸
        h.made u _ _ _ hu
  · intro u n hu
    show n + 1 = (s.made ++ [(t, r, answer)]).length
    rcases goto_cases (f := Task.waitsFor) hu with ⟨rfl, hself⟩ | hu
    · cases hself
      exact hlength.symm
    · cases (h.held_of_waits (by rw [hu]; nofun)).symm.trans held
      rw [htask] at hu
      cases hu
  · intro u n hu
    rcases goto_cases (f := Task.completed) hu with ⟨-, hself⟩ | hu
    · cases hself
    · exact h.completed u n hu
  · show s.semaphore.value + (s.scheduled ++ [s.made.length]).length = _
    rw [waiters_of_held (t := t)]
    · show _ = ((s.goto t (.wait s.made.length r answer)).task t).waitsFor.toList.length
      rw [task_self, List.length_append, List.length_singleton]
      show _ = 1
      omega
    · exact held
  · intro u hu
    exact absurd hquiet (h.queue u hu).2.2
  · rw [next_of_held (t := t), asks_of_wants]
    · show s.obtained = (s.made ++ [(t, r, answer)]).map _ ++ []
      rw [List.append_nil, List.map_append, h.order, hnext]
      rfl
    · show ((s.goto t (.wait s.made.length r answer)).task t).wants = none
      rw [task_self]
      rfl
    · exact held

/-- One turn of the loop in `P`. -/
theorem Inv.turn (h : Inv device ready valid init s) {n : ℕ} {r : ρ} {answer : α}
    (htask : s.task t = .wait n r answer) (hs : s.turn t n r answer = some s') :
    Inv device ready valid init s' := by
  obtain ⟨hawake, hs⟩ := Option.ite_none_left_eq_some.mp hs
  obtain ⟨hout, held⟩ := h.held (t := t) (by rw [htask]; rfl) (by rw [htask]; rfl)
  have hempty : s.semaphore.queue = [] := by
    apply List.eq_nil_iff_forall_not_mem.mpr
    intro u hu
    cases (h.held_of_waits (h.queue u hu).2.1).symm.trans held
    exact hawake hu
  have hwaiters : s.waiters = 1 := by
    rw [waiters_of_held held, htask]
    rfl
  have hpermits := h.permits
  rw [hwaiters] at hpermits
  have hlatest := h.latest t n (by rw [htask]; rfl)
  have hwants : (s.task t).wants = none := by
    rw [htask]
    rfl
  by_cases hvalue : s.semaphore.value = 0
  · rw [Semaphore.P_of_zero hvalue] at hs
    cases hs
    have hlocking := h.toLocking.goto (.wait n r answer) hout (fun _ => held) rfl
    apply h.update s.monitor { s.semaphore with queue := s.semaphore.queue ++ [t] }
      ⟨hlocking.sound, hlocking.fits, hlocking.wanted⟩
    · intro call hcall
      rw [htask]
      exact hcall
    · intro k hk
      rw [htask]
      exact hk
    · nofun
    · rw [waiters_update rfl (by rw [htask])]
      exact h.permits
    · intro u hu
      rw [hempty, List.nil_append, List.mem_singleton] at hu
      subst hu
      rw [hempty, task_self]
      refine ⟨rfl, nofun, ?_⟩
      intro hquiet
      rw [hquiet, hvalue] at hpermits
      cases hpermits
    · exact next_update rfl (fun _ _ => rfl) hwants fun _ => rfl
  · rw [Semaphore.P_of_ne_zero hvalue] at hs
    cases hs
    have hquiet : s.scheduled = [] := List.eq_nil_of_length_eq_zero (by omega)
    have hlocking := h.toLocking.goto (.waited n r answer) hout (fun _ => held) rfl
    apply h.update s.monitor { s.semaphore with value := s.semaphore.value - 1 }
      ⟨hlocking.sound, hlocking.fits, hlocking.wanted⟩
    · intro call hcall
      rw [htask]
      exact hcall
    · nofun
    · intro k hk
      cases hk
      have hnumbered := h.numbered
      rw [hquiet, List.append_nil] at hnumbered
      rw [hnumbered, List.mem_range]
      omega
    · rw [hquiet, List.length_nil] at hpermits
      rw [waiters_of_held (t := t), hquiet]
      · show s.semaphore.value - 1 + 0 =
          ((s.goto t (.waited n r answer)).task t).waitsFor.toList.length
        rw [task_self]
        show s.semaphore.value - 1 + 0 = 0
        omega
      · exact held
    · intro u hu
      rw [show s.semaphore.queue = [] from hempty] at hu
      cases hu
    · exact next_update rfl (fun _ _ => rfl) hwants fun _ => rfl

/-- The interrupt for the request that has been made. -/
theorem Inv.interrupt (h : Inv device ready valid init s) {n : ℕ} (hn : n ∈ s.scheduled) :
    Inv device ready valid init (s.interrupt device n) := by
  have hone : s.waiters ≤ 1 := by
    unfold State.waiters
    cases s.monitor.lock.lockHolder with
    | none => exact Nat.zero_le _
    | some t => cases htask : s.task t <;> simp [htask, Task.waitsFor]
  have hpermits := h.permits
  have hpos := List.length_pos_of_mem hn
  obtain ⟨k, hk⟩ := List.length_eq_one_iff.mp (show s.scheduled.length = 1 by omega)
  rw [hk, List.mem_singleton] at hn
  subst hn
  have herase : s.scheduled.erase n = [] := by simp [hk]
  have hsettled : (s.interrupt device n).settled device = s.settled device := by
    unfold State.settled State.interrupt
    simp [hk]
  have hqueue : s.semaphore.queue.tail = [] := by
    cases hq : s.semaphore.queue with
    | nil => rfl
    | cons u queue =>
      have hu := (h.queue u (hq ▸ List.mem_cons_self)).1
      rw [hq] at hu
      cases hu
      rfl
  refine ⟨⟨h.sound, h.fits, h.wanted⟩, h.running, ?_, ?_, ?_, h.allValid, h.made, h.latest,
    ?_, ?_, ?_, h.order⟩
  · rw [hsettled]
    exact h.ready
  · rw [hsettled]
    exact h.serves
  · show s.served ++ [n] ++ s.scheduled.erase n = _
    rw [herase, List.append_nil, ← hk]
    exact h.numbered
  · intro t k hc
    exact List.mem_append_left _ (h.completed t k hc)
  · show s.semaphore.value + 1 + (s.scheduled.erase n).length = s.waiters
    rw [herase, List.length_nil]
    omega
  · intro u hu
    rw [show (s.interrupt device n).semaphore.queue = [] from hqueue] at hu
    cases hu

/-- The end of the routine. -/
theorem Inv.leave (h : Inv device ready valid init s) {n : ℕ} {r : ρ} {answer : α}
    (hout : s.monitor.pc t = .outside) (htask : s.task t = .release n r answer) :
    Inv device ready valid init (s.goto t .idle) := by
  have hlocking := h.toLocking.goto .idle hout nofun rfl
  apply h.update s.monitor s.semaphore
    ⟨hlocking.sound, hlocking.fits, hlocking.wanted⟩ nofun nofun nofun
  · rw [waiters_update rfl (by rw [htask]; rfl)]
    exact h.permits
  · intro u hu
    have hne : u ≠ t := by
      rintro rfl
      have hwaits := (h.queue u hu).2.1
      rw [htask] at hwaits
      exact hwaits rfl
    rw [task_of_ne hne]
    exact h.queue u hu
  · exact next_update rfl (fun _ _ => rfl) (by rw [htask]; rfl) fun _ => rfl

def Label.asked : Label ρ → Option ρ
  | .call _ r => some r
  | .run _ | .interrupt _ => none

/-- Requests that are asked for are valid. -/
def Asks (valid : ρ → Prop) (_ : State ρ α δ) (l : Label ρ) : Prop := ∀ r ∈ l.asked, valid r

/-- Every step keeps the invariant. -/
theorem Inv.step (hd : Reliable device ready valid) {l : Label ρ}
    (h : Inv device ready valid init s) (ha : Asks valid s l) (hs : step device s l = some s') :
    Inv device ready valid init s' := by
  unfold SynchDevice.step at hs
  rw [if_neg (by simp [h.running])] at hs
  cases l with
  | call t r =>
    dsimp only at hs
    cases htask : s.task t <;> rw [htask] at hs
    case idle =>
      apply h.call hs rfl nofun (fun hne => absurd rfl hne) _ (by rw [htask]; rfl)
        (by rw [htask]; rfl) nofun nofun
      intro r' hr
      cases hr
      exact ha r rfl
    all_goals cases hs
  | run t =>
    dsimp only at hs
    split_ifs at hs with hout
    · unfold State.advance at hs
      cases htask : s.task t <;> rw [htask] at hs <;> dsimp only at hs
      case idle => cases hs
      case acquire r =>
        cases hs
        exact h.request hd hout htask
      case wait n r answer => exact h.turn htask hs
      case waited n r answer =>
        have held := (h.held (t := t) (by rw [htask]; rfl) (by rw [htask]; rfl)).2
        apply h.call hs rfl nofun (fun _ => held) nofun (by rw [htask]; rfl) (by rw [htask]; rfl)
        · intro call hcall
          rw [htask]
          exact hcall
        · intro k hk
          apply h.completed t k
          rw [htask]
          exact hk
      case release n r answer =>
        cases hs
        exact h.leave hout htask
    · exact h.routine hout hs
  | interrupt n =>
    obtain ⟨hn, hs⟩ := Option.ite_none_right_eq_some.mp hs
    cases hs
    exact h.interrupt hn

theorem inv_start (hinit : ready init) :
    Inv device ready valid init (start init : State ρ α δ) where
  sound := ⟨⟨none, Monitor.inv_start⟩, rfl, nofun⟩
  fits := fun _ => ⟨.inr rfl, nofun⟩
  wanted := nofun
  running := rfl
  ready := hinit
  serves := .nil
  numbered := rfl
  allValid := nofun
  made := nofun
  latest := nofun
  completed := nofun
  permits := rfl
  queue := nofun
  order := rfl

theorem inv_reach (hd : Reliable device ready valid) (hinit : ready init)
    (hr : Runs.Reach (step device) (Asks valid) (start init : State ρ α δ) s) :
    Inv device ready valid init s :=
  hr.invariant (inv_start hinit) fun _ _ _ h ha hs => h.step hd ha hs

/-- Requests that have been made stay made. -/
theorem step_made {l : Label ρ} (hs : step device s l = some s') : s.made <+: s'.made := by
  unfold step at hs
  obtain ⟨-, hs⟩ := Option.ite_none_left_eq_some.mp hs
  have hcall {t : ThreadId} {routine : Routine} {task : Task ρ α}
      (hs : s.call t routine task = some s') : s.made <+: s'.made := by
    obtain ⟨m, -, rfl⟩ := Option.map_eq_some_iff.mp hs
    exact List.prefix_rfl
  cases l with
  | call t r =>
    dsimp only at hs
    split at hs
    · exact hcall hs
    · cases hs
  | run t =>
    dsimp only at hs
    split_ifs at hs
    · unfold State.advance at hs
      cases htask : s.task t <;> rw [htask] at hs <;> dsimp only at hs
      case idle => cases hs
      case acquire r =>
        cases hs
        unfold State.request
        cases device.request s.device r with
        | none => exact List.prefix_rfl
        | some result => exact List.prefix_append _ _
      case wait n r answer =>
        obtain ⟨-, hs⟩ := Option.ite_none_left_eq_some.mp hs
        cases hs
        exact List.prefix_rfl
      case waited n r answer => exact hcall hs
      case release n r answer =>
        cases hs
        exact List.prefix_rfl
    · obtain ⟨m, -, rfl⟩ := Option.map_eq_some_iff.mp hs
      exact List.prefix_rfl
  | interrupt n =>
    obtain ⟨-, hs⟩ := Option.ite_none_right_eq_some.mp hs
    cases hs
    exact List.prefix_rfl

/-- What the routines guarantee their callers. -/
structure Serialised (s : State ρ α δ) : Prop where
  /-- No assertion of the device or of the lock has failed. -/
  running : s.failed = false ∧ s.monitor.failure = none
  /-- Requests are made in the order in which the lock is obtained; only its holder may have one
  left to make. -/
  order : s.obtained = (s.made.map fun call => (call.1, call.2.1)) ++ s.next
  /-- Interrupts are invoked once for each request, in the same order. -/
  interrupts : s.served ++ s.scheduled = List.range s.made.length
  /-- A call that returns has made its request and brings what this has answered, and the
  interrupt for this request has been invoked. -/
  returns : ∀ t n r answer, s.task t = .release n r answer →
    s.made[n]? = some (t, r, answer) ∧ n ∈ s.served

theorem Inv.serialised (h : Inv device ready valid init s) : Serialised s := by
  refine ⟨⟨h.running, h.sound.2.1⟩, h.order, h.numbered, ?_⟩
  intro t n r answer htask
  exact ⟨h.made t n r answer (by rw [htask]; rfl), h.completed t n (by rw [htask]; rfl)⟩

theorem settled_of_callBack {β : Type*} {f : δ → β} (hf : ∀ d, f (device.callBack d) = f d) :
    f (s.settled device) = f s.device := by
  unfold State.settled
  split
  · rfl
  · exact hf s.device

end

end SynchDevice
end Nachos

import Nachos.Lib.List
import Nachos.Library.Runs
import Nachos.Machine.Interrupt
import Nachos.Threads.Synch

/-! How a thread gets the processor and gives it up: `threads/scheduler.cc`, `Fork`, `Begin`,
`Yield`, `Sleep` and `Finish` of `threads/thread.cc`, and the semaphores, which any number of
threads and interrupt handlers use. Each thread has its own stack of statements it still has to
execute, since a switch leaves the old one in the middle of `Run`. A step is one statement of
the thread that is running; what the threads call, and which interrupts fire, is up to the
labels. Every assertion on the way is checked. -/
namespace Nachos.Dispatch

inductive Routine where
  | Fork
  | Yield
  | P
  | V
  deriving DecidableEq

open IntStatus (IntOff IntOn)

/-- The statements a thread still has to execute, for a system with `k` semaphores. -/
inductive Frame (k : ℕ) where
  /-- `interrupt->SetLevel(now)`. -/
  | setLevel (now : IntStatus)
  /-- `OneTick`. -/
  | oneTick
  /-- `Yield`. -/
  | yield
  /-- The loop in `P`, entered with interrupts off. -/
  | P (i : Fin k) (oldLevel : IntStatus)
  /-- The loop in `Sleep`, and the call of `Run`. -/
  | sleep (finishing : Bool)
  /-- The part of `Run` after `SWITCH`. -/
  | switched
  /-- `Begin`, where a forked thread starts. -/
  | threadBegin
  /-- The end of a routine that was entered with this interrupt level. -/
  | returns (routine : Routine) (entered : IntStatus)
  deriving DecidableEq

structure State (k : ℕ) where
  currentThread : ThreadId
  readyList : List ThreadId
  toBeDestroyed : Option ThreadId
  semaphore : Fin k → Semaphore
  level : IntStatus
  stack : ThreadId → List (Frame k)
  /-- The main thread and the forked ones that have not been deleted. -/
  threads : List ThreadId
  /-- The next thread to be forked. -/
  next : ThreadId
  /-- The interrupt level at every `SWITCH` so far. -/
  switchLevels : List IntStatus
  /-- An assertion has failed. -/
  failed : Bool

inductive Call (k : ℕ) where
  | Fork
  | Yield
  | P (i : Fin k)
  | V (i : Fin k)
  | Finish
  | SetLevel (now : IntStatus)
  /-- A user instruction, after which `OneTick` is called. -/
  | userInstruction
  deriving DecidableEq

inductive Label (k : ℕ) where
  /-- The thread calls a routine. -/
  | call (c : Call k)
  /-- The thread goes on inside a routine. -/
  | run
  /-- The handlers that are due call `V` on these semaphores, one after the other; `timer` tells
  whether the timer is among them. -/
  | interrupts (handlers : List (Fin k)) (timer : Bool)
  deriving DecidableEq

variable {k : ℕ}

namespace State

def check (s : State k) (c : Prop) [Decidable c] : State k :=
  if c then s else { s with failed := true }

/-- Replace the statements of the running thread. -/
def goto (s : State k) (frames : List (Frame k)) : State k :=
  { s with stack := Function.update s.stack s.currentThread frames }

/-- `Scheduler::ReadyToRun`. -/
def readyToRun (s : State k) (t : ThreadId) : State k :=
  ((LinkedList.append s.readyList t).elim { s with failed := true } fun list =>
    { s with readyList := list }).check (s.level = IntOff)

def setSemaphore (s : State k) (i : Fin k) (semaphore : Semaphore) : State k :=
  { s with semaphore := Function.update s.semaphore i semaphore }

/-- `Semaphore::V` with interrupts off. -/
def V (s : State k) (i : Fin k) : State k :=
  let s' := s.setSemaphore i (s.semaphore i).V.2
  (s.semaphore i).V.1.elim s' s'.readyToRun

/-- The handlers of `CheckIfDue`, which asserts that interrupts are off. -/
def handle (s : State k) (handlers : List (Fin k)) : State k :=
  handlers.foldl V (s.check (s.level = IntOff))

/-- `Scheduler::CheckToBeDestroyed`, with the assertion in `~Thread`. -/
def checkToBeDestroyed (s : State k) : State k :=
  s.toBeDestroyed.elim s fun t =>
    { s.check (t ≠ s.currentThread) with threads := s.threads.erase t, toBeDestroyed := none }

/-- `Scheduler::Run`, up to `SWITCH`. -/
def runThread (s : State k) (nextThread : ThreadId) (finishing : Bool) : State k :=
  let s₁ := s.check (s.level = IntOff)
  let s₂ := if finishing then
      { s₁.check (s.toBeDestroyed = none) with toBeDestroyed := some s.currentThread }
    else s₁
  { s₂ with currentThread := nextThread, switchLevels := s.switchLevels ++ [s.level] }

/-- `SetLevel(IntOff)`, which advances no time. -/
def disable (s : State k) : State k := { s with level := IntOff }

/-- A routine is called by the running thread. -/
def enter (s : State k) : Call k → State k
  | .Fork =>
    { s with
      threads := s.threads ++ [s.next], next := s.next + 1, level := IntOff,
      stack := Function.update (Function.update s.stack s.next [.threadBegin]) s.currentThread
        [.setLevel s.level, .returns .Fork s.level] }.readyToRun s.next
  | .Yield => s.goto [.yield, .returns .Yield s.level]
  | .P i => s.disable.goto [.P i s.level, .returns .P s.level]
  | .V i => (s.disable.goto [.setLevel s.level, .returns .V s.level]).V i
  | .Finish => s.disable.goto [.sleep true]
  | .SetLevel now => s.goto [.setLevel now]
  | .userInstruction => s.goto [.oneTick]

/-- `FindNextToRun` in `Yield`, and what follows from its answer. -/
def yieldTo (s : State k) (oldLevel : IntStatus) (rest : List (Frame k)) : State k :=
  match s.readyList with
  | [] => s.goto (.setLevel oldLevel :: rest)
  | next :: list =>
    (({ s with readyList := list }.goto (.switched :: .setLevel oldLevel :: rest)).readyToRun
      s.currentThread).runThread next false

/-- One turn of the loop in `P`. -/
def turn (s : State k) (i : Fin k) (oldLevel : IntStatus) (rest : List (Frame k)) : State k :=
  if (s.semaphore i).value = 0 then
    (LinkedList.append (s.semaphore i).queue s.currentThread).elim { s with failed := true }
      fun queue => (s.setSemaphore i { s.semaphore i with queue := queue }).goto
        (.sleep false :: .P i oldLevel :: rest)
  else
    (s.setSemaphore i { s.semaphore i with value := (s.semaphore i).value - 1 }).goto
      (.setLevel oldLevel :: rest)

/-- The end of the loop in `Sleep`: somebody is ready. -/
def sleepTo (s : State k) (finishing : Bool) (next : ThreadId) (list : List ThreadId)
    (rest : List (Frame k)) : State k :=
  ({ s with readyList := list }.goto (.switched :: rest)).runThread next finishing

end State

def step (s : State k) (l : Label k) : Option (State k) :=
  if s.failed then none
  else match s.stack s.currentThread, l with
    | [], .call .userInstruction =>
      if s.level = IntOn then some (s.enter .userInstruction) else none
    | [], .call c => some (s.enter c)
    | .setLevel now :: rest, .run => some ({ s with level := now }.goto
        (if s.level = IntOff ∧ now = IntOn then .oneTick :: rest else rest))
    | .oneTick :: rest, .interrupts handlers timer =>
      some ({ s.disable.handle handlers with level := IntOn }.goto
        (if timer then .yield :: rest else rest))
    | .yield :: rest, .run => some (s.disable.yieldTo s.level rest)
    | .P i oldLevel :: rest, .run => some (s.turn i oldLevel rest)
    | .sleep finishing :: rest, .run =>
      match s.readyList with
      | [] => none
      | next :: list => some ((s.check (s.level = IntOff)).sleepTo finishing next list rest)
    | .sleep _ :: _, .interrupts handlers _ =>
      if s.readyList = [] then some (s.handle handlers) else none
    | .switched :: rest, .run =>
      some ((s.check (s.level = IntOff)).checkToBeDestroyed.goto rest)
    | .threadBegin :: rest, .run => some (s.checkToBeDestroyed.goto (.setLevel IntOn :: rest))
    | .returns _ _ :: rest, .run => some (s.goto rest)
    | _, _ => none

/-- The main thread is running, and nobody else. -/
def start (semaphore : Fin k → ℕ) (level : IntStatus) : State k where
  currentThread := 0
  readyList := []
  toBeDestroyed := none
  semaphore i := Semaphore.new (semaphore i)
  level := level
  stack _ := []
  threads := [0]
  next := 1
  switchLevels := []
  failed := false

/-- How often a thread is on the ready list or on a semaphore queue. -/
def State.queued (s : State k) (t : ThreadId) : ℕ :=
  s.readyList.count t + ∑ i, (s.semaphore i).queue.count t

/-- In how many places a thread is. -/
def State.places (s : State k) (t : ThreadId) : ℕ :=
  (if s.currentThread = t then 1 else 0) + s.queued t + if s.toBeDestroyed = some t then 1 else 0

/-- The interrupt level runs through the statements of a thread as its routines expect. -/
def Typed : IntStatus → List (Frame k) → Prop
  | _, [] => True
  | _, .setLevel now :: rest => Typed now rest
  | level, .oneTick :: rest => level = IntOn ∧ Typed IntOn rest
  | level, .yield :: rest => Typed level rest
  | level, .P _ oldLevel :: rest => level = IntOff ∧ Typed oldLevel rest
  | level, .sleep finishing :: rest => level = IntOff ∧ (finishing = false → Typed IntOff rest)
  | level, .switched :: rest => level = IntOff ∧ Typed IntOff rest
  | level, .threadBegin :: rest => level = IntOff ∧ Typed IntOn rest
  | level, .returns _ entered :: rest => level = entered ∧ Typed entered rest

/-- Statements that are only ever the next one of a thread. -/
def Frame.first : Frame k → Bool
  | .sleep _ | .switched | .threadBegin => true
  | _ => false

/-- The thread has just got the processor, or gets it next. -/
def Suspended : List (Frame k) → Prop
  | .switched :: _ | .threadBegin :: _ => True
  | _ => False

/-- The thread sleeps in `P` and still runs, for want of another. -/
def Asleep : List (Frame k) → Prop
  | .sleep false :: _ => True
  | _ => False

instance (frames : List (Frame k)) : Decidable (Asleep frames) :=
  match frames with
  | .sleep false :: _ => isTrue trivial
  | [] | .setLevel _ :: _ | .oneTick :: _ | .yield :: _ | .P _ _ :: _ | .sleep true :: _
  | .switched :: _ | .threadBegin :: _ | .returns _ _ :: _ => isFalse nofun

def Plain (frames : List (Frame k)) : Prop := ∀ f ∈ frames, f.first = false

/-- The statements of a thread that go on at this level. -/
structure WellFormed (level : IntStatus) (frames : List (Frame k)) : Prop where
  typed : Typed level frames
  plain : Plain frames.tail

/-- The places of a thread between two statements: one that sleeps in `P` is not counted as
running while it waits for somebody to be ready. -/
def State.occupied (s : State k) (t : ThreadId) : ℕ :=
  s.queued t + (if s.toBeDestroyed = some t then 1 else 0) +
    if t = s.currentThread ∧ ¬ Asleep (s.stack s.currentThread) then 1 else 0

structure Inv (s : State k) : Prop where
  running : s.failed = false
  current : s.currentThread ∈ s.threads
  nodup : s.threads.Nodup
  fresh : ∀ t ∈ s.threads, t < s.next
  occupied : ∀ t, s.occupied t = if t ∈ s.threads then 1 else 0
  wellFormed : WellFormed s.level (s.stack s.currentThread)
  others : ∀ t ∈ s.threads, t ≠ s.currentThread → s.toBeDestroyed ≠ some t →
    Suspended (s.stack t) ∧ WellFormed IntOff (s.stack t)
  destroy : s.toBeDestroyed ≠ none → Suspended (s.stack s.currentThread)
  switches : ∀ level ∈ s.switchLevels, level = IntOff

section

variable {s s' : State k} {t : ThreadId} {i : Fin k}

theorem check_of {c : Prop} [Decidable c] (h : c) : s.check c = s := if_pos h

theorem not_asleep_of_plain {frames : List (Frame k)} (h : Plain frames) : ¬ Asleep frames := by
  intro ha
  cases frames with
  | nil => exact ha
  | cons f rest =>
    have hf := h f List.mem_cons_self
    cases f <;> first | exact ha | cases hf

/-- The queues after one of them has changed. -/
theorem sum_setSemaphore (s : State k) (i : Fin k) (sem : Semaphore) (t : ThreadId) :
    (∑ j, ((s.setSemaphore i sem).semaphore j).queue.count t) + (s.semaphore i).queue.count t =
      (∑ j, (s.semaphore j).queue.count t) + sem.queue.count t := by
  have hupdate (j : Fin k) : ((s.setSemaphore i sem).semaphore j).queue.count t =
      Function.update (fun j => (s.semaphore j).queue.count t) i (sem.queue.count t) j := by
    by_cases hj : j = i
    · subst hj
      simp [State.setSemaphore]
    · simp [State.setSemaphore, hj]
  have hi := Finset.mem_univ i
  rw [Finset.sum_congr rfl fun j _ => hupdate j, Finset.sum_update_of_mem hi,
    ← Finset.add_sum_erase _ _ hi, Finset.sdiff_singleton_eq_erase]
  ring

/-- What a step of a handler, or of `V`, may do: threads move from a semaphore queue to the
ready list. -/
structure Quiet (s s' : State k) : Prop where
  currentThread : s'.currentThread = s.currentThread
  toBeDestroyed : s'.toBeDestroyed = s.toBeDestroyed
  level : s'.level = s.level
  stack : s'.stack = s.stack
  threads : s'.threads = s.threads
  next : s'.next = s.next
  switchLevels : s'.switchLevels = s.switchLevels
  failed : s'.failed = s.failed
  queued : ∀ t, s'.queued t = s.queued t

theorem Quiet.refl (s : State k) : Quiet s s :=
  ⟨rfl, rfl, rfl, rfl, rfl, rfl, rfl, rfl, fun _ => rfl⟩

theorem Quiet.trans {s'' : State k} (h : Quiet s s') (h' : Quiet s' s'') : Quiet s s'' :=
  ⟨h'.1.trans h.1, h'.2.trans h.2, h'.3.trans h.3, h'.4.trans h.4, h'.5.trans h.5, h'.6.trans h.6,
    h'.7.trans h.7, h'.8.trans h.8, fun t => (h'.9 t).trans (h.9 t)⟩

theorem readyToRun_eq (hlevel : s.level = IntOff) (ht : t ∉ s.readyList) :
    s.readyToRun t = { s with readyList := s.readyList ++ [t] } := by
  unfold State.readyToRun
  rw [LinkedList.append_eq_some ht]
  exact if_pos hlevel

theorem V_quiet (hlevel : s.level = IntOff) (hq : ∀ t, s.queued t ≤ 1) : Quiet s (s.V i) := by
  cases hqueue : (s.semaphore i).queue with
  | nil =>
    have hsum := sum_setSemaphore s i ⟨(s.semaphore i).value + 1, []⟩
    have heq : s.V i = s.setSemaphore i ⟨(s.semaphore i).value + 1, []⟩ := by
      simp [State.V, Semaphore.V, hqueue]
    rw [heq]
    refine ⟨rfl, rfl, rfl, rfl, rfl, rfl, rfl, rfl, ?_⟩
    intro t
    have ht := hsum t
    rw [hqueue] at ht
    exact congrArg (s.readyList.count t + ·) (Nat.add_right_cancel ht)
  | cons u queue =>
    have hsum := sum_setSemaphore s i ⟨(s.semaphore i).value + 1, queue⟩
    rw [hqueue] at hsum
    -- the thread was in the queue, so it is nowhere else
    have hu : u ∉ (s.setSemaphore i ⟨(s.semaphore i).value + 1, queue⟩).readyList := by
      apply List.count_eq_zero.mp
      have h₁ := hsum u
      have h₂ := hq u
      rw [List.count_cons_self] at h₁
      unfold State.queued at h₂
      show s.readyList.count u = 0
      dsimp only at h₁
      omega
    have heq : s.V i = { s.setSemaphore i ⟨(s.semaphore i).value + 1, queue⟩ with
        readyList := s.readyList ++ [u] } := by
      have hV : (s.semaphore i).V = (some u, ⟨(s.semaphore i).value + 1, queue⟩) := by
        simp [Semaphore.V, hqueue]
      unfold State.V
      rw [hV]
      exact readyToRun_eq hlevel hu
    rw [heq]
    refine ⟨rfl, rfl, rfl, rfl, rfl, rfl, rfl, rfl, ?_⟩
    intro t
    have ht := hsum t
    show (s.readyList ++ [u]).count t + (∑ j, ((s.setSemaphore i
      ⟨(s.semaphore i).value + 1, queue⟩).semaphore j).queue.count t) = s.queued t
    rw [List.count_cons] at ht
    rw [List.count_append, List.count_singleton]
    unfold State.queued
    dsimp only at ht
    omega

theorem handle_quiet (handlers : List (Fin k)) (hlevel : s.level = IntOff)
    (hq : ∀ t, s.queued t ≤ 1) : Quiet s (s.handle handlers) := by
  unfold State.handle
  rw [check_of hlevel]
  induction handlers generalizing s with
  | nil => exact .refl s
  | cons i handlers ih =>
    have hV := V_quiet (i := i) hlevel hq
    refine hV.trans (ih (hV.level.trans hlevel) ?_)
    intro t
    rw [hV.queued]
    exact hq t

end

end Nachos.Dispatch

import Nachos.Machine.Alarm
import Nachos.Threads.DispatchInvariants

/-! The clock and the scheduler together: simulated time passes in `OneTick` and in `Idle`, and the
alarm makes the running thread yield. The interrupt level is that of the threads. -/
namespace Nachos.TimeSlicing

open Dispatch (Call Frame)
open Interrupt (Devices Request Ticking Timer SystemTick handlers)

structure System (k : ℕ) where
  clock : Interrupt.State
  threads : Dispatch.State k

inductive Event (k : ℕ) where
  | call (c : Call k)
  | run
  /-- `OneTick` is called, or `Idle`; the handlers that are due call `V` on these semaphores. -/
  | interrupts (semaphores : List (Fin k))
  | schedule (request : Request)
  | setStatus (status : MachineStatus)

variable {k : ℕ}

def step (timer : Timer) (devices : Devices) (s : System k) : Event k → Option (System k)
  | .call c => (Dispatch.step s.threads (.call c)).map (⟨s.clock, ·⟩)
  | .run => (Dispatch.step s.threads .run).map (⟨s.clock, ·⟩)
  | .interrupts semaphores =>
    let clock := { s.clock with level := s.threads.level }
    match s.threads.stack s.threads.currentThread with
    | .sleep _ :: _ =>
      (clock.idle (handlers timer devices)).bind fun clock' =>
        (Dispatch.step s.threads (.interrupts semaphores false)).map (⟨clock', ·⟩)
    | _ =>
      (clock.oneTick (handlers timer devices)).bind fun clock' =>
        (Dispatch.step s.threads (.interrupts semaphores
          (clock.yields (handlers timer devices)))).map (⟨clock', ·⟩)
  | .schedule request => some ⟨s.clock.schedule request, s.threads⟩
  | .setStatus status => some ⟨{ s.clock with status := status }, s.threads⟩

/-- Only the timer schedules timer interrupts, and only `Idle` sets the machine idle. -/
def Event.Ordinary : Event k → Prop
  | .schedule request => request.type ≠ .TimerInt
  | .setStatus status => status ≠ .IdleMode
  | .call _ | .run | .interrupts _ => True

instance : (e : Event k) → Decidable e.Ordinary
  | .schedule request => inferInstanceAs (Decidable (request.type ≠ .TimerInt))
  | .setStatus status => inferInstanceAs (Decidable (status ≠ .IdleMode))
  | .call _ | .run | .interrupts _ => inferInstanceAs (Decidable True)

/-- An ordinary step while simulated time stays below `2 ^ 31`. -/
def Timely (timer : Timer) (devices : Devices) (s : System k) (e : Event k) : Prop :=
  e.Ordinary ∧ ∀ s' ∈ step timer devices s e, s'.clock.InTime

instance (timer : Timer) (devices : Devices) (s : System k) (e : Event k) :
    Decidable (Timely timer devices s e) := inferInstanceAs (Decidable (_ ∧ _))

/-- `Kernel::Initialize`, before it turns interrupts on. -/
def booted (timer : Timer) (semaphore : Fin k → ℕ) : System k :=
  ⟨Interrupt.armed timer, Dispatch.start semaphore .IntOff⟩

/-- From the start of a slice to the next forced `Yield`, at most. -/
def slice (timer : Timer) : ℕ := timer.longest + SystemTick - 1

section

variable {t : ThreadId} {s s' : Dispatch.State k}

/-- The running thread goes on, and threads join the end of the ready list. -/
structure Joined (s s' : Dispatch.State k) : Prop where
  ready : ∃ woken, s'.readyList = s.readyList ++ woken
  currentThread : s'.currentThread = s.currentThread

theorem joined_of_eq (hready : s'.readyList = s.readyList)
    (hcurrent : s'.currentThread = s.currentThread) : Joined s s' :=
  ⟨⟨[], hready.trans (List.append_nil _).symm⟩, hcurrent⟩

theorem Joined.refl (s : Dispatch.State k) : Joined s s := joined_of_eq rfl rfl

theorem Joined.trans {s'' : Dispatch.State k} (h : Joined s s') (h' : Joined s' s'') :
    Joined s s'' := by
  obtain ⟨woken, hready⟩ := h.ready
  obtain ⟨woken', hready'⟩ := h'.ready
  refine ⟨⟨woken ++ woken', ?_⟩, h'.currentThread.trans h.currentThread⟩
  rw [hready', hready, List.append_assoc]

theorem joined_check (s : Dispatch.State k) (c : Prop) [Decidable c] : Joined s (s.check c) := by
  unfold Dispatch.State.check
  split_ifs
  · exact .refl s
  · exact joined_of_eq rfl rfl

theorem joined_readyToRun (s : Dispatch.State k) (t : ThreadId) : Joined s (s.readyToRun t) := by
  unfold Dispatch.State.readyToRun
  refine Joined.trans ?_ (joined_check ..)
  by_cases ht : t ∈ s.readyList
  · have hnone : LinkedList.append s.readyList t = none := if_pos ht
    rw [hnone]
    exact joined_of_eq rfl rfl
  · rw [LinkedList.append_eq_some ht]
    exact ⟨⟨[t], rfl⟩, rfl⟩

theorem joined_V (s : Dispatch.State k) (i : Fin k) : Joined s (s.V i) := by
  have hset : Joined s (s.setSemaphore i (s.semaphore i).V.2) :=
    joined_of_eq rfl rfl
  unfold Dispatch.State.V
  cases (s.semaphore i).V.1 with
  | none => exact hset
  | some u => exact hset.trans (joined_readyToRun ..)

theorem joined_handle (s : Dispatch.State k) (semaphores : List (Fin k)) :
    Joined s (s.handle semaphores) := by
  have hall (u : Dispatch.State k) : Joined u (semaphores.foldl Dispatch.State.V u) := by
    induction semaphores generalizing u with
    | nil => exact .refl u
    | cons i semaphores ih => exact (joined_V u i).trans (ih _)
  exact (joined_check s _).trans (hall _)

theorem joined_checkToBeDestroyed (s : Dispatch.State k) : Joined s s.checkToBeDestroyed := by
  unfold Dispatch.State.checkToBeDestroyed
  cases s.toBeDestroyed with
  | none => exact .refl s
  | some u => exact ⟨(joined_check s _).ready, (joined_check s _).currentThread⟩

/-- The head of the ready list gets the processor. -/
structure Dispatched (s s' : Dispatch.State k) : Prop where
  ready : ∃ list woken, s.readyList = s'.currentThread :: list ∧ s'.readyList = list ++ woken

theorem joined_enter (s : Dispatch.State k) (c : Call k) : Joined s (s.enter c) := by
  cases c with
  | Fork => exact ⟨(joined_readyToRun _ _).ready, (joined_readyToRun _ _).currentThread⟩
  | V i => exact ⟨(joined_V _ i).ready, (joined_V _ i).currentThread⟩
  | Yield | P i | Finish | SetLevel now | userInstruction =>
    exact joined_of_eq rfl rfl

theorem runThread_ready (s : Dispatch.State k) (next : ThreadId) (finishing : Bool) :
    (s.runThread next finishing).readyList = s.readyList ∧
      (s.runThread next finishing).currentThread = next := by
  unfold Dispatch.State.runThread Dispatch.State.check
  split_ifs <;> exact ⟨rfl, rfl⟩

/-- `Yield` gives the processor away whenever somebody is ready. -/
theorem yieldTo_dispatched {oldLevel : IntStatus} {rest : List (Frame k)}
    (hready : s.readyList ≠ []) : Dispatched s (s.disable.yieldTo oldLevel rest) := by
  obtain ⟨next, list, hlist⟩ := List.exists_cons_of_ne_nil hready
  have heq : s.disable.yieldTo oldLevel rest = (({ s.disable with readyList := list }.goto
      (.switched :: .setLevel oldLevel :: rest)).readyToRun s.currentThread).runThread next
        false := by
    unfold Dispatch.State.yieldTo
    rw [show s.disable.readyList = next :: list from hlist]
    rfl
  obtain ⟨hsame, hcurrent⟩ := runThread_ready (({ s.disable with readyList := list }.goto
    (.switched :: .setLevel oldLevel :: rest)).readyToRun s.currentThread) next false
  obtain ⟨woken, hwoken⟩ := (joined_readyToRun ({ s.disable with readyList := list }.goto
    (.switched :: .setLevel oldLevel :: rest)) s.currentThread).ready
  rw [heq]
  refine ⟨list, woken, ?_, ?_⟩
  · rw [hlist, hcurrent]
  · rw [hsame, hwoken]
    rfl

/-- A statement either leaves the ready list in order or takes the head of it. -/
theorem step_ready {l : Dispatch.Label k} (hs : Dispatch.step s l = some s') :
    Joined s s' ∨ Dispatched s s' := by
  unfold Dispatch.step at hs
  obtain ⟨-, hs⟩ := Option.ite_none_left_eq_some.mp hs
  cases hstack : s.stack s.currentThread with
  | nil =>
    rw [hstack] at hs
    cases l with
    | call c =>
      have hs' : s.enter c = s' := by
        cases c with
        | userInstruction => exact Option.some.inj (Option.ite_none_right_eq_some.mp hs).2
        | _ => exact Option.some.inj hs
      exact .inl (hs' ▸ joined_enter s c)
    | _ => cases hs
  | cons f rest =>
    rw [hstack] at hs
    cases f with
    | setLevel now =>
      cases l <;> cases hs
      exact .inl (joined_of_eq rfl rfl)
    | oneTick =>
      cases l with
      | interrupts semaphores timer =>
        cases hs
        have hhandle := joined_handle s.disable semaphores
        exact .inl ⟨hhandle.ready, hhandle.currentThread⟩
      | _ => cases hs
    | yield =>
      cases l <;> cases hs
      by_cases hready : s.readyList = []
      · refine .inl ?_
        unfold Dispatch.State.yieldTo
        rw [show s.disable.readyList = [] from hready]
        exact joined_of_eq rfl rfl
      · exact .inr (yieldTo_dispatched hready)
    | P i oldLevel =>
      cases l <;> cases hs
      refine .inl ?_
      unfold Dispatch.State.turn
      split_ifs
      · cases LinkedList.append (s.semaphore i).queue s.currentThread with
        | none => exact joined_of_eq rfl rfl
        | some queue => exact joined_of_eq rfl rfl
      · exact joined_of_eq rfl rfl
    | sleep finishing =>
      cases l with
      | run =>
        cases hready : s.readyList with
        | nil =>
          rw [hready] at hs
          cases hs
        | cons next list =>
          rw [hready] at hs
          cases hs
          obtain ⟨hlist, hcurrent⟩ := runThread_ready ({ s.check (s.level = IntStatus.IntOff) with
            readyList := list }.goto (.switched :: rest)) next finishing
          refine .inr ⟨list, [], ?_, ?_⟩
          · rw [hready, Dispatch.State.sleepTo, hcurrent]
          · rw [Dispatch.State.sleepTo, hlist, List.append_nil]
            rfl
      | interrupts semaphores timer =>
        obtain ⟨-, he⟩ := Option.ite_none_right_eq_some.mp hs
        cases he
        exact .inl (joined_handle s semaphores)
      | call c => cases hs
    | switched =>
      cases l <;> cases hs
      have hall := (joined_check s (s.level = IntStatus.IntOff)).trans (joined_checkToBeDestroyed _)
      exact .inl ⟨hall.ready, hall.currentThread⟩
    | threadBegin =>
      cases l <;> cases hs
      have hall := joined_checkToBeDestroyed s
      exact .inl ⟨hall.ready, hall.currentThread⟩
    | returns routine entered =>
      cases l <;> cases hs
      exact .inl (joined_of_eq rfl rfl)

/-- While somebody is ready, interrupts come with `OneTick`. -/
theorem stack_of_interrupts {semaphores : List (Fin k)} {timer : Bool}
    (hs : Dispatch.step s (.interrupts semaphores timer) = some s') (hready : s.readyList ≠ []) :
    ∃ rest, s.stack s.currentThread = .oneTick :: rest := by
  unfold Dispatch.step at hs
  obtain ⟨-, hs⟩ := Option.ite_none_left_eq_some.mp hs
  cases hstack : s.stack s.currentThread with
  | nil =>
    rw [hstack] at hs
    cases hs
  | cons f rest =>
    rw [hstack] at hs
    cases f with
    | oneTick => exact ⟨rest, rfl⟩
    | sleep finishing => exact absurd (Option.ite_none_right_eq_some.mp hs).1 hready
    | _ => cases hs

/-- The running thread is about to yield. -/
def Yielding (s : Dispatch.State k) : Prop := ∃ rest, s.stack s.currentThread = .yield :: rest

end

section

variable {timer : Timer} {devices : Devices} {t : ThreadId} {limit i : ℕ}
  {p : Interrupt.PendingInterrupt} {s s' : System k}

/-- Thread `t` is ready, `i` others are ahead of it, and at most one slice goes to each of them
before the clock passes `limit`. -/
structure Waiting (timer : Timer) (t : ThreadId) (limit : ℕ) (s : System k) (i : ℕ)
    (p : Interrupt.PendingInterrupt) : Prop where
  ready : s.threads.readyList[i]? = some t
  ticking : Ticking timer s.clock p
  inTime : p.when + (SystemTick - 1) + i * slice timer ≤ limit ∨
    Yielding s.threads ∧ s.clock.stats.totalTicks + i * slice timer ≤ limit

/-- The step takes the thread from the head of the ready list and gives it the processor. -/
structure Takes (t : ThreadId) (s s' : System k) : Prop where
  head : s.threads.readyList.head? = some t
  currentThread : s'.threads.currentThread = t
  clock : s'.clock = s.clock

theorem Waiting.ne_nil (h : Waiting timer t limit s i p) : s.threads.readyList ≠ [] := by
  intro hnil
  have hready := h.ready
  rw [hnil] at hready
  cases hready

/-- The next thread gets the processor, whether or not its predecessor used its slice. -/
theorem Waiting.dispatched (h : Waiting timer t limit s i p) {threads : Dispatch.State k}
    (hd : Dispatched s.threads threads) :
    Takes t s ⟨s.clock, threads⟩ ∨ ∃ i', Waiting timer t limit ⟨s.clock, threads⟩ i' p := by
  obtain ⟨list, woken, hlist, hlist'⟩ := hd.ready
  have hready := h.ready
  rw [hlist] at hready
  cases i with
  | zero =>
    have ht : threads.currentThread = t := Option.some.inj hready
    refine .inl ⟨?_, ht, rfl⟩
    rw [hlist, ht]
    rfl
  | succ i =>
    rw [List.getElem?_cons_succ] at hready
    refine .inr ⟨i, ?_, h.ticking, .inl ?_⟩
    · show threads.readyList[i]? = some t
      rw [hlist', List.getElem?_append_left (List.getElem?_eq_some_iff.mp hready).1]
      exact hready
    · have hsoon := h.ticking.soon
      have hslice : slice timer = timer.longest + (SystemTick - 1) := rfl
      rcases h.inTime with hin | ⟨-, hin⟩
      · rw [Nat.succ_mul] at hin
        omega
      · rw [Nat.succ_mul] at hin
        omega

theorem Waiting.joined (h : Waiting timer t limit s i p) {threads : Dispatch.State k}
    (hj : Joined s.threads threads) : threads.readyList[i]? = some t := by
  obtain ⟨woken, hwoken⟩ := hj.ready
  have hready := h.ready
  rw [hwoken, List.getElem?_append_left (List.getElem?_eq_some_iff.mp hready).1]
  exact hready

/-- The running thread executes a statement that takes no time. -/
theorem Waiting.statement (h : Waiting timer t limit s i p) {l : Dispatch.Label k}
    {threads : Dispatch.State k} (hl : l = .run ∨ ∃ c, l = .call c)
    (hs : Dispatch.step s.threads l = some threads) :
    Takes t s ⟨s.clock, threads⟩ ∨ ∃ i', Waiting timer t limit ⟨s.clock, threads⟩ i' p := by
  rcases h.inTime with hin | ⟨⟨rest, hyield⟩, -⟩
  · rcases step_ready hs with hj | hd
    · exact .inr ⟨i, h.joined hj, h.ticking, .inl hin⟩
    · exact h.dispatched hd
  · -- the only statement is `Yield`, and somebody is ready
    refine h.dispatched ?_
    unfold Dispatch.step at hs
    obtain ⟨-, hs⟩ := Option.ite_none_left_eq_some.mp hs
    rw [hyield] at hs
    rcases hl with rfl | ⟨c, rfl⟩
    · cases hs
      exact yieldTo_dispatched h.ne_nil
    · cases hs

/-- Time passes, and the running thread may be made to yield. -/
theorem Waiting.oneTick (h : Waiting timer t limit s i p) {semaphores : List (Fin k)}
    {rest : List (Frame k)} (hstack : s.threads.stack s.threads.currentThread = .oneTick :: rest)
    (hs : step timer devices s (.interrupts semaphores) = some s') :
    ∃ p', Waiting timer t limit s' i p' := by
  obtain ⟨clock, p', htick, hticking, hslice, -, hfired⟩ :=
    (h.ticking.setLevel s.threads.level).oneTick devices
  rw [step, hstack] at hs
  dsimp only at hs
  rw [htick, Option.bind_some] at hs
  obtain ⟨threads, hthreads, rfl⟩ := Option.map_eq_some_iff.mp hs
  unfold Dispatch.step at hthreads
  obtain ⟨-, hthreads⟩ := Option.ite_none_left_eq_some.mp hthreads
  rw [hstack] at hthreads
  have hthreads := Option.some.inj hthreads
  have hj : Joined s.threads threads := by
    have hhandle := joined_handle s.threads.disable semaphores
    rw [← hthreads]
    exact ⟨hhandle.ready, hhandle.currentThread⟩
  have hin : p.when + (SystemTick - 1) + i * slice timer ≤ limit := by
    rcases h.inTime with hin | ⟨⟨rest', hyield⟩, -⟩
    · exact hin
    · cases hstack.symm.trans hyield
  refine ⟨p', h.joined hj, hticking, ?_⟩
  cases hslice with
  | goesOn fired => exact .inl hin
  | ends due prompt setAt fired =>
    have htimer : ({ s.clock with level := s.threads.level } : Interrupt.State).yields
        (handlers timer devices) = true := by
      have hone : (({ s.clock with level := s.threads.level } : Interrupt.State).yields
          (handlers timer devices)).toNat = 1 := Nat.add_left_cancel (hfired.symm.trans fired)
      exact Bool.toNat_eq_one.mp hone
    refine .inr ⟨⟨rest, ?_⟩, ?_⟩
    · rw [← hthreads, if_pos htimer]
      exact Function.update_self ..
    · have hprompt : clock.stats.totalTicks ≤ p.when + (SystemTick - 1) :=
        Nat.le_sub_one_of_lt prompt
      exact (Nat.add_le_add_right hprompt _).trans hin

theorem interrupts_threads {semaphores : List (Fin k)}
    (hs : step timer devices s (.interrupts semaphores) = some s') : ∃ timer threads,
    Dispatch.step s.threads (.interrupts semaphores timer) = some threads := by
  unfold step at hs
  dsimp only at hs
  split at hs
  · obtain ⟨clock, -, hs⟩ := Option.bind_eq_some_iff.mp hs
    obtain ⟨threads, hthreads, -⟩ := Option.map_eq_some_iff.mp hs
    exact ⟨_, threads, hthreads⟩
  · obtain ⟨clock, -, hs⟩ := Option.bind_eq_some_iff.mp hs
    obtain ⟨threads, hthreads, -⟩ := Option.map_eq_some_iff.mp hs
    exact ⟨_, threads, hthreads⟩

theorem Waiting.step (h : Waiting timer t limit s i p) {e : Event k} (he : e.Ordinary)
    (hs : TimeSlicing.step timer devices s e = some s') :
    Takes t s s' ∨ ∃ i' p', Waiting timer t limit s' i' p' := by
  cases e with
  | call c =>
    obtain ⟨threads, hthreads, rfl⟩ := Option.map_eq_some_iff.mp hs
    rcases h.statement (.inr ⟨c, rfl⟩) hthreads with hd | ⟨i', hi'⟩
    · exact .inl hd
    · exact .inr ⟨i', p, hi'⟩
  | run =>
    obtain ⟨threads, hthreads, rfl⟩ := Option.map_eq_some_iff.mp hs
    rcases h.statement (.inl rfl) hthreads with hd | ⟨i', hi'⟩
    · exact .inl hd
    · exact .inr ⟨i', p, hi'⟩
  | schedule request =>
    cases hs
    obtain ⟨hticking, -, hstats⟩ := h.ticking.schedule he
    refine .inr ⟨i, p, h.ready, hticking, ?_⟩
    rw [hstats]
    exact h.inTime
  | setStatus status =>
    cases hs
    exact .inr ⟨i, p, h.ready, h.ticking.setStatus he, h.inTime⟩
  | interrupts semaphores =>
    obtain ⟨timer, threads, hthreads⟩ := interrupts_threads hs
    obtain ⟨rest, hstack⟩ := stack_of_interrupts hthreads h.ne_nil
    exact .inr ⟨i, h.oneTick hstack hs⟩

theorem Waiting.clock_le (h : Waiting timer t limit s i p) :
    s.clock.stats.totalTicks ≤ limit := by
  have hlate := h.ticking.late
  rcases h.inTime with hin | ⟨-, hin⟩
  · omega
  · omega

theorem Waiting.run (h : Waiting timer t limit s i p) {events : List (Event k)}
    (hordinary : ∀ e ∈ events, e.Ordinary)
    (hrun : Runs.exec (TimeSlicing.step timer devices) s events = some s') :
    (∃ before e after u u', events = before ++ e :: after ∧
      Runs.exec (TimeSlicing.step timer devices) s before = some u ∧
      TimeSlicing.step timer devices u e = some u' ∧ Takes t u u' ∧
      u'.clock.stats.totalTicks ≤ limit) ∨
    ∃ i' p', Waiting timer t limit s' i' p' := by
  induction events generalizing s i p with
  | nil =>
    cases hrun
    exact .inr ⟨i, p, h⟩
  | cons e events ih =>
    obtain ⟨u, hs, hrest⟩ := Option.bind_eq_some_iff.mp hrun
    rcases h.step (hordinary e List.mem_cons_self) hs with htakes | ⟨i', p', h'⟩
    · refine .inl ⟨[], e, events, s, u, rfl, rfl, hs, htakes, ?_⟩
      rw [htakes.clock]
      exact h.clock_le
    · rcases ih h' (fun e he => hordinary e (List.mem_cons_of_mem _ he)) hrest with hd | hw
      · obtain ⟨before, e', after, v, v', rfl, hbefore, hv⟩ := hd
        refine .inl ⟨e :: before, e', after, v, v', rfl, ?_, hv⟩
        rw [Runs.exec, hs]
        exact hbefore
      · exact .inr hw

/-- The timer runs on, whatever the threads do. -/
theorem ticking_step (h : Ticking timer s.clock p) {e : Event k} (he : e.Ordinary)
    (hs : TimeSlicing.step timer devices s e = some s') : ∃ p', Ticking timer s'.clock p' := by
  cases e with
  | call c | run =>
    obtain ⟨threads, -, rfl⟩ := Option.map_eq_some_iff.mp hs
    exact ⟨p, h⟩
  | schedule request =>
    cases hs
    exact ⟨p, (h.schedule he).1⟩
  | setStatus status =>
    cases hs
    exact ⟨p, h.setStatus he⟩
  | interrupts semaphores =>
    have hset := h.setLevel s.threads.level
    unfold TimeSlicing.step at hs
    dsimp only at hs
    split at hs
    · obtain ⟨clock, hclock, hs⟩ := Option.bind_eq_some_iff.mp hs
      obtain ⟨threads, -, rfl⟩ := Option.map_eq_some_iff.mp hs
      obtain ⟨p', hp', -⟩ := hset.step (l := .idle) trivial hclock
      exact ⟨p', hp'⟩
    · obtain ⟨clock, hclock, hs⟩ := Option.bind_eq_some_iff.mp hs
      obtain ⟨threads, -, rfl⟩ := Option.map_eq_some_iff.mp hs
      obtain ⟨p', hp', -⟩ := hset.step (l := .oneTick) trivial hclock
      exact ⟨p', hp'⟩

/-- A ready thread is not starved: with `i` threads ahead of it, it gets the processor before
`i + 1` slices have passed, whatever the threads do and whichever devices interrupt them, while
simulated time stays below `2 ^ 31`. -/
theorem bounded_waiting {semaphore : Fin k → ℕ} {events : List (Event k)}
    (h : Runs.Reach (TimeSlicing.step timer devices) (Timely timer devices)
      (booted timer semaphore) s)
    (hready : s.threads.readyList[i]? = some t)
    (htimely : Runs.Always (TimeSlicing.step timer devices) (Timely timer devices) s events)
    (hrun : Runs.exec (TimeSlicing.step timer devices) s events = some s')
    (hlong : s.clock.stats.totalTicks + (i + 1) * slice timer < s'.clock.stats.totalTicks) :
    ∃ before e after u u', events = before ++ e :: after ∧
      Runs.exec (TimeSlicing.step timer devices) s before = some u ∧
      TimeSlicing.step timer devices u e = some u' ∧ Takes t u u' ∧
      u'.clock.stats.totalTicks ≤ s.clock.stats.totalTicks + (i + 1) * slice timer := by
  obtain ⟨p, hp⟩ : ∃ p, Ticking timer s.clock p := by
    apply h.invariant (Interrupt.ticking_armed timer)
    rintro u e u' ⟨p, hp⟩ he hs
    exact ticking_step hp he.1 hs
  have hwaiting : Waiting timer t (s.clock.stats.totalTicks + (i + 1) * slice timer) s i p := by
    refine ⟨hready, hp, .inl ?_⟩
    have hsoon := hp.soon
    have hslice : slice timer = timer.longest + (SystemTick - 1) := rfl
    rw [Nat.succ_mul]
    omega
  rcases hwaiting.run (htimely.forall_mem hrun fun _ _ he => he.1) hrun with hd | ⟨i', p', hw⟩
  · exact hd
  · exact absurd hw.clock_le (not_le.mpr hlong)

end

/-- Interrupts are turned on, and the main thread forks another. -/
def forking : List (Event 0) :=
  [.call (.SetLevel .IntOn), .run, .interrupts [], .call .Fork, .run, .interrupts [], .run]

/-- The main thread runs on and never gives up the processor by itself. -/
def hogging : List (Event 0) :=
  (List.replicate 8 [.call .userInstruction, .interrupts []]).flatten ++
    [.run, .run, .run, .interrupts [], .call .userInstruction, .interrupts [],
      .call .userInstruction, .interrupts []]

theorem bounded_waiting_hogging :
    ∃ s s', Runs.exec (step Interrupt.fixedTimer Interrupt.diskOnly)
        (booted Interrupt.fixedTimer fun _ => 0) forking = some s ∧
      Runs.exec (step Interrupt.fixedTimer Interrupt.diskOnly) s hogging = some s' ∧
      s.threads.readyList = [1] ∧ s.clock.stats.totalTicks = 20 ∧
      ∃ before e after u u', hogging = before ++ e :: after ∧
        Runs.exec (step Interrupt.fixedTimer Interrupt.diskOnly) s before = some u ∧
        step Interrupt.fixedTimer Interrupt.diskOnly u e = some u' ∧ Takes 1 u u' ∧
        u'.clock.stats.totalTicks ≤ 129 := by
  let s := (Runs.exec (step Interrupt.fixedTimer Interrupt.diskOnly)
    (booted Interrupt.fixedTimer fun _ => 0) forking).get (by decide +kernel)
  have hs : Runs.exec (step Interrupt.fixedTimer Interrupt.diskOnly)
      (booted Interrupt.fixedTimer fun _ => 0) forking = some s := (Option.some_get _).symm
  have hready : s.threads.readyList = [1] := by decide +kernel
  have hclock : s.clock.stats.totalTicks = 20 := by decide +kernel
  have hview : (Runs.exec (step Interrupt.fixedTimer Interrupt.diskOnly) s hogging).map
      (·.clock.stats.totalTicks) = some 130 := by
    decide +kernel
  obtain ⟨s', hrun, hlate⟩ := Option.map_eq_some_iff.mp hview
  have hstart : Runs.Always (step Interrupt.fixedTimer Interrupt.diskOnly)
      (Timely Interrupt.fixedTimer Interrupt.diskOnly) (booted Interrupt.fixedTimer fun _ => 0)
        forking := by
    decide +kernel
  have htimely : Runs.Always (step Interrupt.fixedTimer Interrupt.diskOnly)
      (Timely Interrupt.fixedTimer Interrupt.diskOnly) s hogging := by
    decide +kernel
  have hbound := bounded_waiting (i := 0) (hstart.reach hs) (by rw [hready]; rfl) htimely hrun
    (by rw [hclock, hlate]; decide)
  rw [hclock] at hbound
  exact ⟨s, s', hs, hrun, hready, hclock, hbound⟩

end Nachos.TimeSlicing

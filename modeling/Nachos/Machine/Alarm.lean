import Nachos.Machine.Interrupt

/-! Time slicing: the timer of `machine/timer.cc` and the alarm of `threads/alarm.cc`, which the
kernel starts when it boots. `Timer::Disable` is never called. -/
namespace Nachos.Interrupt

open IntStatus (IntOff IntOn)

/-- Everything but the timer: no other device schedules a timer interrupt or asks for a context
switch. -/
structure Devices where
  handler : Handler
  requests : ∀ s next, ∀ request ∈ (handler s next).1, request.type ≠ .TimerInt
  yields : ∀ s next, (handler s next).2 = false

structure Timer where
  randomize : Bool
  /-- What `RandomNumber` answers. -/
  random : State → ℕ

namespace Timer

/-- `Timer::SetInterrupt`. -/
def requests (timer : Timer) (s : State) : List Request :=
  setInterrupt false timer.randomize (timer.random s)

/-- The longest delay. -/
def longest (timer : Timer) : ℕ := if timer.randomize then TimerTicks * 2 else TimerTicks

end Timer

/-- `Alarm::CallBack`: does it call `YieldOnReturn`? -/
def alarmCallBack (s : State) : Bool := s.status ≠ .IdleMode

/-- The call backs of all devices; that of the timer calls the alarm. -/
def handlers (timer : Timer) (devices : Devices) : Handler := fun s next =>
  if next.type = .TimerInt then (timer.requests s, alarmCallBack s) else devices.handler s next

/-- `Kernel::Initialize` has constructed the alarm. -/
def armed (timer : Timer) : State := (timer.requests start).foldl State.schedule start

def PendingInterrupt.isTimer (p : PendingInterrupt) : Bool := p.type = .TimerInt

namespace State

def timers (s : State) : List PendingInterrupt := s.pending.filter PendingInterrupt.isTimer

/-- How many timer interrupts there have been. -/
def fired (s : State) : ℕ := s.invoked.countP (·.1.isTimer)

/-- Does `OneTick` call `Yield`? -/
def yields (handler : Handler) (s : State) : Bool :=
  ({ s.tick with level := IntOff }.checkIfDue handler s.pending.length false).any
    fun result : Bool × State => result.2.yieldOnReturn

end State

/-- Does the step call `Yield` for the running thread? -/
def Label.yields (handler : Handler) (s : State) : Label → Bool
  | .oneTick => s.yields handler
  | .setLevel now =>
    if now = IntOn ∧ s.level = IntOff then { s with level := now }.yields handler else false
  | .schedule _ | .idle | .setStatus _ => false

/-- How often a run calls `Yield`. -/
def forcedYields (handler : Handler) (s : State) : List Label → ℕ
  | [] => 0
  | l :: ls => (l.yields handler s).toNat +
      (step handler s l).elim 0 fun s' => forcedYields handler s' ls

/-- Only the timer schedules timer interrupts, and only `Idle` sets the machine idle. -/
def Label.Ordinary : Label → Prop
  | .schedule request => request.type ≠ .TimerInt
  | .setStatus status => status ≠ .IdleMode
  | .setLevel _ | .oneTick | .idle => True

instance : (l : Label) → Decidable l.Ordinary
  | .schedule request => inferInstanceAs (Decidable (request.type ≠ .TimerInt))
  | .setStatus status => inferInstanceAs (Decidable (status ≠ .IdleMode))
  | .setLevel _ | .oneTick | .idle => inferInstanceAs (Decidable True)

/-- The clock and the due times are within an `int`. -/
def State.InTime (s : State) : Prop :=
  s.stats.totalTicks < 2 ^ 31 ∧ ∀ p ∈ s.pending, p.when < 2 ^ 31

instance (s : State) : Decidable s.InTime := inferInstanceAs (Decidable (_ ∧ _))

/-- An ordinary step while simulated time stays below `2 ^ 31`. -/
def Timely (timer : Timer) (devices : Devices) (s : State) (l : Label) : Prop :=
  l.Ordinary ∧ ∀ s' ∈ step (handlers timer devices) s l, s'.InTime

instance (timer : Timer) (devices : Devices) (s : State) (l : Label) :
    Decidable (Timely timer devices s l) := inferInstanceAs (Decidable (_ ∧ _))

section

variable {s s' : State} {timer : Timer} {devices : Devices} {p : PendingInterrupt}

theorem Queue.schedule_eq (h : Queue s) (request : Request) : ∃ p : PendingInterrupt,
    p.when = s.stats.totalTicks + request.fromNow ∧ p.type = request.type ∧
    s.schedule request = { s with
      pending := s.pending.orderedInsert Sooner p, scheduled := s.scheduled ++ [p] } := by
  refine ⟨⟨s.scheduled.length, s.stats.totalTicks + request.fromNow, request.type⟩, rfl, rfl, ?_⟩
  have hnew : ⟨s.scheduled.length, s.stats.totalTicks + request.fromNow, request.type⟩ ∉
      s.pending := fun hmem => lt_irrefl _ (h.number_lt hmem)
  simp only [State.schedule, show LinkedList.insert Sooner s.pending _ = _ from if_neg hnew]
  rfl

/-- What `Schedule` does to the timer interrupts. -/
theorem Queue.schedule_timers (h : Queue s) (request : Request) : ∃ p : PendingInterrupt,
    p.when = s.stats.totalTicks + request.fromNow ∧
    (s.schedule request).timers.Perm
      (if request.type = .TimerInt then p :: s.timers else s.timers) ∧
    (s.schedule request).fired = s.fired ∧ (s.schedule request).status = s.status ∧
    (s.schedule request).yieldOnReturn = s.yieldOnReturn := by
  obtain ⟨p, hwhen, htype, heq⟩ := h.schedule_eq request
  rw [heq]
  refine ⟨p, hwhen, ?_, rfl, rfl, rfl⟩
  have hperm := (List.perm_orderedInsert Sooner p s.pending).filter PendingInterrupt.isTimer
  have hfilter : (p :: s.pending).filter PendingInterrupt.isTimer =
      if request.type = .TimerInt then p :: s.timers else s.timers := by
    rw [List.filter_cons, PendingInterrupt.isTimer, htype]
    simp only [decide_eq_true_eq]
    rfl
  rw [← hfilter]
  exact hperm

/-- What is the same while other devices schedule their interrupts. -/
structure Undisturbed (s s' : State) : Prop where
  queue : Queue s'
  stats : s'.stats = s.stats
  timers : s'.timers.Perm s.timers
  fired : s'.fired = s.fired
  status : s'.status = s.status
  yieldOnReturn : s'.yieldOnReturn = s.yieldOnReturn

theorem Queue.undisturbed (h : Queue s) {requests : List Request}
    (hother : ∀ request ∈ requests, request.type ≠ .TimerInt) :
    Undisturbed s (requests.foldl State.schedule s) := by
  induction requests generalizing s with
  | nil => exact ⟨h, rfl, .refl _, rfl, rfl, rfl⟩
  | cons request requests ih =>
    obtain ⟨_, -, htimers, hfired, hstatus, hyield⟩ := h.schedule_timers request
    rw [if_neg (hother request List.mem_cons_self)] at htimers
    have hone := h.schedule request
    have hrest := ih hone.queue fun r hr => hother r (List.mem_cons_of_mem _ hr)
    exact ⟨hrest.queue, hrest.stats.trans hone.stats, hrest.timers.trans htimers,
      hrest.fired.trans hfired, hrest.status.trans hstatus, hrest.yieldOnReturn.trans hyield⟩

theorem Timer.requests_eq (timer : Timer) (s : State) : ∃ request : Request,
    timer.requests s = [request] ∧ request.type = .TimerInt ∧ request.fromNow ≤ timer.longest ∧
    (timer.randomize = false → request.fromNow = TimerTicks) := by
  refine ⟨_, rfl, rfl, ?_, fun h => ?_⟩
  · unfold longest
    dsimp only
    split_ifs
    · have hlt := Nat.mod_lt (timer.random s) (show 0 < TimerTicks * 2 by decide)
      omega
    · exact le_rfl
  · rw [h]
    rfl

/-- The timer interrupt `p` is the only one, and when it comes next. -/
structure Ticking (timer : Timer) (s : State) (p : PendingInterrupt) : Prop where
  settled : Settled s
  only : s.timers = [p]
  soon : p.when ≤ s.stats.totalTicks + timer.longest
  yieldOnReturn : s.yieldOnReturn = false
  status : s.status ≠ .IdleMode

theorem Ticking.late (h : Ticking timer s p) : s.stats.totalTicks < p.when := by
  apply h.settled.caught
  have hp : p ∈ s.timers := by
    rw [h.only]
    exact List.mem_singleton_self p
  exact (List.mem_filter.mp hp).1

/-- The timer interrupt that is set at a time. -/
structure SetAt (timer : Timer) (now : ℕ) (p : PendingInterrupt) : Prop where
  late : now < p.when
  soon : p.when ≤ now + timer.longest
  fixed : timer.randomize = false → p.when = now + TimerTicks

/-- Between two states the timer interrupt `p` has occurred at most once. -/
inductive Ticked (timer : Timer) (p : PendingInterrupt) (s s' : State) : Prop
  | waits (only : s'.timers = [p]) (fired : s'.fired = s.fired)
      (yieldOnReturn : s'.yieldOnReturn = false)
  | fires (p' : PendingInterrupt) (due : p.when ≤ s'.stats.totalTicks) (only : s'.timers = [p'])
      (setAt : SetAt timer s'.stats.totalTicks p') (fired : s'.fired = s.fired + 1)
      (yieldOnReturn : s'.yieldOnReturn = alarmCallBack s)

/-- The state in which the call back of the front interrupt is called. -/
theorem Queue.served {next : PendingInterrupt} {rest : List PendingInterrupt} (h : Queue s)
    (hpending : s.pending = next :: rest) (hdue : next.when ≤ s.stats.totalTicks) (yield : Bool) :
    Queue { s with
      pending := rest, invoked := s.invoked ++ [(next, s.stats.totalTicks)],
      yieldOnReturn := yield } := by
  have hlist : (s.invoked ++ [(next, s.stats.totalTicks)]).map Prod.fst ++ rest =
      s.invoked.map Prod.fst ++ s.pending := by
    rw [hpending]
    simp
  refine ⟨?_, ?_, ?_, h.numbers, h.ticks, h.sound⟩
  · rw [hlist]
    exact h.ordered
  · intro e he
    rcases List.mem_append.mp he with he | he
    · exact h.due e he
    · cases List.mem_singleton.mp he
      exact ⟨hdue, le_rfl⟩
  · rw [hlist]
    exact h.all

/-- What the loop of `CheckIfDue` keeps, from the state in which it starts. -/
structure Serving (timer : Timer) (p : PendingInterrupt) (s s' : State) : Prop where
  queue : Queue s'
  stats : s'.stats = s.stats
  status : s'.status = s.status
  ticked : Ticked timer p s s'

theorem Serving.invoke {u : State} {next : PendingInterrupt} {rest : List PendingInterrupt}
    (h : Serving timer p s u) (devices : Devices) (hpending : u.pending = next :: rest)
    (hdue : next.when ≤ u.stats.totalTicks) :
    Serving timer p s ({ u with pending := rest }.invoke (handlers timer devices) next) := by
  obtain ⟨v, hv⟩ : ∃ v : State, v = { u with
      pending := rest, invoked := u.invoked ++ [(next, u.stats.totalTicks)] } := ⟨_, rfl⟩
  have hqueue (yield : Bool) : Queue { v with yieldOnReturn := yield } := by
    rw [hv]
    exact h.queue.served hpending hdue yield
  have htimers : u.timers = if next.isTimer then next :: v.timers else v.timers := by
    rw [State.timers, hpending, List.filter_cons, hv]
    rfl
  have hfired : v.fired = u.fired + if next.isTimer then 1 else 0 := by
    rw [hv, State.fired, List.countP_append, List.countP_singleton]
    rfl
  have heq : { u with pending := rest }.invoke (handlers timer devices) next =
      (handlers timer devices v next).1.foldl State.schedule
        { v with yieldOnReturn := u.yieldOnReturn || (handlers timer devices v next).2 } := by
    rw [hv]
    rfl
  rw [heq, handlers]
  by_cases htype : next.type = .TimerInt
  · -- the front is the timer interrupt, and it has not occurred yet
    have hnext : next.isTimer = true := decide_eq_true htype
    rw [if_pos hnext] at htimers hfired
    obtain ⟨request, hrequest, hkind, hlong, hfixed⟩ := timer.requests_eq v
    rw [if_pos htype, hrequest]
    obtain ⟨p', hwhen, hperm, hfired', hstatus, hyield⟩ :=
      (hqueue (u.yieldOnReturn || alarmCallBack v)).schedule_timers request
    have hone := (hqueue (u.yieldOnReturn || alarmCallBack v)).schedule request
    rw [if_pos hkind] at hperm
    have hclock : (State.schedule { v with yieldOnReturn := u.yieldOnReturn || alarmCallBack v }
        request).stats = u.stats := by
      rw [hone.stats, hv]
    have hwhen' : p'.when = u.stats.totalTicks + request.fromNow := by
      rw [hwhen, hv]
    have halarm : alarmCallBack v = alarmCallBack s := by
      rw [alarmCallBack, alarmCallBack, ← h.status, hv]
    refine ⟨hone.queue, hclock.trans h.stats, ?_, ?_⟩
    · refine hstatus.trans ?_
      rw [hv]
      exact h.status
    · cases h.ticked with
      | waits only fired yieldOnReturn =>
        obtain ⟨rfl, hnone⟩ := List.cons.inj (htimers.symm.trans only)
        have honly : (State.schedule { v with yieldOnReturn := u.yieldOnReturn || alarmCallBack v }
            request).timers = [p'] := by
          apply List.perm_singleton.mp
          rw [← hnone]
          exact hperm
        refine .fires p' ?_ honly ?_ ?_ ?_
        · rw [List.foldl_cons, List.foldl_nil, hclock]
          exact hdue
        · rw [List.foldl_cons, List.foldl_nil, hclock]
          have hpos := request.pos
          exact ⟨by omega, by omega, fun h => by rw [hwhen', hfixed h]⟩
        · exact hfired'.trans (hfired.trans (congrArg (· + 1) fired))
        · refine hyield.trans ?_
          rw [yieldOnReturn, halarm]
          rfl
      | fires p'' due only setAt fired yieldOnReturn =>
        obtain ⟨rfl, hnone⟩ := List.cons.inj (htimers.symm.trans only)
        exact absurd setAt.late (not_lt.mpr hdue)
  · have hnext : ¬ next.isTimer = true := fun h => htype (of_decide_eq_true h)
    rw [if_neg hnext] at htimers hfired
    rw [if_neg htype, devices.yields, Bool.or_false]
    have hrest := (hqueue u.yieldOnReturn).undisturbed (devices.requests v next)
    have hclock := hrest.stats.trans (show v.stats = u.stats by rw [hv])
    have hsame (p : PendingInterrupt) (honly : u.timers = [p]) : ((devices.handler v next).1.foldl
        State.schedule { v with yieldOnReturn := u.yieldOnReturn }).timers = [p] := by
      apply List.perm_singleton.mp
      rw [← honly, htimers]
      exact hrest.timers
    refine ⟨hrest.queue, hclock.trans h.stats, ?_, ?_⟩
    · refine hrest.status.trans ?_
      rw [hv]
      exact h.status
    · cases h.ticked with
      | waits only fired yieldOnReturn =>
        exact .waits (hsame p only) (hrest.fired.trans (hfired.trans fired))
          (hrest.yieldOnReturn.trans yieldOnReturn)
      | fires p' due only setAt fired yieldOnReturn =>
        refine .fires p' ?_ (hsame p' only) ?_ (hrest.fired.trans (hfired.trans fired))
          (hrest.yieldOnReturn.trans yieldOnReturn)
        · rw [hclock]
          exact due
        · rw [hclock]
          exact setAt

theorem Serving.fire {fuel : ℕ} {u : State} (h : Serving timer p s u)
    (hfront : ∀ front ∈ u.pending.head?, front.when ≤ u.stats.totalTicks)
    (hfire : u.fire (handlers timer devices) fuel = some s') : Serving timer p s s' := by
  induction fuel generalizing u with
  | zero => cases hfire
  | succ fuel ih =>
    cases hpending : u.pending with
    | nil =>
      rw [State.fire, hpending] at hfire
      cases hfire
    | cons next rest =>
      have hturn := h.invoke devices hpending (hfront next (by rw [hpending]; rfl))
      rw [State.fire, hpending] at hfire
      have hfire : (if ∀ front ∈ ({ u with pending := rest }.invoke (handlers timer devices)
            next).pending.head?, ({ u with pending := rest }.invoke (handlers timer devices)
            next).stats.totalTicks < front.when then
          some ({ u with pending := rest }.invoke (handlers timer devices) next)
        else ({ u with pending := rest }.invoke (handlers timer devices) next).fire
          (handlers timer devices) fuel) = some s' := hfire
      split_ifs at hfire with hlast
      · cases hfire
        exact hturn
      · push Not at hlast
        obtain ⟨front, hhead, hdue⟩ := hlast
        refine ih hturn ?_ hfire
        intro front' hhead'
        cases hhead.symm.trans hhead'
        exact hdue

/-- Before `CheckIfDue`, the timer interrupt may be due. -/
structure Checkable (timer : Timer) (s : State) (p : PendingInterrupt) : Prop where
  queue : Queue s
  outside : s.inHandler = false
  level : s.level = IntOff
  only : s.timers = [p]
  yieldOnReturn : s.yieldOnReturn = false

/-- What `CheckIfDue` does to the timer interrupt. -/
theorem Checkable.checkIfDue (h : Checkable timer s p) {fuel : ℕ} {advanceClock fired : Bool}
    (hcheck : s.checkIfDue (handlers timer devices) fuel advanceClock = some (fired, s')) :
    Ticked timer p s s' ∧ s'.status = s.status ∧
      s'.stats.totalTicks = s.clock advanceClock := by
  have hoff : ¬ s.level = IntOn := by
    rw [h.level]
    decide
  rw [State.checkIfDue, if_neg hoff] at hcheck
  cases hpending : s.pending with
  | nil =>
    rw [hpending] at hcheck
    cases hcheck
    refine ⟨.waits h.only rfl h.yieldOnReturn, rfl, ?_⟩
    rw [State.clock, hpending]
    rfl
  | cons next rest =>
    have hhead : s.pending.head? = some next := by
      rw [hpending]
      rfl
    simp only [hpending] at hcheck
    by_cases hwait : s.stats.totalTicks < next.when ∧ advanceClock = false
    · rw [if_pos hwait] at hcheck
      cases hcheck
      refine ⟨.waits h.only rfl h.yieldOnReturn, rfl, ?_⟩
      rw [State.clock, hhead, Option.elim_some, if_neg (by simp [hwait.2])]
    · -- the state in which the loop starts
      obtain ⟨s₁, hs₁⟩ : ∃ s₁ : State, s₁ = { (if s.stats.totalTicks < next.when then
        s.advanceTo next.when else s) with inHandler := true } := ⟨_, rfl⟩
      have hsame : Queue s₁ ∧ s₁.pending = s.pending ∧ s₁.invoked = s.invoked ∧
          s₁.status = s.status ∧ s₁.yieldOnReturn = s.yieldOnReturn ∧
          next.when ≤ s₁.stats.totalTicks ∧ s₁.stats.totalTicks = s.clock advanceClock := by
        rw [hs₁, State.clock, hhead, Option.elim_some]
        split_ifs with hlt hclock hclock
        · exact ⟨(h.queue.advanceTo hlt.le).flags .., rfl, rfl, rfl, rfl, le_rfl, rfl⟩
        · simp_all
        · exact absurd hclock.1 hlt
        · exact ⟨h.queue.flags .., rfl, rfl, rfl, rfl, not_lt.mp hlt, rfl⟩
      obtain ⟨hqueue, hpending₁, hinvoked, hstatus, hyield, hdue, hclock⟩ := hsame
      rw [if_neg hwait, ← hs₁] at hcheck
      obtain ⟨s₂, hfire, hs₂⟩ := Option.map_eq_some_iff.mp hcheck
      obtain ⟨-, rfl⟩ := Prod.mk.inj hs₂
      have hstart : Serving timer p s₁ s₁ := by
        refine ⟨hqueue, rfl, rfl, .waits ?_ rfl (hyield.trans h.yieldOnReturn)⟩
        rw [State.timers, hpending₁]
        exact h.only
      have hfront : ∀ front ∈ s₁.pending.head?, front.when ≤ s₁.stats.totalTicks := by
        intro front hfront
        rw [hpending₁, hhead] at hfront
        cases hfront
        exact hdue
      have hserved := hstart.fire hfront hfire
      have hfired : s₁.fired = s.fired := congrArg (List.countP _) hinvoked
      refine ⟨?_, hserved.status.trans hstatus, ?_⟩
      · cases hserved.ticked with
        | waits only fired yieldOnReturn => exact .waits only (fired.trans hfired) yieldOnReturn
        | fires p' due only setAt fired yieldOnReturn =>
          refine .fires p' due only setAt (by rw [← hfired]; exact fired) ?_
          rw [alarmCallBack, ← hstatus]
          exact yieldOnReturn
      · exact (congrArg Statistics.totalTicks hserved.stats).trans hclock

/-- How a step treats the slice that `p` ends; `p'` ends the slice after the step. -/
inductive Slice (timer : Timer) (p : PendingInterrupt) (s s' : State) : PendingInterrupt → Prop
  | goesOn (fired : s'.fired = s.fired) : Slice timer p s s' p
  | ends {p' : PendingInterrupt} (due : p.when ≤ s'.stats.totalTicks)
      (prompt : s'.stats.totalTicks < p.when + SystemTick)
      (setAt : SetAt timer s'.stats.totalTicks p') (fired : s'.fired = s.fired + 1) :
      Slice timer p s s' p'

theorem tick_le (s : State) : s.tick.stats.totalTicks ≤ s.stats.totalTicks + SystemTick := by
  unfold State.tick
  split_ifs
  · exact le_rfl
  · show s.stats.totalTicks + UserTick ≤ _
    unfold UserTick SystemTick
    omega

theorem Ticking.oneTick (h : Ticking timer s p) (devices : Devices) :
    ∃ s' p', s.oneTick (handlers timer devices) = some s' ∧ Ticking timer s' p' ∧
      Slice timer p s s' p' ∧ s.stats.totalTicks ≤ s'.stats.totalTicks ∧
      s'.fired = s.fired + (s.yields (handlers timer devices)).toNat := by
  obtain ⟨s', heq, hsettled, -, hclock⟩ := h.settled.oneTick (handlers timer devices)
  obtain ⟨hqueue, hlater, hpending, houtside⟩ := h.settled.queue.tick
  have htick : s.tick.invoked = s.invoked ∧ s.tick.yieldOnReturn = s.yieldOnReturn ∧
      s.tick.status = s.status := by
    unfold State.tick
    split_ifs
    · exact ⟨rfl, rfl, rfl⟩
    · exact ⟨rfl, rfl, rfl⟩
  have hsame : s.tick.timers = s.timers := congrArg (List.filter _) hpending
  have hready : Checkable timer { s.tick with level := IntOff } p :=
    ⟨hqueue.flags .., houtside.trans h.settled.outside, rfl, hsame.trans h.only,
      htick.2.1.trans h.yieldOnReturn⟩
  have hcalled := heq
  rw [State.oneTick] at hcalled
  obtain ⟨⟨fired, u⟩, hcheck, hmap⟩ := Option.map_eq_some_iff.mp hcalled
  have hs' : (if u.yieldOnReturn = true then
      { u with level := IntOn, yieldOnReturn := false, status := .SystemMode }
    else { u with level := IntOn }) = s' := hmap
  obtain ⟨hticked, hstatus, -⟩ := hready.checkIfDue hcheck
  have hyields : s.yields (handlers timer devices) = u.yieldOnReturn := by
    rw [State.yields, hcheck]
    rfl
  have hfired₀ : State.fired { s.tick with level := IntOff } = s.fired :=
    congrArg (List.countP _) htick.1
  have hwhen := h.late
  have hsoon := h.soon
  have hle := tick_le s
  have hnow : u.stats.totalTicks = s'.stats.totalTicks := by
    rw [← hs']
    split_ifs <;> rfl
  cases hticked with
  | waits only fired yieldOnReturn =>
    rw [if_neg (by simp [yieldOnReturn])] at hs'
    refine ⟨s', p, heq, ⟨hsettled, ?_, ?_, ?_, ?_⟩, .goesOn ?_, ?_, ?_⟩
    · rw [← hs']
      exact only
    · omega
    · rw [← hs']
      exact yieldOnReturn
    · rw [← hs']
      exact fun hidle => h.status (htick.2.2.symm.trans (hstatus.symm.trans hidle))
    · rw [← hs']
      exact fired.trans hfired₀
    · omega
    · rw [hyields, yieldOnReturn, ← hs']
      exact fired.trans hfired₀
  | fires p' due only setAt fired yieldOnReturn =>
    have halarm : u.yieldOnReturn = true :=
      yieldOnReturn.trans (decide_eq_true (htick.2.2 ▸ h.status))
    rw [if_pos halarm] at hs'
    have hset : SetAt timer s'.stats.totalTicks p' := hnow ▸ setAt
    have hfired : s'.fired = s.fired + 1 := by
      rw [← hs', ← hfired₀]
      exact fired
    refine ⟨s', p', heq, ⟨hsettled, ?_, hset.soon, ?_, ?_⟩, .ends ?_ ?_ hset hfired, ?_, ?_⟩
    · rw [← hs']
      exact only
    · rw [← hs']
    · rw [← hs']
      simp
    · exact hnow ▸ due
    · omega
    · omega
    · rw [hyields, halarm]
      exact hfired

theorem Ticking.setLevel (h : Ticking timer s p) (level : IntStatus) :
    Ticking timer { s with level := level } p :=
  ⟨⟨h.settled.queue.flags .., h.settled.caught, h.settled.outside⟩, h.only, h.soon,
    h.yieldOnReturn, h.status⟩

theorem Ticking.setStatus (h : Ticking timer s p) {status : MachineStatus}
    (hstatus : status ≠ .IdleMode) : Ticking timer { s with status := status } p :=
  ⟨⟨h.settled.queue.flags .., h.settled.caught, h.settled.outside⟩, h.only, h.soon,
    h.yieldOnReturn, hstatus⟩

theorem Ticking.schedule (h : Ticking timer s p) {request : Request}
    (hother : request.type ≠ .TimerInt) :
    Ticking timer (s.schedule request) p ∧ (s.schedule request).fired = s.fired ∧
      (s.schedule request).stats = s.stats := by
  obtain ⟨_, -, htimers, hfired, hstatus, hyield⟩ := h.settled.queue.schedule_timers request
  rw [if_neg hother, h.only] at htimers
  have hstats := (h.settled.queue.schedule request).stats
  refine ⟨⟨h.settled.schedule request, List.perm_singleton.mp htimers, ?_,
    hyield.trans h.yieldOnReturn, ?_⟩, hfired, hstats⟩
  · rw [hstats]
    exact h.soon
  · rw [hstatus]
    exact h.status

/-- There is always an interrupt to wait for. -/
theorem Ticking.idle (h : Ticking timer s p) (devices : Devices) (hlevel : s.level = IntOff) :
    ∃ s' p', s.idle (handlers timer devices) = some s' ∧ Ticking timer s' p' ∧
      Slice timer p s s' p' ∧ s.stats.totalTicks ≤ s'.stats.totalTicks := by
  have hp : p ∈ s.pending := by
    refine (List.mem_filter.mp (?_ : p ∈ s.timers)).1
    rw [h.only]
    exact List.mem_singleton_self p
  obtain ⟨next, rest, hpending⟩ := List.exists_cons_of_ne_nil (List.ne_nil_of_mem hp)
  obtain ⟨s', heq, hsettled, hclock⟩ :=
    (h.settled.idle (handlers timer devices) hlevel).2 next rest hpending
  have hready : Checkable timer { s with status := .IdleMode } p :=
    ⟨h.settled.queue.flags .., h.settled.outside, hlevel, h.only, h.yieldOnReturn⟩
  have hcalled := heq
  rw [State.idle] at hcalled
  obtain ⟨⟨fired, u⟩, hcheck, hguard⟩ := Option.bind_eq_some_iff.mp hcalled
  obtain ⟨-, hs'⟩ := Option.ite_none_right_eq_some.mp hguard
  have hs' : { u with status := .SystemMode } = s' := Option.some.inj hs'
  obtain ⟨hticked, -, -⟩ := hready.checkIfDue hcheck
  have hfirst := h.settled.queue.earliest hpending p hp
  have hwhen := h.late
  have hsoon := h.soon
  have hnow : u.stats.totalTicks = s'.stats.totalTicks := by rw [← hs']
  have hbound : s.stats.totalTicks ≤ s'.stats.totalTicks ∧ s'.stats.totalTicks ≤ p.when := by
    rw [hclock]
    split_ifs <;> omega
  cases hticked with
  | waits only fired yieldOnReturn =>
    refine ⟨s', p, heq, ⟨hsettled, ?_, by omega, ?_, ?_⟩, .goesOn ?_, hbound.1⟩
    · rw [← hs']
      exact only
    · rw [← hs']
      exact yieldOnReturn
    · rw [← hs']
      simp
    · rw [← hs']
      exact fired
  | fires p' due only setAt fired yieldOnReturn =>
    have hset : SetAt timer s'.stats.totalTicks p' := hnow ▸ setAt
    refine ⟨s', p', heq, ⟨hsettled, ?_, hset.soon, ?_, ?_⟩, .ends (hnow ▸ due) ?_ hset ?_,
      hbound.1⟩
    · rw [← hs']
      exact only
    · -- nobody is running whom the alarm could interrupt
      rw [← hs']
      exact yieldOnReturn
    · rw [← hs']
      simp
    · exact Nat.lt_of_le_of_lt hbound.2 (Nat.lt_add_of_pos_right (by decide))
    · rw [← hs']
      exact fired

theorem Ticking.step (h : Ticking timer s p) {l : Label} (hl : l.Ordinary)
    (hs : step (handlers timer devices) s l = some s') :
    ∃ p', Ticking timer s' p' ∧ Slice timer p s s' p' ∧
      s.stats.totalTicks ≤ s'.stats.totalTicks ∧
      (l ≠ .idle → s'.fired = s.fired + (l.yields (handlers timer devices) s).toNat) := by
  cases l with
  | schedule request =>
    cases hs
    obtain ⟨hticking, hfired, hstats⟩ := h.schedule hl
    exact ⟨p, hticking, .goesOn hfired, by rw [hstats], fun _ => hfired⟩
  | setStatus status =>
    cases hs
    exact ⟨p, h.setStatus hl, .goesOn rfl, le_rfl, fun _ => rfl⟩
  | oneTick =>
    obtain ⟨u, p', heq, hticking, hslice, hle, hfired⟩ := h.oneTick devices
    cases heq.symm.trans hs
    exact ⟨p', hticking, hslice, hle, fun _ => hfired⟩
  | setLevel now =>
    obtain ⟨-, hs⟩ := Option.ite_none_left_eq_some.mp hs
    split_ifs at hs with hturned
    · obtain ⟨u, p', heq, hticking, hslice, hle, hfired⟩ := (h.setLevel now).oneTick devices
      cases heq.symm.trans hs
      refine ⟨p', hticking, ?_, hle, fun _ => ?_⟩
      · cases hslice with
        | goesOn fired => exact .goesOn fired
        | ends due prompt setAt fired => exact .ends due prompt setAt fired
      · rw [Label.yields, if_pos hturned]
        exact hfired
    · cases hs
      refine ⟨p, h.setLevel now, .goesOn rfl, le_rfl, fun _ => ?_⟩
      rw [Label.yields, if_neg hturned]
      rfl
  | idle =>
    have hlevel : s.level = IntOff := by
      cases hoff : s.level with
      | IntOff => rfl
      | IntOn => simp [Interrupt.step, State.idle, State.checkIfDue, hoff] at hs
    obtain ⟨u, p', heq, hticking, hslice, hle⟩ := h.idle devices hlevel
    cases heq.symm.trans hs
    exact ⟨p', hticking, hslice, hle, fun hne => absurd rfl hne⟩

theorem ticking_armed (timer : Timer) : ∃ p, Ticking timer (armed timer) p := by
  obtain ⟨request, hrequest, hkind, hlong, -⟩ := timer.requests_eq start
  have hsettled := settled_start.schedule request
  obtain ⟨p, hwhen, htimers, -, hstatus, hyield⟩ :=
    settled_start.queue.schedule_timers request
  rw [if_pos hkind] at htimers
  have hstats := (settled_start.queue.schedule request).stats
  rw [armed, hrequest, List.foldl_cons, List.foldl_nil]
  refine ⟨p, hsettled, List.perm_singleton.mp htimers, ?_, hyield, ?_⟩
  · rw [hwhen, hstats]
    exact Nat.add_le_add_left hlong _
  · rw [hstatus]
    decide

/-- What a run of the machine from `s` to `s'` does with the timer, which interrupts it `n`
times. -/
structure TimeSliced (timer : Timer) (devices : Devices) (s s' : State) (labels : List Label)
    (n : ℕ) : Prop where
  fired : s'.fired = s.fired + n
  /-- There is one timer interrupt to come, and it is never far. -/
  pending : ∃ p, s'.timers = [p] ∧ s'.stats.totalTicks < p.when ∧
    p.when ≤ s'.stats.totalTicks + timer.longest
  /-- The machine does not halt for want of interrupts. -/
  idle : s'.level = IntOff → ∃ s'', s'.idle (handlers timer devices) = some s''
  atLeast : s'.stats.totalTicks <
    s.stats.totalTicks + timer.longest + n * (timer.longest + SystemTick - 1)
  atMost : timer.randomize = false →
    s.stats.totalTicks + n * TimerTicks ≤ s'.stats.totalTicks + TimerTicks
  /-- Each interrupt takes the processor from the thread that is running. -/
  forced : (∀ l ∈ labels, l ≠ .idle) → forcedYields (handlers timer devices) s labels = n

/-- Two timer interrupts, and how many there have been in between. -/
structure Apart (timer : Timer) (p p' : PendingInterrupt) (n : ℕ) : Prop where
  upper : p'.when ≤ p.when + n * (timer.longest + SystemTick - 1)
  lower : timer.randomize = false → p.when + n * TimerTicks ≤ p'.when

theorem Slice.apart {p' : PendingInterrupt} (h : Slice timer p s s' p') :
    ∃ n, s'.fired = s.fired + n ∧ Apart timer p p' n := by
  cases h with
  | goesOn fired =>
    refine ⟨0, fired, ?_, fun _ => ?_⟩
    · omega
    · omega
  | ends due prompt setAt fired =>
    have hsoon := setAt.soon
    refine ⟨1, fired, ?_, fun hfixed => ?_⟩
    · omega
    · have hwhen := setAt.fixed hfixed
      omega

theorem Apart.trans {p' p'' : PendingInterrupt} {n n' : ℕ} (h : Apart timer p p' n)
    (h' : Apart timer p' p'' n') : Apart timer p p'' (n + n') := by
  have hupper := h.upper
  have hupper' := h'.upper
  refine ⟨?_, fun hfixed => ?_⟩
  · rw [Nat.add_mul]
    omega
  · have hlower := h.lower hfixed
    have hlower' := h'.lower hfixed
    rw [Nat.add_mul]
    omega

theorem Ticking.run (h : Ticking timer s p) {labels : List Label}
    (hordinary : ∀ l ∈ labels, l.Ordinary)
    (hrun : Runs.exec (Interrupt.step (handlers timer devices)) s labels = some s') :
    ∃ p' n, Ticking timer s' p' ∧ s'.fired = s.fired + n ∧ Apart timer p p' n ∧
      ((∀ l ∈ labels, l ≠ .idle) → forcedYields (handlers timer devices) s labels = n) := by
  induction labels generalizing s p with
  | nil =>
    cases hrun
    exact ⟨p, 0, h, rfl, ⟨by omega, fun _ => by omega⟩, fun _ => rfl⟩
  | cons l labels ih =>
    obtain ⟨u, hs, hrest⟩ := Option.bind_eq_some_iff.mp hrun
    obtain ⟨p', hu, hslice, -, hforced⟩ := h.step (hordinary l List.mem_cons_self) hs
    obtain ⟨n, hn, hapart⟩ := hslice.apart
    obtain ⟨p'', n', hticking, hn', hapart', hforced'⟩ :=
      ih hu (fun l hl => hordinary l (List.mem_cons_of_mem _ hl)) hrest
    refine ⟨p'', n + n', hticking, by omega, hapart.trans hapart', fun hidle => ?_⟩
    have hone := hforced (hidle l List.mem_cons_self)
    rw [forcedYields, hs, Option.elim_some,
      hforced' fun l hl => hidle l (List.mem_cons_of_mem _ hl)]
    omega

/-- However the kernel and the devices use the machine, while simulated time stays below `2 ^ 31`
the timer divides it into slices of the timer's length, up to the length of a tick, and each
interrupt forces a switch unless the machine is idle. -/
theorem time_sliced {labels : List Label}
    (h : Runs.Reach (step (handlers timer devices)) (Timely timer devices) (armed timer) s)
    (htimely : Runs.Always (step (handlers timer devices)) (Timely timer devices) s labels)
    (hrun : Runs.exec (step (handlers timer devices)) s labels = some s') :
    ∃ n, TimeSliced timer devices s s' labels n := by
  obtain ⟨p, hp⟩ : ∃ p, Ticking timer s p := by
    apply h.invariant (ticking_armed timer)
    rintro u l u' ⟨p, hp⟩ hl hs
    obtain ⟨p', hp', -⟩ := hp.step hl.1 hs
    exact ⟨p', hp'⟩
  have hordinary : ∀ l ∈ labels, l.Ordinary := htimely.forall_mem hrun fun _ _ hl => hl.1
  obtain ⟨p', n, hp', hn, hapart, hforced⟩ := hp.run hordinary hrun
  have hlate := hp'.late
  have hsoon := hp.soon
  have hupper := hapart.upper
  refine ⟨n, hn, ⟨p', hp'.only, hlate, hp'.soon⟩, ?_, by omega, ?_, hforced⟩
  · intro hlevel
    obtain ⟨s'', -, heq, -⟩ := hp'.idle devices hlevel
    exact ⟨s'', heq⟩
  · intro hfixed
    have hlower := hapart.lower hfixed
    have hlate := hp.late
    have hlongest : timer.longest = TimerTicks := by
      rw [Timer.longest, hfixed]
      rfl
    have hsoon' := hp'.soon
    omega

end

def fixedTimer : Timer := ⟨false, fun _ => 0⟩

/-- The handler of the disk schedules nothing. -/
def diskOnly : Devices := ⟨fun _ _ => ([], false), nofun, fun _ _ => rfl⟩

/-- A disk request, then kernel code that turns interrupts on again and again. -/
def busy : List Label :=
  .schedule ⟨55, .DiskInt, by decide⟩ ::
    (List.replicate 25 [.setLevel IntOff, .setLevel IntOn]).flatten

theorem time_sliced_busy :
    ∃ s s', Runs.exec (step (handlers fixedTimer diskOnly)) (armed fixedTimer)
        [.setLevel IntOn] = some s ∧
      Runs.exec (step (handlers fixedTimer diskOnly)) s busy = some s' ∧
      s.stats.totalTicks = 10 ∧ s'.stats.totalTicks = 260 ∧ s'.fired = 2 ∧
      ∃ n, TimeSliced fixedTimer diskOnly s s' busy n := by
  let s := ((armed fixedTimer).setLevel (handlers fixedTimer diskOnly) IntOn).get
    (by decide +kernel)
  have hs : Runs.exec (step (handlers fixedTimer diskOnly)) (armed fixedTimer) [.setLevel IntOn] =
      some s :=
    congrArg (Option.bind · some) (Option.some_get _).symm
  have hview : (Runs.exec (step (handlers fixedTimer diskOnly)) s busy).map
      (fun s' => (s'.stats.totalTicks, s'.fired)) = some (260, 2) := by
    decide +kernel
  obtain ⟨s', hrun, hv⟩ := Option.map_eq_some_iff.mp hview
  obtain ⟨hclock, hfired⟩ := Prod.mk.inj hv
  have hstart : Runs.Always (step (handlers fixedTimer diskOnly)) (Timely fixedTimer diskOnly)
      (armed fixedTimer) [.setLevel IntOn] := by
    decide +kernel
  have htimely : Runs.Always (step (handlers fixedTimer diskOnly)) (Timely fixedTimer diskOnly)
      s busy := by
    decide +kernel
  exact ⟨s, s', hs, hrun, by decide +kernel, hclock, hfired,
    time_sliced (hstart.reach hs) htimely hrun⟩

end Nachos.Interrupt

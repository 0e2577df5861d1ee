import Nachos.Lib.List
import Nachos.Library.Runs

/-! The simulated interrupt hardware of `machine/interrupt.cc`: a clock and a queue of devices
that want to be served in the future. What a device does when it is served is left open: its
handler may schedule further interrupts, ask for a context switch and wake threads, which does
not concern the queue. The clock and the due times are `int`s in the source; they are natural
numbers here, as they are there while simulated time stays below `2 ^ 31`. -/
namespace Nachos

inductive IntStatus where
  | IntOff
  | IntOn
  deriving DecidableEq

inductive MachineStatus where
  | IdleMode
  | SystemMode
  | UserMode
  deriving DecidableEq

inductive IntType where
  | TimerInt
  | DiskInt
  | ConsoleWriteInt
  | ConsoleReadInt
  | NetworkSendInt
  | NetworkRecvInt
  deriving DecidableEq

namespace Interrupt

open IntStatus (IntOff IntOn)

def UserTick : ℕ := 1
def SystemTick : ℕ := 10
def TimerTicks : ℕ := 100

/-- An interrupt that is to occur. Interrupts are numbered in the order in which they were
scheduled. -/
structure PendingInterrupt where
  number : ℕ
  when : ℕ
  type : IntType
  deriving DecidableEq

/-- `PendingCompare(x, y) < 0`. -/
def Sooner (x y : PendingInterrupt) : Prop := x.when < y.when

instance : DecidableRel Sooner := fun x y => inferInstanceAs (Decidable (x.when < y.when))

structure Statistics where
  totalTicks : ℕ
  idleTicks : ℕ
  systemTicks : ℕ
  userTicks : ℕ
  deriving DecidableEq

/-- A call of `Schedule`, which asserts that the delay is positive. -/
structure Request where
  fromNow : ℕ
  type : IntType
  pos : 0 < fromNow

structure State where
  stats : Statistics
  level : IntStatus
  pending : List PendingInterrupt
  inHandler : Bool
  yieldOnReturn : Bool
  status : MachineStatus
  /-- The interrupts that have been scheduled, in order. -/
  scheduled : List PendingInterrupt
  /-- The interrupts that have been invoked, in order, and when. -/
  invoked : List (PendingInterrupt × ℕ)
  /-- The assertion in `SortedList::Insert` has failed. -/
  failed : Bool
  deriving DecidableEq

/-- `Interrupt::Interrupt`, with the clock at zero. -/
def start : State where
  stats := ⟨0, 0, 0, 0⟩
  level := IntOff
  pending := []
  inHandler := false
  yieldOnReturn := false
  status := .SystemMode
  scheduled := []
  invoked := []
  failed := false

/-- What a device does when it is served: the interrupts it schedules, and whether it calls
`YieldOnReturn`. It may depend on all that has happened so far. -/
def Handler := State → PendingInterrupt → List Request × Bool

namespace State

/-- `Interrupt::Schedule`. -/
def schedule (s : State) (request : Request) : State :=
  let toOccur : PendingInterrupt :=
    ⟨s.scheduled.length, s.stats.totalTicks + request.fromNow, request.type⟩
  (LinkedList.insert Sooner s.pending toOccur).elim { s with failed := true } fun pending =>
    { s with pending := pending, scheduled := s.scheduled ++ [toOccur] }

/-- The device is served. -/
def invoke (handler : Handler) (s : State) (next : PendingInterrupt) : State :=
  let s' := { s with invoked := s.invoked ++ [(next, s.stats.totalTicks)] }
  let answer := handler s' next
  answer.1.foldl schedule { s' with yieldOnReturn := s'.yieldOnReturn || answer.2 }

/-- The loop in `CheckIfDue`, for at most so many turns. -/
def fire (handler : Handler) : ℕ → State → Option State
  | 0, _ => none
  | fuel + 1, s =>
    (LinkedList.removeFront s.pending).bind fun (next, pending) =>
      let s' := { s with pending := pending }.invoke handler next
      if ∀ front ∈ s'.pending.head?, s'.stats.totalTicks < front.when then some s'
      else fire handler fuel s'

/-- Move the clock forward while nothing is running. -/
def advanceTo (s : State) (now : ℕ) : State :=
  { s with stats := { s.stats with
      idleTicks := s.stats.idleTicks + (now - s.stats.totalTicks), totalTicks := now } }

/-- `Interrupt::CheckIfDue`, whose assertion fails unless interrupts are off. -/
def checkIfDue (handler : Handler) (fuel : ℕ) (s : State) (advanceClock : Bool) :
    Option (Bool × State) :=
  if s.level = IntOn then none
  else match s.pending with
    | [] => some (false, s)
    | next :: _ =>
      if s.stats.totalTicks < next.when ∧ advanceClock = false then some (false, s)
      else
        let s' := if s.stats.totalTicks < next.when then s.advanceTo next.when else s
        ({ s' with inHandler := true }.fire handler fuel).map fun s'' : State =>
          (true, { s'' with inHandler := false })

/-- The clock after one more instruction. -/
def tick (s : State) : State :=
  if s.status = .SystemMode then
    { s with stats := { s.stats with
        totalTicks := s.stats.totalTicks + SystemTick,
        systemTicks := s.stats.systemTicks + SystemTick } }
  else
    { s with stats := { s.stats with
        totalTicks := s.stats.totalTicks + UserTick,
        userTicks := s.stats.userTicks + UserTick } }

/-- `Interrupt::OneTick`, up to the call of `Yield`. The calls that the thread and its
successors make from there are further steps, and so is `status = oldStatus`. -/
def oneTick (handler : Handler) (s : State) : Option State :=
  ({ s.tick with level := IntOff }.checkIfDue handler s.pending.length false).map
    fun result : Bool × State =>
    let s' := { result.2 with level := IntOn }
    if s'.yieldOnReturn then { s' with yieldOnReturn := false, status := .SystemMode } else s'

/-- `Interrupt::SetLevel`. -/
def setLevel (handler : Handler) (s : State) (now : IntStatus) : Option State :=
  if now = IntOn ∧ s.inHandler = true then none
  else if now = IntOn ∧ s.level = IntOff then { s with level := now }.oneTick handler
  else some { s with level := now }

/-- `Interrupt::Idle`; the machine halts when nothing is pending. -/
def idle (handler : Handler) (s : State) : Option State :=
  ({ s with status := .IdleMode }.checkIfDue handler s.pending.length true).bind
    fun result : Bool × State =>
    if result.1 then some { result.2 with status := .SystemMode } else none

end State

inductive Label where
  | schedule (request : Request)
  | setLevel (now : IntStatus)
  | oneTick
  | idle
  | setStatus (status : MachineStatus)

def step (handler : Handler) (s : State) : Label → Option State
  | .schedule request => some (s.schedule request)
  | .setLevel now => s.setLevel handler now
  | .oneTick => s.oneTick handler
  | .idle => s.idle handler
  | .setStatus status => some { s with status := status }

/-- The order in which interrupts are to be invoked. -/
def Before (x y : PendingInterrupt) : Prop :=
  x.when < y.when ∨ (x.when = y.when ∧ x.number < y.number)

/-- The queue of pending interrupts and what has come of it. Any number of pending ones may be
due. -/
structure Queue (s : State) : Prop where
  ordered : (s.invoked.map Prod.fst ++ s.pending).Pairwise Before
  due : ∀ e ∈ s.invoked, e.1.when ≤ e.2 ∧ e.2 ≤ s.stats.totalTicks
  all : (s.invoked.map Prod.fst ++ s.pending).Perm s.scheduled
  numbers : s.scheduled.map PendingInterrupt.number = List.range s.scheduled.length
  ticks : s.stats.totalTicks = s.stats.idleTicks + s.stats.systemTicks + s.stats.userTicks
  sound : s.failed = false

/-- Nothing that is pending is due. -/
def Caught (s : State) : Prop := ∀ p ∈ s.pending, s.stats.totalTicks < p.when

section

variable {s s' : State} {handler : Handler}

theorem Queue.number_lt (h : Queue s) {p : PendingInterrupt} (hp : p ∈ s.pending) :
    p.number < s.scheduled.length := by
  have hmem : p ∈ s.scheduled := h.all.mem_iff.mp (List.mem_append_right _ hp)
  have hnumber : p.number ∈ s.scheduled.map PendingInterrupt.number := List.mem_map_of_mem hmem
  rw [h.numbers] at hnumber
  exact List.mem_range.mp hnumber

/-- The sorted insertion of the interrupt with the highest number. -/
theorem pairwise_orderedInsert {p : PendingInterrupt} {list : List PendingInterrupt}
    (h : list.Pairwise Before) (hnumber : ∀ q ∈ list, q.number < p.number) :
    (list.orderedInsert Sooner p).Pairwise Before := by
  induction list with
  | nil => exact List.pairwise_singleton ..
  | cons q list ih =>
    obtain ⟨hq, hlist⟩ := List.pairwise_cons.mp h
    rw [List.orderedInsert_cons]
    split_ifs with hpq
    · -- `p` is sooner than `q`, hence than all that follow
      refine List.pairwise_cons.mpr ⟨?_, h⟩
      intro r hr
      rcases List.mem_cons.mp hr with rfl | hr
      · exact .inl hpq
      · have hqr := hq r hr
        unfold Before at hqr
        unfold Sooner at hpq
        exact .inl (by omega)
    · refine List.pairwise_cons.mpr ⟨?_, ?_⟩
      · intro r hr
        rcases (List.mem_orderedInsert Sooner).mp hr with rfl | hr
        · have hnum := hnumber q List.mem_cons_self
          unfold Sooner at hpq
          unfold Before
          omega
        · exact hq r hr
      · exact ih hlist fun r hr => hnumber r (List.mem_cons_of_mem _ hr)

/-- What `Schedule` does: one more interrupt is pending, and not yet due. -/
structure Scheduled (s s' : State) : Prop where
  stats : s'.stats = s.stats
  level : s'.level = s.level
  inHandler : s'.inHandler = s.inHandler
  pending : (s'.pending.filter (·.when ≤ s.stats.totalTicks)).length =
    (s.pending.filter (·.when ≤ s.stats.totalTicks)).length
  queue : Queue s'

theorem Queue.schedule (h : Queue s) (request : Request) : Scheduled s (s.schedule request) := by
  have hfresh : ∀ q ∈ s.pending, q.number < s.scheduled.length := fun q hq => h.number_lt hq
  obtain ⟨p, hp⟩ : ∃ p : PendingInterrupt,
      p = ⟨s.scheduled.length, s.stats.totalTicks + request.fromNow, request.type⟩ := ⟨_, rfl⟩
  have hlate : s.stats.totalTicks < p.when := by
    rw [hp]
    exact Nat.lt_add_of_pos_right request.pos
  have hnew : p ∉ s.pending := by
    intro hmem
    have hlt := hfresh p hmem
    rw [hp] at hlt
    exact lt_irrefl _ hlt
  have heq : s.schedule request = { s with
      pending := s.pending.orderedInsert Sooner p, scheduled := s.scheduled ++ [p] } := by
    have hinsert : LinkedList.insert Sooner s.pending p = some (s.pending.orderedInsert Sooner p) :=
      if_neg hnew
    subst hp
    simp only [State.schedule, hinsert]
    rfl
  have hperm := List.perm_orderedInsert Sooner p s.pending
  rw [heq]
  refine ⟨rfl, rfl, rfl, ?_, ?_⟩
  · rw [(hperm.filter _).length_eq, List.filter_cons_of_neg (by simpa using hlate)]
  · obtain ⟨hinvoked, hpending, hcross⟩ := List.pairwise_append.mp h.ordered
    refine ⟨?_, h.due, ?_, ?_, h.ticks, h.sound⟩
    · refine List.pairwise_append.mpr ⟨hinvoked, ?_, ?_⟩
      · apply pairwise_orderedInsert hpending
        rw [hp]
        exact hfresh
      · intro x hx q hq
        rcases (List.mem_orderedInsert Sooner).mp hq with rfl | hq
        · obtain ⟨e, he, rfl⟩ := List.mem_map.mp hx
          have hdue := h.due e he
          exact .inl (by omega)
        · exact hcross x hx q hq
    · refine ((hperm.append_left _).trans List.perm_middle).trans ?_
      exact ((h.all.cons p).trans (List.perm_append_singleton p _).symm)
    · show (s.scheduled ++ [p]).map PendingInterrupt.number = List.range (s.scheduled ++ [p]).length
      rw [List.map_append, h.numbers, List.length_append, List.length_singleton, List.range_succ]
      rw [hp]
      rfl

theorem Queue.scheduleAll (h : Queue s) (requests : List Request) :
    Scheduled s (requests.foldl State.schedule s) := by
  induction requests generalizing s with
  | nil => exact ⟨rfl, rfl, rfl, rfl, h⟩
  | cons request requests ih =>
    have hone := h.schedule request
    have hrest := ih hone.queue
    refine ⟨hrest.stats.trans hone.stats, hrest.level.trans hone.level,
      hrest.inHandler.trans hone.inHandler, ?_, hrest.queue⟩
    have hcount := hrest.pending
    rw [hone.stats] at hcount
    exact hcount.trans hone.pending

/-- One turn of the loop: the front of the queue is served. -/
theorem Queue.invoke (handler : Handler) {next : PendingInterrupt} {rest : List PendingInterrupt}
    (h : Queue s) (hpending : s.pending = next :: rest) (hdue : next.when ≤ s.stats.totalTicks) :
    Scheduled { s with pending := rest } ({ s with pending := rest }.invoke handler next) := by
  obtain ⟨s₁, hs₁⟩ : ∃ s₁ : State, s₁ = { s with
      pending := rest, invoked := s.invoked ++ [(next, s.stats.totalTicks)] } := ⟨_, rfl⟩
  have hlist : (s.invoked ++ [(next, s.stats.totalTicks)]).map Prod.fst ++ rest =
      s.invoked.map Prod.fst ++ s.pending := by
    rw [hpending]
    simp
  have hqueue (yield : Bool) : Queue { s₁ with yieldOnReturn := yield } := by
    subst hs₁
    refine ⟨?_, ?_, ?_, h.numbers, h.ticks, h.sound⟩
    · rw [hlist]
      exact h.ordered
    · intro e he
      rcases List.mem_append.mp he with he | he
      · exact h.due e he
      · cases List.mem_singleton.mp he
        exact ⟨hdue, le_rfl⟩
    · rw [hlist]
      exact h.all
  have hall := (hqueue (s₁.yieldOnReturn || (handler s₁ next).2)).scheduleAll (handler s₁ next).1
  have heq : { s with pending := rest }.invoke handler next =
      (handler s₁ next).1.foldl State.schedule
        { s₁ with yieldOnReturn := s₁.yieldOnReturn || (handler s₁ next).2 } := by
    subst hs₁
    rfl
  rw [heq]
  subst hs₁
  exact ⟨hall.stats, hall.level, hall.inHandler, hall.pending, hall.queue⟩

/-- The first pending interrupt is the soonest. -/
theorem Queue.earliest {next : PendingInterrupt} {rest : List PendingInterrupt} (h : Queue s)
    (hpending : s.pending = next :: rest) : ∀ p ∈ s.pending, next.when ≤ p.when := by
  intro p hp
  have hsorted := (List.pairwise_append.mp h.ordered).2.1
  rw [hpending] at hp hsorted
  rcases List.mem_cons.mp hp with rfl | hp
  · exact le_rfl
  · have hbefore := List.rel_of_pairwise_cons hsorted hp
    unfold Before at hbefore
    omega

theorem Queue.caught (h : Queue s)
    (hfront : ∀ front ∈ s.pending.head?, s.stats.totalTicks < front.when) : Caught s := by
  intro p hp
  obtain ⟨next, rest, hpending⟩ := List.exists_cons_of_ne_nil (List.ne_nil_of_mem hp)
  have hnext := hfront next (by simp [hpending])
  exact hnext.trans_le (h.earliest hpending p hp)

/-- The interrupts that are due. -/
def State.due (s : State) : List PendingInterrupt :=
  s.pending.filter (·.when ≤ s.stats.totalTicks)

/-- One turn of the loop serves one due interrupt, and what its handler schedules is not due. -/
theorem Queue.turn (handler : Handler) {next : PendingInterrupt} {rest : List PendingInterrupt}
    (h : Queue s) (hpending : s.pending = next :: rest) (hdue : next.when ≤ s.stats.totalTicks) :
    ∃ s', Queue s' ∧ s'.stats = s.stats ∧ s'.level = s.level ∧
      s'.due.length + 1 = s.due.length ∧
      ∀ fuel, s.fire handler (fuel + 1) =
        if ∀ front ∈ s'.pending.head?, s'.stats.totalTicks < front.when then some s'
        else s'.fire handler fuel := by
  obtain ⟨hstats, hlevel, -, hcount, hqueue⟩ := h.invoke handler hpending hdue
  refine ⟨{ s with pending := rest }.invoke handler next, hqueue, hstats, hlevel, ?_, ?_⟩
  · have hs : s.due.length = (rest.filter (·.when ≤ s.stats.totalTicks)).length + 1 := by
      rw [State.due, hpending, List.filter_cons_of_pos (by simpa using hdue), List.length_cons]
    rw [State.due, hstats, hs]
    exact congrArg (· + 1) hcount
  · intro fuel
    rw [State.fire, hpending]
    rfl

/-- The loop ends after as many turns as interrupts are due, and then none is. -/
theorem Queue.fire (handler : Handler) {next : PendingInterrupt} {rest : List PendingInterrupt}
    (h : Queue s) (hpending : s.pending = next :: rest) (hdue : next.when ≤ s.stats.totalTicks) :
    ∃ s', (∀ fuel ≥ s.due.length, s.fire handler fuel = some s') ∧ Queue s' ∧ Caught s' ∧
      s'.stats = s.stats ∧ s'.level = s.level := by
  induction hturns : s.due.length generalizing s next rest with
  | zero =>
    obtain ⟨s', -, -, -, hless, -⟩ := h.turn handler hpending hdue
    omega
  | succ turns ih =>
    obtain ⟨s', hqueue, hstats, hlevel, hless, hfire⟩ := h.turn handler hpending hdue
    by_cases hfront : ∀ front ∈ s'.pending.head?, s'.stats.totalTicks < front.when
    · refine ⟨s', ?_, hqueue, hqueue.caught hfront, hstats, hlevel⟩
      intro fuel hfuel
      obtain ⟨fuel, rfl⟩ := Nat.exists_eq_add_of_le' hfuel
      rw [← Nat.add_assoc, hfire, if_pos hfront]
    · have hnot := hfront
      push Not at hfront
      obtain ⟨front, hhead, hdue'⟩ := hfront
      obtain ⟨rest', hpending'⟩ := List.head?_eq_some_iff.mp hhead
      obtain ⟨s'', hrest, hqueue', hcaught, hstats', hlevel'⟩ :=
        ih hqueue hpending' hdue' (by omega)
      refine ⟨s'', ?_, hqueue', hcaught, hstats'.trans hstats, hlevel'.trans hlevel⟩
      intro fuel hfuel
      obtain ⟨fuel, rfl⟩ := Nat.exists_eq_add_of_le' hfuel
      rw [← Nat.add_assoc, hfire, if_neg hnot]
      exact hrest (fuel + turns) (Nat.le_add_left ..)

/-- The clock may move forward at any time. -/
theorem Queue.later {stats : Statistics} (h : Queue s)
    (hlater : s.stats.totalTicks ≤ stats.totalTicks)
    (hticks : stats.totalTicks = stats.idleTicks + stats.systemTicks + stats.userTicks) :
    Queue { s with stats := stats } := by
  refine ⟨h.ordered, ?_, h.all, h.numbers, hticks, h.sound⟩
  intro e he
  exact ⟨(h.due e he).1, (h.due e he).2.trans hlater⟩

theorem Queue.advanceTo {now : ℕ} (h : Queue s) (hnow : s.stats.totalTicks ≤ now) :
    Queue (s.advanceTo now) := by
  apply h.later hnow
  have hticks := h.ticks
  show now =
    s.stats.idleTicks + (now - s.stats.totalTicks) + s.stats.systemTicks + s.stats.userTicks
  omega

theorem Queue.tick (h : Queue s) : Queue s.tick ∧ s.stats.totalTicks < s.tick.stats.totalTicks ∧
    s.tick.pending = s.pending ∧ s.tick.inHandler = s.inHandler := by
  have hticks := h.ticks
  unfold State.tick SystemTick UserTick
  split_ifs
  · refine ⟨h.later ?_ ?_, ?_, rfl, rfl⟩ <;> dsimp only <;> omega
  · refine ⟨h.later ?_ ?_, ?_, rfl, rfl⟩ <;> dsimp only <;> omega

/-- The flags of the machine do not matter to the queue. -/
theorem Queue.flags (h : Queue s) (level : IntStatus) (inHandler yieldOnReturn : Bool)
    (status : MachineStatus) :
    Queue { s with
      level := level, inHandler := inHandler, yieldOnReturn := yieldOnReturn, status := status } :=
  ⟨h.ordered, h.due, h.all, h.numbers, h.ticks, h.sound⟩

/-- When `CheckIfDue` returns: the earliest interrupt decides how far the clock moves. -/
def State.clock (s : State) (advanceClock : Bool) : ℕ :=
  s.pending.head?.elim s.stats.totalTicks fun next =>
    if s.stats.totalTicks < next.when ∧ advanceClock = true then next.when else s.stats.totalTicks

/-- What `CheckIfDue` leaves. -/
structure Checked (s : State) (advanceClock : Bool) (result : Bool × State) : Prop where
  queue : Queue result.2
  caught : Caught result.2
  clock : result.2.stats.totalTicks = s.clock advanceClock
  level : result.2.level = s.level
  inHandler : result.2.inHandler = false
  fired : result.1 = true ↔ ∃ next rest, s.pending = next :: rest ∧
    (next.when ≤ s.stats.totalTicks ∨ advanceClock = true)

theorem Queue.checkIfDue (handler : Handler) (h : Queue s) (hlevel : s.level = IntOff)
    (hhandler : s.inHandler = false) (advanceClock : Bool) :
    ∃ result, (∀ fuel ≥ s.pending.length,
      s.checkIfDue handler fuel advanceClock = some result) ∧ Checked s advanceClock result := by
  have hoff : ¬ s.level = IntOn := by
    rw [hlevel]
    decide
  cases hpending : s.pending with
  | nil =>
    refine ⟨(false, s), ?_, h, ?_, ?_, rfl, hhandler, ?_⟩
    · intro fuel _
      rw [State.checkIfDue, if_neg hoff, hpending]
    · intro p hp
      rw [hpending] at hp
      cases hp
    · simp [State.clock, hpending]
    · simp [hpending]
  | cons next rest =>
    have hhead : s.pending.head? = some next := by
      rw [hpending]
      rfl
    by_cases hwait : s.stats.totalTicks < next.when ∧ advanceClock = false
    · refine ⟨(false, s), ?_, h, ?_, ?_, rfl, hhandler, ?_⟩
      · intro fuel _
        simp only [State.checkIfDue, if_neg hoff, hpending, if_pos hwait]
      · apply h.caught
        intro front hfront
        rw [hhead] at hfront
        cases hfront
        exact hwait.1
      · simp [State.clock, hhead, hwait.2]
      · have hnot : ¬ next.when ≤ s.stats.totalTicks := not_le.mpr hwait.1
        simp [hpending, hwait.2, hnot]
    · -- the state in which the loop starts
      obtain ⟨s₁, hs₁⟩ : ∃ s₁ : State, s₁ = { (if s.stats.totalTicks < next.when then
        s.advanceTo next.when else s) with inHandler := true } := ⟨_, rfl⟩
      have hqueue : Queue s₁ := by
        rw [hs₁]
        split_ifs with hlt
        · exact (h.advanceTo hlt.le).flags ..
        · exact h.flags ..
      have hsame : s₁.pending = next :: rest ∧ s₁.level = s.level ∧
          s₁.stats.totalTicks = s.clock advanceClock := by
        rw [hs₁, ← hpending, State.clock, hhead]
        split_ifs with hlt
        · exact ⟨rfl, rfl, by simp_all [State.advanceTo]⟩
        · exact ⟨rfl, rfl, by simp [hlt]⟩
      have hdue : next.when ≤ s₁.stats.totalTicks := by
        rw [hsame.2.2, State.clock, hhead, Option.elim_some]
        split_ifs with hlt
        · exact le_rfl
        · simp_all
      obtain ⟨s₂, hfire, hqueue', hcaught, hstats, hlevel'⟩ := hqueue.fire handler hsame.1 hdue
      refine ⟨(true, { s₂ with inHandler := false }), ?_, hqueue'.flags .., hcaught, ?_, ?_, rfl,
        ?_⟩
      · intro fuel hfuel
        have hcount : s₁.due.length ≤ fuel := by
          refine le_trans (List.length_filter_le ..) ?_
          rw [hsame.1]
          exact hfuel
        simp only [State.checkIfDue, if_neg hoff, hpending, if_neg hwait]
        rw [← hs₁, hfire fuel hcount]
        rfl
      · exact (congrArg Statistics.totalTicks hstats).trans hsame.2.2
      · exact hlevel'.trans hsame.2.1
      · refine iff_of_true rfl ⟨next, rest, hpending, ?_⟩
        by_contra hcon
        simp_all

/-- The machine between two calls. -/
structure Settled (s : State) : Prop where
  queue : Queue s
  caught : Caught s
  outside : s.inHandler = false

theorem settled_start : Settled start := by
  refine ⟨⟨List.Pairwise.nil, ?_, List.Perm.refl _, rfl, rfl, rfl⟩, ?_, rfl⟩
  · intro e he
    cases he
  · intro p hp
    cases hp

theorem Settled.schedule (h : Settled s) (request : Request) : Settled (s.schedule request) := by
  have hone := h.queue.schedule request
  refine ⟨hone.queue, ?_, hone.inHandler.trans h.outside⟩
  intro p hp
  rw [hone.stats]
  by_contra hdue
  -- the due interrupts are as many as before, and there were none
  have hnone : s.pending.filter (·.when ≤ s.stats.totalTicks) = [] := by
    apply List.filter_eq_nil_iff.mpr
    intro q hq
    have hlate := h.caught q hq
    simpa using hlate
  have hcount := hone.pending
  rw [hnone, List.length_nil, List.length_eq_zero_iff, List.filter_eq_nil_iff] at hcount
  exact hcount p hp (by simpa using hdue)

theorem Settled.oneTick (handler : Handler) (h : Settled s) :
    ∃ s', s.oneTick handler = some s' ∧ Settled s' ∧ s'.level = IntOn ∧
      s'.stats.totalTicks = s.tick.stats.totalTicks := by
  obtain ⟨hqueue, -, hpending, houtside⟩ := h.queue.tick
  obtain ⟨s₁, hs₁⟩ : ∃ s₁ : State, s₁ = { s.tick with level := IntOff } := ⟨_, rfl⟩
  have hqueue₁ : Queue s₁ := hs₁ ▸ hqueue.flags ..
  have hlevel₁ : s₁.level = IntOff := hs₁ ▸ rfl
  have houtside₁ : s₁.inHandler = false := hs₁ ▸ houtside.trans h.outside
  obtain ⟨result, hcheck, hdone⟩ := hqueue₁.checkIfDue handler hlevel₁ houtside₁ false
  have hclock : result.2.stats.totalTicks = s.tick.stats.totalTicks := by
    rw [hdone.clock, State.clock, hs₁]
    cases s.tick.pending <;> simp
  have heq : s.oneTick handler = some (if result.2.yieldOnReturn then
      { result.2 with level := IntOn, yieldOnReturn := false, status := .SystemMode }
      else { result.2 with level := IntOn }) := by
    rw [State.oneTick, ← hs₁, hcheck s.pending.length (by rw [hs₁, hpending])]
    rfl
  refine ⟨_, heq, ?_, ?_, ?_⟩
  · split_ifs
    · exact ⟨hdone.queue.flags .., hdone.caught, hdone.inHandler⟩
    · exact ⟨hdone.queue.flags .., hdone.caught, hdone.inHandler⟩
  · split_ifs <;> rfl
  · split_ifs <;> exact hclock

theorem Settled.setLevel (handler : Handler) (h : Settled s) (now : IntStatus) :
    ∃ s', s.setLevel handler now = some s' ∧ Settled s' ∧ s'.level = now ∧
      s.stats.totalTicks ≤ s'.stats.totalTicks := by
  have hset : Settled { s with level := now } := ⟨h.queue.flags .., h.caught, h.outside⟩
  have hguard : ¬ (now = IntOn ∧ s.inHandler = true) := by
    rw [h.outside]
    simp
  unfold State.setLevel
  rw [if_neg hguard]
  split_ifs with hturned
  · obtain ⟨s', heq, hs', hlevel, hclock⟩ := hset.oneTick handler
    refine ⟨s', heq, hs', hlevel.trans hturned.1.symm, ?_⟩
    rw [hclock]
    exact hset.queue.tick.2.1.le
  · exact ⟨_, rfl, hset, rfl, le_rfl⟩

theorem Settled.idle (handler : Handler) (h : Settled s) (hlevel : s.level = IntOff) :
    (s.pending = [] → s.idle handler = none) ∧
    ∀ next rest, s.pending = next :: rest → ∃ s', s.idle handler = some s' ∧ Settled s' ∧
      s'.stats.totalTicks =
        if s.stats.totalTicks < next.when then next.when else s.stats.totalTicks := by
  obtain ⟨s₁, hs₁⟩ : ∃ s₁ : State, s₁ = { s with status := .IdleMode } := ⟨_, rfl⟩
  have hqueue₁ : Queue s₁ := hs₁ ▸ h.queue.flags ..
  have hpending₁ : s₁.pending = s.pending := hs₁ ▸ rfl
  obtain ⟨result, hcheck, hdone⟩ :=
    hqueue₁.checkIfDue handler (hs₁ ▸ hlevel) (hs₁ ▸ h.outside) true
  have heq : s.idle handler =
      if result.1 then some { result.2 with status := .SystemMode } else none := by
    rw [State.idle, ← hs₁, hcheck s.pending.length (by rw [hpending₁])]
    rfl
  have hfired := hdone.fired
  rw [hpending₁] at hfired
  constructor
  · intro hnil
    rw [heq, if_neg]
    rw [hfired, hnil]
    simp
  · intro next rest hcons
    rw [heq, if_pos (hfired.mpr ⟨next, rest, hcons, .inr rfl⟩)]
    refine ⟨_, rfl, ⟨hdone.queue.flags .., hdone.caught, hdone.inHandler⟩, ?_⟩
    have hclock := hdone.clock
    rw [State.clock, hpending₁, hcons, hs₁] at hclock
    simpa using hclock

theorem step_settled {handler : Handler} {label : Label} (h : Settled s)
    (hstep : step handler s label = some s') :
    Settled s' ∧ s.stats.totalTicks ≤ s'.stats.totalTicks := by
  cases label with
  | schedule request =>
    cases hstep
    exact ⟨h.schedule request, (congrArg Statistics.totalTicks (h.queue.schedule request).stats).ge⟩
  | setLevel now =>
    obtain ⟨s₁, heq, hs₁, -, hclock⟩ := h.setLevel handler now
    cases heq.symm.trans hstep
    exact ⟨hs₁, hclock⟩
  | oneTick =>
    obtain ⟨s₁, heq, hs₁, -, hclock⟩ := h.oneTick handler
    cases heq.symm.trans hstep
    rw [hclock]
    exact ⟨hs₁, h.queue.tick.2.1.le⟩
  | idle =>
    have hlevel : s.level = IntOff := by
      cases hs : s.level with
      | IntOff => rfl
      | IntOn => simp [step, State.idle, State.checkIfDue, hs] at hstep
    obtain ⟨hhalt, hidle⟩ := h.idle handler hlevel
    cases hpending : s.pending with
    | nil => cases (hhalt hpending).symm.trans hstep
    | cons next rest =>
      obtain ⟨s₁, heq, hs₁, hclock⟩ := hidle next rest hpending
      cases heq.symm.trans hstep
      rw [hclock]
      refine ⟨hs₁, ?_⟩
      split_ifs with hlt
      · exact hlt.le
      · exact le_rfl
  | setStatus status =>
    cases hstep
    exact ⟨⟨h.queue.flags .., h.caught, h.outside⟩, le_rfl⟩

/-- The interrupt simulation is an event queue. -/
structure EventQueue (handler : Handler) (s : State) : Prop where
  asserted : s.failed = false
  ticks : s.stats.totalTicks = s.stats.idleTicks + s.stats.systemTicks + s.stats.userTicks
  forward : ∀ label s', step handler s label = some s' → s.stats.totalTicks ≤ s'.stats.totalTicks
  numbers : s.scheduled.map PendingInterrupt.number = List.range s.scheduled.length
  accounted : (s.invoked.map Prod.fst ++ s.pending).Perm s.scheduled
  once : (s.invoked.map Prod.fst ++ s.pending).Nodup
  notEarly : ∀ e ∈ s.invoked, e.1.when ≤ e.2
  ordered : (s.invoked.map Prod.fst ++ s.pending).Pairwise Before
  /-- Every call of `CheckIfDue` returns, whether from `Idle` or from `OneTick`. -/
  checked : ∀ t ∈ [s, s.tick], ∀ advanceClock, ∃ result,
    (∀ fuel ≥ t.pending.length,
      { t with level := IntOff }.checkIfDue handler fuel advanceClock = some result) ∧
    Caught result.2
  caught : Caught s
  setLevel : ∀ now, (s.setLevel handler now).isSome = true
  oneTick : (s.oneTick handler).isSome = true
  idle : ∀ next rest, s.pending = next :: rest → s.level = IntOff →
    (∀ p ∈ s.pending, next.when ≤ p.when) ∧
    ∃ s', s.idle handler = some s' ∧ s'.stats.totalTicks =
      if s.stats.totalTicks < next.when then next.when else s.stats.totalTicks

theorem Queue.nodup (h : Queue s) : (s.invoked.map Prod.fst ++ s.pending).Nodup := by
  refine h.ordered.imp ?_
  intro x y hxy heq
  rw [heq] at hxy
  unfold Before at hxy
  omega

theorem Settled.eventQueue (handler : Handler) (h : Settled s) : EventQueue handler s where
  asserted := h.queue.sound
  ticks := h.queue.ticks
  forward _ _ hstep := (step_settled h hstep).2
  numbers := h.queue.numbers
  accounted := h.queue.all
  once := h.queue.nodup
  notEarly e he := (h.queue.due e he).1
  ordered := h.queue.ordered
  checked := by
    intro t ht advanceClock
    have hqueue : Queue t ∧ t.inHandler = false := by
      rcases List.mem_pair.mp ht with rfl | rfl
      · exact ⟨h.queue, h.outside⟩
      · exact ⟨h.queue.tick.1, h.queue.tick.2.2.2.trans h.outside⟩
    obtain ⟨result, hcheck, hdone⟩ :=
      (hqueue.1.flags IntOff t.inHandler t.yieldOnReturn t.status).checkIfDue handler rfl
        hqueue.2 advanceClock
    exact ⟨result, hcheck, hdone.caught⟩
  caught := h.caught
  setLevel now := by
    obtain ⟨s', heq, -⟩ := h.setLevel handler now
    rw [heq]
    rfl
  oneTick := by
    obtain ⟨s', heq, -⟩ := h.oneTick handler
    rw [heq]
    rfl
  idle next rest hpending hlevel := by
    obtain ⟨s', heq, -, hclock⟩ := (h.idle handler hlevel).2 next rest hpending
    exact ⟨h.queue.earliest hpending, s', heq, hclock⟩

/-- Whatever the kernel and the devices ask for, and in whatever order. -/
theorem interrupts_in_order (handler : Handler)
    (h : Runs.Reach (step handler) (fun _ _ => True) start s) : EventQueue handler s := by
  apply Settled.eventQueue
  apply h.invariant settled_start
  intro s label s' hs _ hstep
  exact (step_settled hs hstep).1

theorem delay_pos (randomize : Bool) (random : ℕ) :
    0 < if randomize then 1 + random % (TimerTicks * 2) else TimerTicks := by
  split_ifs
  · omega
  · decide

/-- `Timer::SetInterrupt`, with what `RandomNumber` answers. -/
def setInterrupt (disable randomize : Bool) (random : ℕ) : List Request :=
  if disable then []
  else [⟨if randomize then 1 + random % (TimerTicks * 2) else TimerTicks, .TimerInt,
    delay_pos randomize random⟩]

/-- A timer that runs at fixed intervals and switches threads; other devices stay silent. -/
def timerOnly : Handler := fun _ next =>
  if next.type = .TimerInt then (setInterrupt false false 0, true) else ([], false)

/-- The disk is done at the same time as the timer, and asked later. -/
def timerAndDisk : List Label :=
  [.schedule ⟨100, .TimerInt, by decide⟩, .setLevel IntOn, .schedule ⟨90, .DiskInt, by decide⟩,
    .setStatus .UserMode, .oneTick, .setLevel IntOff, .idle, .idle]

theorem interrupts_in_order_timerAndDisk :
    ∃ s, Runs.exec (step timerOnly) start timerAndDisk = some s ∧
      s.invoked = [(⟨0, 100, .TimerInt⟩, 100), (⟨1, 100, .DiskInt⟩, 100),
        (⟨2, 200, .TimerInt⟩, 200)] ∧
      s.stats = ⟨200, 189, 10, 1⟩ ∧ EventQueue timerOnly s := by
  have hview : (Runs.exec (step timerOnly) start timerAndDisk).map
      (fun s => (s.invoked, s.stats)) =
      some ([(⟨0, 100, .TimerInt⟩, 100), (⟨1, 100, .DiskInt⟩, 100), (⟨2, 200, .TimerInt⟩, 200)],
        ⟨200, 189, 10, 1⟩) := by
    decide +kernel
  obtain ⟨s, hs, hv⟩ := Option.map_eq_some_iff.mp hview
  obtain ⟨hinvoked, hstats⟩ := by simpa only [Prod.mk.injEq] using hv
  exact ⟨s, hs, hinvoked, hstats, interrupts_in_order timerOnly (Runs.reach_of_exec hs)⟩

end

end Interrupt
end Nachos

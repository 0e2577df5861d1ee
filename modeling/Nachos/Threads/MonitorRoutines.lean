import Nachos.Threads.MonitorSafety

/-! What a client of a lock and a condition knows between its calls: which routine it is in,
that it holds the lock when the routine returns, and who is on the way back from `Wait`. -/
namespace Nachos.Monitor

/-- The routine a thread is in. -/
def Pc.routine : Pc → Option Routine
  | .outside => none
  | .acquireP .client | .acquireSet .client => some .acquire
  | .releaseTest .client | .releaseV .client => some .release
  | .signalTest none | .signalRemove _ none | .signalV _ _ none | .signalReturn _ none =>
    some .signal
  | .signalTest (some _) | .signalRemove _ (some _) | .signalV _ _ (some _)
  | .signalReturn _ (some _) | .broadcastTest _ | .broadcastReturn _ => some .broadcast
  | .acquireP (.wait _) | .acquireSet (.wait _) | .releaseTest (.wait _) | .releaseV (.wait _)
  | .waitAppend _ | .waitP _ | .waitDelete _ => some .wait

/-- The semaphore of a `Wait` whose caller has not got the lock back. -/
def Pc.pending : Pc → Option WaiterId
  | .waitAppend w | .releaseTest (.wait w) | .releaseV (.wait w) | .waitP w
  | .acquireP (.wait w) | .acquireSet (.wait w) => some w
  | _ => none

def Event.reacquires : Event → Option WaiterId
  | .reacquired _ w => some w
  | _ => none

/-- The waiters that got the lock back. -/
def reacquired (log : List Event) : List WaiterId := log.filterMap Event.reacquires

/-- The waiters that have been released and have not got the lock back. -/
def coming (log : List Event) : List WaiterId :=
  (released log).filter fun w => w ∉ reacquired log

/-- Who is on the way back. -/
structure ComingInv (s : State) : Prop where
  pending : ∀ t w, (s.pc t).pending = some w → w ∉ reacquired s.log
  owner : ∀ w ∈ enqueued s.log, w ∉ reacquired s.log → ∃ t, (s.pc t).pending = some w
  fresh : ∀ w ∈ reacquired s.log, w < s.next

section

variable {s s' : State} {t : ThreadId} {pc : Pc} {token : Option ThreadId}

/-- A routine runs until it returns. -/
theorem Move.routine (hm : Move s t s') (hin : s.pc t ≠ .outside) :
    s'.pc t = .outside ∨ (s'.pc t).routine = (s.pc t).routine := by
  cases hm <;> simp only [State.goto, Function.update_self]
  case goto hpc _ => exact (hin hpc).elim
  case newWaiter hpc _ => exact (hin hpc).elim
  case broadcastNone hpc => exact (hin hpc).elim
  case broadcastSome hpc _ => exact (hin hpc).elim
  case waitDelete w hpc => exact .inl trivial
  case broadcastReturn call hpc => exact .inl trivial
  case lockTaken caller hpc _ => cases caller <;> rw [hpc] <;> exact .inr rfl
  case lockQueued caller hpc => exact .inr (by rw [hpc])
  case acquireSet caller hpc =>
    cases caller <;> rw [hpc] <;> first | exact .inl rfl | exact .inr rfl
  case releaseTest caller hpc _ => cases caller <;> rw [hpc] <;> exact .inr rfl
  case releaseV caller hpc => cases caller <;> rw [hpc] <;> first | exact .inl rfl | exact .inr rfl
  case waitAppend w hpc => exact .inr (by rw [hpc]; rfl)
  case waiterTaken w sem hpc _ _ => exact .inr (by rw [hpc]; rfl)
  case waiterQueued w sem hpc _ _ _ => exact .inr (by rw [hpc])
  case signalNone loop hpc _ _ => cases loop <;> rw [hpc] <;> exact .inr rfl
  case signalSome loop hpc _ _ => cases loop <;> rw [hpc] <;> exact .inr rfl
  case signalRemove w queue queued loop hpc _ => cases loop <;> rw [hpc] <;> exact .inr rfl
  case signalV w sem queued loop hpc _ => cases loop <;> rw [hpc] <;> exact .inr rfl
  case signalReturn call loop hpc =>
    cases loop <;> rw [hpc] <;> first | exact .inl rfl | exact .inr rfl
  case broadcastEnd call hpc _ => exact .inr (by rw [hpc]; rfl)
  case broadcastNext call hpc _ => exact .inr (by rw [hpc]; rfl)

/-- `Acquire`, `Wait` and `Signal` return with the lock held. -/
theorem Move.returns (hm : Move s t s') (hl : LockInv s token) (hreturn : s'.pc t = .outside)
    (hr : (s.pc t).routine = some .acquire ∨ (s.pc t).routine = some .wait ∨
      (s.pc t).routine = some .signal) : s'.Held t := by
  have holding (hp : (s.pc t).holding = true) : s.Held t := hl.holding t hp
  cases hm <;> simp only [State.goto, Function.update_self] at hreturn
  case acquireSet caller hpc => rfl
  case waitDelete w hpc => exact holding (by rw [hpc]; rfl)
  case signalReturn call loop hpc => exact holding (by rw [hpc]; rfl)
  case releaseV caller hpc =>
    cases caller with
    | client =>
      rw [hpc] at hr
      rcases hr with hr | hr | hr <;> cases hr
    | wait w => cases hreturn
  case broadcastReturn call hpc =>
    rw [hpc] at hr
    rcases hr with hr | hr | hr <;> cases hr
  case goto hpc hpc' => rcases hpc' with rfl | rfl | rfl <;> cases hreturn
  all_goals cases hreturn

/-- Where a routine other than `Broadcast` starts. -/
def Routine.entry (next : WaiterId) : Routine → Pc
  | .acquire => .acquireP .client
  | .release => .releaseTest .client
  | .wait => .waitAppend next
  | .signal | .broadcast => .signalTest none

/-- A disciplined call only starts its routine. -/
theorem step_call {routine : Routine} (hs : step s (.call t routine) = some s')
    (hheld : routine ≠ .acquire → s.Held t) (hroutine : routine ≠ .broadcast) :
    s.pc t = .outside ∧ Move s t s' ∧ s'.lock = s.lock ∧ s'.waitQueue = s.waitQueue ∧
      s'.log = s.log ∧ s'.pc t = routine.entry s.next := by
  obtain ⟨hfailure, -⟩ := step_result hs
  rw [step, if_neg (by simp [hfailure])] at hs
  obtain ⟨hpc, he⟩ := Option.ite_none_right_eq_some.mp hs
  cases he
  cases routine with
  | acquire => exact ⟨hpc, .goto hpc (by simp), rfl, rfl, rfl, Function.update_self ..⟩
  | release => exact ⟨hpc, .goto hpc (by simp), rfl, rfl, rfl, Function.update_self ..⟩
  | wait =>
    have held := hheld (by simp)
    simp only [State.enter, if_pos held]
    exact ⟨hpc, .newWaiter hpc held, trivial, trivial, trivial, Function.update_self ..⟩
  | signal => exact ⟨hpc, .goto hpc (by simp), rfl, rfl, rfl, Function.update_self ..⟩
  | broadcast => exact (hroutine rfl).elim

/-- Only the call of `Wait` leads to its first statement. -/
theorem Move.waitAppend_ne (hm : Move s t s') (hin : s.pc t ≠ .outside) {w : WaiterId} :
    s'.pc t ≠ .waitAppend w := by
  intro hw
  cases hm <;> simp only [State.goto, Function.update_self] at hw
  case goto hpc _ => exact hin hpc
  case newWaiter hpc _ => exact hin hpc
  case acquireSet caller hpc => cases caller <;> cases hw
  case releaseV caller hpc => cases caller <;> cases hw
  case signalReturn call loop hpc => cases loop <;> cases hw
  all_goals cases hw

@[simp]
theorem mem_reacquired {log : List Event} {w : WaiterId} :
    w ∈ reacquired log ↔ ∃ t, .reacquired t w ∈ log := by
  simp only [reacquired, List.mem_filterMap]
  constructor
  · rintro ⟨e, he, hw⟩
    cases e <;> cases hw
    exact ⟨_, he⟩
  · rintro ⟨t, he⟩
    exact ⟨_, he, rfl⟩

/-- Moves of a thread that is, or is not, on its way back as before. -/
theorem ComingInv.goto (h : ComingInv s) (hpc : s'.pc = Function.update s.pc t pc)
    (hpending : pc.pending = (s.pc t).pending)
    (hreacquired : reacquired s'.log = reacquired s.log) (hnext : s.next ≤ s'.next)
    (hnew : ∀ w ∈ enqueued s'.log, w ∈ enqueued s.log ∨ pc.pending = some w) : ComingInv s' := by
  have hsame (u : ThreadId) : (s'.pc u).pending = (s.pc u).pending := by
    rw [hpc]
    rcases update_cases s.pc t pc u with ⟨rfl, he⟩ | ⟨-, he⟩
    · rw [he, hpending]
    · rw [he]
  refine ⟨?_, ?_, ?_⟩
  · intro u w hu
    rw [hreacquired]
    exact h.pending u w ((hsame u).symm.trans hu)
  · intro w hw hnot
    rw [hreacquired] at hnot
    rcases hnew w hw with hw | hw
    · obtain ⟨u, hu⟩ := h.owner w hw hnot
      exact ⟨u, (hsame u).trans hu⟩
    · exact ⟨t, (hsame t).trans (hpending.symm.trans hw)⟩
  · rw [hreacquired]
    intro w hw
    exact (h.fresh w hw).trans_le hnext

theorem Pc.waiting_of_pending {w : WaiterId} (h : pc.pending = some w) :
    ∃ phase, pc.waiting = some (w, phase) := by
  cases pc with
  | acquireP caller | acquireSet caller | releaseTest caller | releaseV caller =>
    cases caller <;> cases h
    exact ⟨_, rfl⟩
  | waitAppend v | waitP v =>
    cases h
    exact ⟨_, rfl⟩
  | _ => cases h

theorem Pc.pending_of_asleep {w : WaiterId} (h : pc.waiting = some (w, .asleep)) :
    pc.pending = some w := by
  cases pc with
  | acquireP caller | acquireSet caller | releaseTest caller | releaseV caller =>
    cases caller <;> cases h
  | waitP v =>
    cases h
    rfl
  | _ => cases h

/-- A thread allocates the semaphore it is going to wait for. -/
theorem ComingInv.created (h : ComingInv s) (hpc : s.pc t = .outside) :
    ComingInv { s with
      waiter := Function.update s.waiter s.next (some (Semaphore.new 0)), next := s.next + 1,
      pc := Function.update s.pc t (.waitAppend s.next) } := by
  refine ⟨?_, ?_, ?_⟩
  · intro u w hu
    rcases update_cases s.pc t (.waitAppend s.next) u with ⟨-, he⟩ | ⟨-, he⟩
    · cases (congrArg Pc.pending he).symm.trans hu
      exact fun hmem => lt_irrefl _ (h.fresh _ hmem)
    · exact h.pending u w ((congrArg Pc.pending he).symm.trans hu)
  · intro w hw hnot
    obtain ⟨u, hu⟩ := h.owner w hw hnot
    have hut : u ≠ t := by
      rintro rfl
      rw [hpc] at hu
      cases hu
    exact ⟨u, (congrArg Pc.pending (Function.update_of_ne hut ..)).trans hu⟩
  · intro w hw
    exact (h.fresh w hw).trans (Nat.lt_succ_self _)

/-- A waiter gets the lock back. -/
theorem ComingInv.reacquired {w : WaiterId} (h : ComingInv s) (hw : WaiterInv s)
    (hpc : s.pc t = .acquireSet (.wait w)) (hpc' : s'.pc = Function.update s.pc t (.waitDelete w))
    (hlog : s'.log = s.log ++ [.reacquired t w]) (hnext : s'.next = s.next) : ComingInv s' := by
  have hreacquired : Monitor.reacquired s'.log = Monitor.reacquired s.log ++ [w] := by
    simp [hlog, Monitor.reacquired, Event.reacquires]
  have henqueued : enqueued s'.log = enqueued s.log := by
    simp [hlog, enqueued, Event.enqueues]
  have hself : (s.pc t).pending = some w := by rw [hpc]; rfl
  refine ⟨?_, ?_, ?_⟩
  · intro u v hu hmem
    rw [hpc'] at hu
    rcases update_cases s.pc t (.waitDelete w) u with ⟨-, he⟩ | ⟨hne, he⟩ <;> rw [he] at hu
    · cases hu
    rw [hreacquired] at hmem
    rcases List.mem_append.mp hmem with hmem | hmem
    · exact h.pending u v hu hmem
    · cases List.mem_singleton.mp hmem
      obtain ⟨phase, hwait⟩ := Pc.waiting_of_pending hu
      obtain ⟨phase', hwait'⟩ := Pc.waiting_of_pending hself
      exact hne (hw.unique u t w _ _ hwait hwait')
  · intro v hv hnot
    rw [henqueued] at hv
    rw [hreacquired, List.mem_append, not_or] at hnot
    obtain ⟨u, hu⟩ := h.owner v hv hnot.1
    have hut : u ≠ t := by
      rintro rfl
      cases hself.symm.trans hu
      exact hnot.2 (List.mem_singleton_self _)
    exact ⟨u, by rw [hpc', Function.update_of_ne hut]; exact hu⟩
  · rw [hreacquired, hnext]
    intro v hv
    rcases List.mem_append.mp hv with hv | hv
    · exact h.fresh v hv
    · cases List.mem_singleton.mp hv
      obtain ⟨phase, hwait⟩ := Pc.waiting_of_pending hself
      exact (hw.stage t w phase hwait).1

theorem ComingInv.move (h : ComingInv s) (hw : WaiterInv s) (hm : Move s t s') :
    ComingInv s' := by
  have quiet {pc : Pc} (hpending : pc.pending = (s.pc t).pending) : ComingInv (s.goto t pc) :=
    h.goto rfl hpending rfl le_rfl fun _ hw => .inl hw
  cases hm with
  | goto hpc hpc' =>
    apply quiet
    rw [hpc]
    rcases hpc' with rfl | rfl | rfl <;> rfl
  | newWaiter hpc held => exact h.created hpc
  | broadcastNone hpc => exact quiet (by rw [hpc]; rfl)
  | broadcastSome hpc hqueue => exact quiet (by rw [hpc]; rfl)
  | @lockTaken caller hpc hvalue =>
    refine h.goto rfl ?_ rfl le_rfl fun _ hw => .inl hw
    rw [hpc]
    cases caller <;> rfl
  | lockQueued hpc => exact h.goto rfl (by rw [hpc]) rfl le_rfl fun _ hw => .inl hw
  | @acquireSet caller hpc =>
    cases caller with
    | client =>
      have hlog : s.log ++ Caller.client.acquired t = s.log := List.append_nil _
      refine h.goto rfl (by rw [hpc]; rfl) ?_ le_rfl ?_ <;> dsimp only <;> rw [hlog]
      exact fun _ hw => .inl hw
    | wait w => exact h.reacquired hw hpc rfl rfl rfl
  | @releaseTest caller hpc held =>
    refine h.goto rfl ?_ rfl le_rfl fun _ hw => .inl hw
    rw [hpc]
    cases caller <;> rfl
  | @releaseV caller hpc =>
    refine h.goto rfl ?_ rfl le_rfl fun _ hw => .inl hw
    rw [hpc]
    cases caller <;> rfl
  | @waitAppend w hpc =>
    refine h.goto rfl (by rw [hpc]; rfl) ?_ le_rfl ?_
    · simp [Monitor.reacquired, Event.reacquires]
    · intro v hv
      have henqueued : enqueued (s.log ++ [.enqueued t w]) = enqueued s.log ++ [w] := by
        simp [enqueued, Event.enqueues]
      dsimp only at hv
      rw [henqueued] at hv
      rcases List.mem_append.mp hv with hv | hv
      · exact .inl hv
      · cases List.mem_singleton.mp hv
        exact .inr rfl
  | waiterTaken hpc hsem hvalue =>
    exact h.goto rfl (by rw [hpc]; rfl) rfl le_rfl fun _ hw => .inl hw
  | waiterQueued hpc hsem hawake hvalue =>
    exact h.goto rfl (by rw [hpc]) rfl le_rfl fun _ hw => .inl hw
  | waitDelete hpc =>
    refine h.goto rfl (by rw [hpc]; rfl) ?_ le_rfl ?_
    · simp [Monitor.reacquired, Event.reacquires]
    · intro v hv
      exact .inl ((sameQueue_returned _ _ _).1 ▸ hv)
  | signalNone hpc held hqueue => exact quiet (by rw [hpc]; rfl)
  | signalSome hpc held hqueue => exact quiet (by rw [hpc]; rfl)
  | signalRemove hpc hqueue =>
    exact h.goto rfl (by rw [hpc]; rfl) rfl le_rfl fun _ hw => .inl hw
  | @signalV w sem queued loop hpc hsem =>
    refine h.goto rfl (by rw [hpc]; rfl) ?_ le_rfl ?_
    · simp [Monitor.reacquired, Event.reacquires]
    · intro v hv
      simp only [mem_enqueued, List.mem_append, List.mem_singleton, reduceCtorEq, or_false] at hv
      exact .inl (mem_enqueued.mpr hv)
  | @signalReturn call loop hpc =>
    apply quiet
    rw [hpc]
    cases loop <;> rfl
  | broadcastEnd hpc hqueue => exact quiet (by rw [hpc]; rfl)
  | broadcastNext hpc hqueue => exact quiet (by rw [hpc]; rfl)
  | broadcastReturn hpc => exact quiet (by rw [hpc]; rfl)

theorem comingInv_start : ComingInv start := ⟨nofun, nofun, nofun⟩

theorem coming_nodup (hq : QueueInv s) : (coming s.log).Nodup := by
  have hnodup := hq.nodup
  rw [hq.fifo, List.append_assoc] at hnodup
  exact (List.nodup_append.mp hnodup).1.filter _

/-- A release puts one more waiter on its way. -/
theorem coming_released {log : List Event} {w : WaiterId} (hw : w ∉ reacquired log) :
    coming (log ++ [.released w]) = coming log ++ [w] := by
  have hreacquired : reacquired (log ++ [.released w]) = reacquired log := by
    simp [reacquired, Event.reacquires]
  have hreleased : released (log ++ [.released w]) = released log ++ [w] := by
    simp [released, Event.releases]
  unfold coming
  rw [hreacquired, hreleased, List.filter_append]
  simp [hw]

/-- One that gets the lock back is no longer on its way. -/
theorem coming_reacquired {log : List Event} {w : WaiterId} (hnodup : (coming log).Nodup)
    (hreleased : .released w ∈ log) (hw : w ∉ reacquired log) :
    (coming (log ++ [.reacquired t w])).length + 1 = (coming log).length := by
  have hmem : w ∈ coming log := by
    unfold coming
    rw [List.mem_filter]
    exact ⟨mem_released.mpr hreleased, by simpa using hw⟩
  have herase : coming (log ++ [.reacquired t w]) = (coming log).erase w := by
    rw [hnodup.erase_eq_filter]
    unfold coming
    rw [List.filter_filter]
    have hsame : released (log ++ [.reacquired t w]) = released log := by
      simp [released, Event.releases]
    rw [hsame]
    apply List.filter_congr
    intro v _
    have hadd : reacquired (log ++ [.reacquired t w]) = reacquired log ++ [w] := by
      simp [reacquired, Event.reacquires]
    rw [hadd]
    rw [Bool.eq_iff_iff]
    simp only [List.mem_append, List.mem_singleton, not_or, decide_eq_true_eq, Bool.and_eq_true,
      bne_iff_ne]
    exact and_comm
  rw [herase]
  exact List.length_erase_add_one hmem

/-- The thread has been released from `Wait` and is about to get the lock back. -/
def Returning (s : State) (t : ThreadId) (w : WaiterId) : Prop :=
  .released w ∈ s.log ∧
    (s.pc t = .waitP w ∨ s.pc t = .acquireP (.wait w) ∨ s.pc t = .acquireSet (.wait w))

/-- Every waiter on its way is a thread of its own. -/
theorem returning_of_coming {w : WaiterId} (hi : Inv s token) (hc : ComingInv s)
    (hw : w ∈ coming s.log) : ∃ t, Returning s t w := by
  obtain ⟨hreleased, hnot⟩ := List.mem_filter.mp hw
  rw [mem_released] at hreleased
  obtain ⟨u, hu⟩ := hi.queue.enqueued_of_released hreleased
  obtain ⟨t, ht⟩ := hc.owner w (mem_enqueued.mpr ⟨u, hu⟩) (by simpa using hnot)
  refine ⟨t, hreleased, ?_⟩
  obtain ⟨phase, hphase⟩ := Pc.waiting_of_pending ht
  obtain ⟨-, sem, -, hstage⟩ := hi.waiter.stage t w phase hphase
  cases hpc : s.pc t with
  | acquireP caller | acquireSet caller =>
    rw [hpc] at ht
    cases caller <;> cases ht
    simp
  | releaseTest caller | releaseV caller =>
    rw [hpc] at ht hphase
    cases caller <;> cases ht
    cases hphase
    exact (hstage.2.1 hreleased).elim
  | waitAppend v =>
    rw [hpc] at ht hphase
    cases ht
    cases hphase
    exact (hstage.1 u hu).elim
  | waitP v =>
    rw [hpc] at ht
    cases ht
    simp
  | _ =>
    rw [hpc] at ht
    cases ht

theorem Returning.unique {w w' : WaiterId} (h : Returning s t w) (h' : Returning s t w') :
    w = w' := by
  obtain ⟨-, h | h | h⟩ := h <;> obtain ⟨-, h' | h' | h'⟩ := h' <;> cases h.symm.trans h' <;> rfl

/-- Distinct elements of a list belong to distinct owners. -/
theorem exists_owners {α β : Type*} {P : α → β → Prop} {ws : List β} (hnodup : ws.Nodup)
    (howner : ∀ w ∈ ws, ∃ t, P t w) (hunique : ∀ t w w', P t w → P t w' → w = w') :
    ∃ ts : List α, ts.Nodup ∧ ts.length = ws.length ∧ ∀ t ∈ ts, ∃ w ∈ ws, P t w := by
  induction ws with
  | nil => exact ⟨[], List.nodup_nil, rfl, nofun⟩
  | cons w ws ih =>
    obtain ⟨hw, hnodup⟩ := List.nodup_cons.mp hnodup
    obtain ⟨ts, hts, hlength, hall⟩ := ih hnodup fun v hv => howner v (List.mem_cons_of_mem _ hv)
    obtain ⟨t, ht⟩ := howner w List.mem_cons_self
    refine ⟨t :: ts, List.nodup_cons.mpr ⟨?_, hts⟩, by simp [hlength], ?_⟩
    · intro hmem
      obtain ⟨v, hv, hv'⟩ := hall t hmem
      cases hunique t w v ht hv'
      exact hw hv
    · intro u hu
      rcases List.mem_cons.mp hu with rfl | hu
      · exact ⟨w, List.mem_cons_self, ht⟩
      · obtain ⟨v, hv, hv'⟩ := hall u hu
        exact ⟨v, List.mem_cons_of_mem _ hv, hv'⟩

/-- As many threads as there are waiters on their way. -/
theorem exists_returning (hi : Inv s token) (hc : ComingInv s) :
    ∃ ts : List ThreadId, ts.Nodup ∧ ts.length = (coming s.log).length ∧
      ∀ t ∈ ts, ∃ w ∈ coming s.log, Returning s t w :=
  exists_owners (coming_nodup hi.queue) (fun _ => returning_of_coming hi hc)
    fun _ _ _ => Returning.unique

/-- The other events do not matter. -/
theorem coming_append {log events : List Event} (hreleased : events.filterMap Event.releases = [])
    (hreacquired : events.filterMap Event.reacquires = []) :
    coming (log ++ events) = coming log := by
  unfold coming released reacquired
  rw [List.filterMap_append, List.filterMap_append, hreleased, hreacquired, List.append_nil,
    List.append_nil]

theorem Pc.outside_of_routine (h : pc.routine = none) : pc = .outside := by
  cases pc with
  | outside => rfl
  | acquireP caller | acquireSet caller | releaseTest caller | releaseV caller =>
    cases caller <;> cases h
  | signalTest loop | signalRemove _ loop | signalV _ _ loop | signalReturn _ loop =>
    cases loop <;> cases h
  | _ => cases h

/-- What a client knows of its thread: the routine it is in until it returns, and whether it
holds the lock when it is in none. -/
def Fits (s : State) (t : ThreadId) (routine : Option Routine) (holds : Prop) : Prop :=
  ((s.pc t).routine = routine ∨ s.pc t = .outside) ∧ (s.pc t = .outside → holds → s.Held t)

theorem Fits.outside {holds : Prop} (h : Fits s t none holds) : s.pc t = .outside :=
  h.1.elim Pc.outside_of_routine id

/-- The others keep what they have. -/
theorem Fits.other {routine : Option Routine} {holds : Prop} {u : ThreadId}
    (h : Fits s u routine holds) (hu : u ≠ t) (hl : LockInv s token) (hm : Move s t s') :
    Fits s' u routine holds := by
  unfold Fits
  rw [hm.pc_of_ne hu]
  exact ⟨h.1, fun hout hh => hm.held_other hl hu (h.2 hout hh)⟩

/-- The call of a routine. -/
theorem Fits.call {routine : Routine} {holds : Prop} (hs : step s (.call t routine) = some s')
    (hheld : routine ≠ .acquire → s.Held t) (hroutine : routine ≠ .broadcast) :
    Fits s' t (some routine) holds := by
  obtain ⟨-, -, -, -, -, hentry⟩ := step_call hs hheld hroutine
  refine ⟨.inl ?_, ?_⟩
  · rw [hentry]
    cases routine <;> first | rfl | exact (hroutine rfl).elim
  · intro hout
    cases routine <;> cases hentry.symm.trans hout

/-- A step inside a routine. -/
theorem Fits.move {routine : Option Routine} {holds : Prop} (h : Fits s t routine holds)
    (hin : s.pc t ≠ .outside) (hl : LockInv s token) (hm : Move s t s')
    (hreturns : holds → routine = some .acquire ∨ routine = some .wait ∨ routine = some .signal) :
    Fits s' t routine holds := by
  have hroutine := h.1.resolve_right hin
  refine ⟨(hm.routine hin).symm.imp_left fun he => he.trans hroutine, ?_⟩
  intro hout hh
  apply hm.returns hl hout
  rw [hroutine]
  exact hreturns hh

/-- What depends on the holder of the lock does not change when a thread moves whose part in it
is the same as nobody's. -/
theorem Move.elim_holder {β : Type*} {f : ThreadId → β} {b : β} (hm : Move s t s')
    (hl : LockInv s token) (hf : f t = b) :
    s'.lock.lockHolder.elim b f = s.lock.lockHolder.elim b f := by
  have hafter : ∀ u, s'.Held u → u = t ∨ s.Held u := by
    intro u hu
    by_cases h : u = t
    · exact .inl h
    · exact .inr (hm.held h hu)
  cases hbefore : s.lock.lockHolder with
  | none =>
    cases h : s'.lock.lockHolder with
    | none => rfl
    | some u =>
      rcases hafter u h with rfl | hu
      · exact hf
      · cases hbefore.symm.trans hu
  | some v =>
    by_cases hv : v = t
    · cases h : s'.lock.lockHolder with
      | none => exact (hv ▸ hf).symm
      | some u =>
        rcases hafter u h with rfl | hu
        · rw [hv]
        · cases hbefore.symm.trans hu
          rfl
    · rw [show s'.lock.lockHolder = some v from hm.held_other hl hv hbefore]

/-- `Acquire` returns with its last statement. -/
theorem Move.acquireSet_of_returns (hm : Move s t s') (hreturn : s'.pc t = .outside)
    (hr : (s.pc t).routine = some .acquire) : s.pc t = .acquireSet .client := by
  cases hm <;> simp only [State.goto, Function.update_self] at hreturn
  case acquireSet caller hpc =>
    cases caller with
    | client => exact hpc
    | wait w => cases hreturn
  case goto hpc hpc' => rcases hpc' with rfl | rfl | rfl <;> cases hreturn
  case waitDelete w hpc =>
    rw [hpc] at hr
    cases hr
  case releaseV caller hpc =>
    rw [hpc] at hr
    cases caller <;> cases hr
  case signalReturn call loop hpc =>
    rw [hpc] at hr
    cases loop <;> cases hr
  case broadcastReturn call hpc =>
    rw [hpc] at hr
    cases hr
  all_goals cases hreturn

/-- With that statement a free lock is obtained. -/
theorem LockInv.obtains (hl : LockInv s token) (hpc : s.pc t = .acquireSet .client)
    (hs : step s (.run t) = some s') :
    s.lock.lockHolder = none ∧ s'.Held t ∧ s'.pc t = .outside := by
  refine ⟨(hl.passing t (by rw [hpc]; rfl)).2, ?_⟩
  obtain ⟨hfailure, -⟩ := step_result hs
  rw [step, if_neg (by simp [hfailure])] at hs
  simp only [State.advance, hpc] at hs
  cases hs
  exact ⟨rfl, Function.update_self ..⟩

/-- Inside a routine a disciplined thread moves on. -/
theorem Sound.run (h : Sound s) (hs : Monitor.step s (.run t) = some s') :
    Sound s' ∧ Move s t s' := by
  have hsound : Sound s' := by
    refine h.step ?_ hs
    intro _ _ he
    cases he
  refine ⟨hsound, ?_⟩
  rcases (step_result hs).2 with hm | ⟨failure, -, rfl⟩
  · exact hm
  · cases hsound.2.1

/-- So does one that calls. -/
theorem Sound.call {routine : Routine} (h : Sound s)
    (hs : Monitor.step s (.call t routine) = some s') (hheld : routine ≠ .acquire → s.Held t) :
    Sound s' := by
  apply h.step _ hs
  intro _ _ he hr
  cases he
  exact hheld hr

end

end Nachos.Monitor

import Nachos.Threads.MonitorInvariants

/-! What `Signal`, `Broadcast` and `Wait` have done when they return, over every run. -/
namespace Nachos.Monitor

/-- What is known at a statement of `Signal` or `Broadcast` about the queue it found. -/
def CallOk (s : State) (t : ThreadId) : Pc → Prop
  | .signalTest loop => s.Held t → ∀ b ∈ loop,
      b.queued = b.released ++ s.waitQueue ∧ s.waitQueue ≠ []
  | .signalRemove queued loop => s.waitQueue = queued ∧ queued ≠ [] ∧ ∀ b ∈ loop,
      b.queued = b.released ++ queued
  | .signalV w queued loop => queued = w :: s.waitQueue ∧ ∀ b ∈ loop,
      b.queued = b.released ++ queued
  | .signalReturn call loop => call.queued = call.released ++ s.waitQueue ∧
      call.released = call.queued.head?.toList ∧ (∀ w ∈ call.released, (s.waiter w).isSome) ∧
      ∀ b ∈ loop, b.queued = b.released ++ call.queued
  | .broadcastTest call => call.queued = call.released ++ s.waitQueue
  | .broadcastReturn call => call.queued = call.released
  | _ => True

/-- What the calls a thread is in have released so far. -/
def Pc.released : Pc → List WaiterId
  | .signalTest loop | .signalRemove _ loop | .signalV _ _ loop => loop.elim [] Call.released
  | .signalReturn call loop => loop.elim [] Call.released ++ call.released
  | .broadcastTest call | .broadcastReturn call => call.released
  | _ => []

structure CallInv (s : State) : Prop where
  calls : ∀ t, CallOk s t (s.pc t)
  logged : ∀ t, ∀ w ∈ (s.pc t).released, .released w ∈ s.log

/-- In the log, a waiter is released after it has been enqueued, and returns after that. -/
structure LogInv (log : List Event) : Prop where
  released : ∀ t w, .enqueued t w ∈ log → .released w ∈ log →
    [.enqueued t w, .released w].Sublist log
  returned : ∀ t w, .returned t w ∈ log →
    [.enqueued t w, .released w, .returned t w].Sublist log

structure Inv (s : State) (token : Option ThreadId) : Prop where
  lock : LockInv s token
  queue : QueueInv s
  waiter : WaiterInv s
  call : CallInv s
  log : LogInv s.log

section

variable {s s' : State} {t u : ThreadId} {pc : Pc} {token : Option ThreadId}

/-- A thread that does not hold the lock changes neither the queue nor what is allocated. -/
theorem Move.frame (hm : Move s t s') (hl : LockInv s token) (hheld : ¬ s.Held t) :
    s'.waitQueue = s.waitQueue ∧ ∀ w, (s.waiter w).isSome → (s'.waiter w).isSome := by
  have holding (h : (s.pc t).holding = true) : False := hheld (hl.holding t h)
  have update {w : WaiterId} {sem : Semaphore} (v : WaiterId) (hv : (s.waiter v).isSome) :
      (Function.update s.waiter w (some sem) v).isSome := by
    by_cases hvw : v = w
    · rw [hvw, Function.update_self]
      rfl
    · rw [Function.update_of_ne hvw]
      exact hv
  cases hm with
  | newWaiter hpc held => exact (hheld held).elim
  | waitAppend hpc => exact (holding (by rw [hpc]; rfl)).elim
  | waiterTaken hpc hw hvalue => exact ⟨rfl, update⟩
  | waiterQueued hpc hw hawake hvalue => exact ⟨rfl, update⟩
  | waitDelete hpc => exact (holding (by rw [hpc]; rfl)).elim
  | signalRemove hpc hqueue => exact (holding (by rw [hpc]; rfl)).elim
  | signalV hpc hw => exact (holding (by rw [hpc]; rfl)).elim
  | _ => exact ⟨rfl, fun _ h => h⟩

/-- No step makes another thread the holder. -/
theorem Move.held (hm : Move s t s') (hu : u ≠ t) (h : s'.Held u) : s.Held u := by
  cases hm with
  | acquireSet hpc =>
    cases h
    exact (hu rfl).elim
  | releaseTest hpc held => cases h
  | _ => exact h

theorem Move.pc_of_ne (hm : Move s t s') (hu : u ≠ t) : s'.pc u = s.pc u := by
  cases hm <;> exact Function.update_of_ne hu ..

theorem Move.log (hm : Move s t s') {e : Event} (he : e ∈ s.log) : e ∈ s'.log := by
  cases hm <;> first | exact he | exact List.mem_append_left _ he

theorem Move.failure (hm : Move s t s') : s'.failure = s.failure := by
  cases hm <;> rfl

theorem CallOk.other (hm : Move s t s') (hl : LockInv s token) (hu : u ≠ t)
    (h : CallOk s u (s.pc u)) : CallOk s' u (s'.pc u) := by
  rw [hm.pc_of_ne hu]
  have hheld : s'.Held u → s.Held u := hm.held hu
  -- while `u` holds the lock, `t` does not
  have hsame (hh : s.Held u) :
      s'.waitQueue = s.waitQueue ∧ ∀ w, (s.waiter w).isSome → (s'.waiter w).isSome := by
    apply hm.frame hl
    intro ht
    cases hh.symm.trans ht
    exact hu rfl
  have hholding (hp : (s.pc u).holding = true) := hsame (hl.holding u hp)
  cases hpc : s.pc u <;> rw [hpc] at h hholding <;> try trivial
  case signalTest loop =>
    intro hh
    rw [(hsame (hheld hh)).1]
    exact h (hheld hh)
  case signalRemove queued loop => rwa [CallOk, (hholding rfl).1]
  case signalV w queued loop => rwa [CallOk, (hholding rfl).1]
  case signalReturn call loop =>
    obtain ⟨hqueued, hreleased, hlive, hloop⟩ := h
    refine ⟨by rwa [(hholding rfl).1], hreleased, ?_, hloop⟩
    intro w hw
    exact (hholding rfl).2 w (hlive w hw)
  case broadcastTest call => rwa [CallOk, (hholding rfl).1]

/-- The thread that moves. -/
theorem CallOk.self (hm : Move s t s') (h : CallOk s t (s.pc t)) : CallOk s' t (s'.pc t) := by
  cases hm <;> try simp only [State.goto, Function.update_self]
  case goto hpc hpc' =>
    rcases hpc' with rfl | rfl | rfl
    · trivial
    · trivial
    · exact fun _ => nofun
  case newWaiter hpc held => trivial
  case broadcastNone hpc => rfl
  case broadcastSome hpc hqueue =>
    intro _ b hb
    cases hb
    exact ⟨rfl, hqueue⟩
  case lockTaken caller hpc hvalue => trivial
  case lockQueued caller hpc => trivial
  case acquireSet caller hpc => cases caller <;> trivial
  case releaseTest caller hpc held => trivial
  case releaseV caller hpc => cases caller <;> trivial
  case waitAppend w hpc => trivial
  case waiterTaken w sem hpc hw hvalue => trivial
  case waiterQueued w sem hpc hw hawake hvalue => trivial
  case waitDelete w hpc => trivial
  case signalNone loop hpc held hqueue =>
    rw [hpc] at h
    refine ⟨hqueue.symm, rfl, nofun, ?_⟩
    intro b hb
    exact ((h held b hb).2 hqueue).elim
  case signalSome loop hpc held hqueue =>
    rw [hpc] at h
    exact ⟨rfl, hqueue, fun b hb => (h held b hb).1⟩
  case signalRemove w queue queued loop hpc hqueue =>
    rw [hpc] at h
    exact ⟨h.1.symm.trans hqueue, h.2.2⟩
  case signalV w sem queued loop hpc hw =>
    rw [hpc] at h
    refine ⟨h.1, by rw [h.1]; rfl, ?_, h.2⟩
    intro v hv
    cases List.mem_singleton.mp hv
    dsimp only
    rw [Function.update_self]
    rfl
  case signalReturn call loop hpc =>
    rw [hpc] at h
    cases loop with
    | none => trivial
    | some b =>
      show b.queued = b.released ++ call.released ++ s.waitQueue
      rw [h.2.2.2 b rfl, h.1, List.append_assoc]
  case broadcastEnd call hpc hqueue =>
    rw [hpc] at h
    show call.queued = call.released
    rw [show call.queued = _ from h, hqueue, List.append_nil]
  case broadcastNext call hpc hqueue =>
    rw [hpc] at h
    intro _ b hb
    cases hb
    exact ⟨h, hqueue⟩
  case broadcastReturn call hpc => trivial

/-- A call is only credited with what it has released. -/
theorem Move.released (hm : Move s t s') {w : WaiterId} (hw : w ∈ (s'.pc t).released) :
    w ∈ (s.pc t).released ∨ .released w ∈ s'.log := by
  cases hm <;> try simp only [State.goto, Function.update_self] at hw
  case goto hpc hpc' => rcases hpc' with rfl | rfl | rfl <;> cases hw
  case acquireSet caller hpc => cases caller <;> cases hw
  case releaseV caller hpc => cases caller <;> cases hw
  case signalNone loop hpc held hqueue =>
    rw [hpc]
    simpa [Pc.released] using Or.inl hw
  case signalSome loop hpc held hqueue => exact .inl (by rwa [hpc])
  case signalRemove v queue queued loop hpc hqueue => exact .inl (by rwa [hpc])
  case signalV v sem queued loop hpc hv =>
    rcases List.mem_append.mp hw with hw | hw
    · exact .inl (by rwa [hpc])
    · cases List.mem_singleton.mp hw
      exact .inr (by simp)
  case signalReturn call loop hpc =>
    rw [hpc]
    cases loop with
    | none => cases hw
    | some b => exact .inl hw
  case broadcastEnd call hpc hqueue => exact .inl (by rwa [hpc])
  case broadcastNext call hpc hqueue => exact .inl (by rwa [hpc])
  all_goals cases hw

theorem CallInv.move (h : CallInv s) (hl : LockInv s token) (hm : Move s t s') : CallInv s' := by
  refine ⟨?_, ?_⟩
  · intro u
    by_cases hu : u = t
    · subst hu
      exact CallOk.self hm (h.calls u)
    · exact CallOk.other hm hl hu (h.calls u)
  · intro u w hw
    by_cases hu : u = t
    · subst hu
      rcases hm.released hw with hw | hw
      · exact hm.log (h.logged u w hw)
      · exact hw
    · rw [hm.pc_of_ne hu] at hw
      exact hm.log (h.logged u w hw)

theorem LogInv.snoc {log : List Event} {e : Event} (h : LogInv log)
    (hnew : ∀ t w, e = .enqueued t w → .released w ∉ log)
    (hend : ∀ t w, e = .returned t w → .enqueued t w ∈ log ∧ .released w ∈ log) :
    LogInv (log ++ [e]) := by
  have hkeep {l : List Event} (hl : l.Sublist log) : l.Sublist (log ++ [e]) :=
    hl.trans (List.sublist_append_left ..)
  refine ⟨?_, ?_⟩
  · intro t w henqueued hreleased
    rcases List.mem_append.mp henqueued with he | he <;>
      rcases List.mem_append.mp hreleased with hr | hr
    · exact hkeep (h.released t w he hr)
    · cases List.mem_singleton.mp hr
      exact (List.singleton_sublist.mpr he).append (List.Sublist.refl [Event.released w])
    · exact (hnew t w (List.mem_singleton.mp he).symm hr).elim
    · cases (List.mem_singleton.mp he).trans (List.mem_singleton.mp hr).symm
  · intro t w hreturned
    rcases List.mem_append.mp hreturned with hr | hr
    · exact hkeep (h.returned t w hr)
    · cases List.mem_singleton.mp hr
      obtain ⟨he, hr⟩ := hend t w rfl
      exact (h.released t w he hr).append (List.Sublist.refl [Event.returned t w])

theorem LogInv.move (h : LogInv s.log) (hq : QueueInv s) (hw : WaiterInv s) (hm : Move s t s') :
    LogInv s'.log := by
  cases hm with
  | @acquireSet caller hpc =>
    cases caller with
    | client =>
      show LogInv (s.log ++ [])
      rwa [List.append_nil]
    | wait w => exact h.snoc (e := .reacquired t w) nofun nofun
  | @waitAppend w hpc =>
    obtain ⟨-, sem, -, hnew, -⟩ := hw.stage t w .created (by rw [hpc]; rfl)
    refine h.snoc (e := .enqueued t w) ?_ nofun
    intro _ _ he hreleased
    cases he
    obtain ⟨u, hu⟩ := hq.enqueued_of_released hreleased
    exact hnew u hu
  | @waitDelete w hpc =>
    obtain ⟨-, sem, -, hlog, hdone, -⟩ := hw.stage t w .back (by rw [hpc]; rfl)
    refine h.snoc (e := .returned t w) nofun ?_
    intro _ _ he
    cases he
    exact ⟨hlog, hdone⟩
  | @signalV w sem queued loop hpc hsem => exact h.snoc (e := .released w) nofun nofun
  | _ => exact h

/-- Every move keeps the invariant, with the permit perhaps elsewhere. -/
theorem Inv.move (h : Inv s token) (hm : Move s t s') : ∃ token', Inv s' token' := by
  obtain ⟨token', hl⟩ := h.lock.move hm
  exact ⟨token', hl, h.queue.move h.lock h.waiter hm, h.waiter.move h.lock h.queue hm,
    h.call.move h.lock hm, h.log.move h.queue h.waiter hm⟩

theorem Inv.fail (h : Inv s token) (failure : Failure) : Inv (s.fail failure) token :=
  ⟨⟨h.lock.value, h.lock.inside, h.lock.holder, h.lock.passing, h.lock.holding⟩,
    ⟨h.queue.fifo, h.queue.nodup, h.queue.fresh⟩,
    ⟨h.waiter.stage, h.waiter.unique, h.waiter.owned⟩, ⟨h.call.calls, h.call.logged⟩, h.log⟩

/-- Only a caller that does not hold the lock can make an assertion fail. -/
theorem Inv.fails {failure : Failure} (h : Inv s token) (hf : Fails s t failure) :
    failure = .notHeld ∧ ¬ s.Held t := by
  cases hf with
  | notHeld hpc hheld => exact ⟨rfl, hheld⟩
  | @duplicate w hpc hw =>
    obtain ⟨-, sem, -, hnew, -⟩ := h.waiter.stage t w .created (by rw [hpc]; rfl)
    have hmem : w ∈ enqueued s.log := by
      rw [h.queue.fifo]
      exact List.mem_append_right _ hw
    obtain ⟨u, hu⟩ := mem_enqueued.mp hmem
    exact (hnew u hu).elim
  | emptyList hpc hqueue =>
    have hcall := h.call.calls t
    rw [hpc] at hcall
    exact (hcall.2.1 (hcall.1.symm.trans hqueue)).elim
  | @waitP w hpc hw =>
    obtain ⟨-, sem, hsem, -⟩ := h.waiter.stage t w .asleep (by rw [hpc]; rfl)
    cases hw.symm.trans hsem
  | @waitDelete w hpc hw =>
    obtain ⟨-, sem, hsem, -⟩ := h.waiter.stage t w .back (by rw [hpc]; rfl)
    cases hw.symm.trans hsem
  | @signalV w queued loop hpc hw =>
    obtain ⟨-, u, -, hu⟩ := h.waiter.sleeper h.lock h.queue hpc
    obtain ⟨-, sem, hsem, -⟩ := h.waiter.stage u w .asleep hu
    cases hw.symm.trans hsem

theorem inv_start : Inv start none where
  lock := ⟨rfl, rfl, nofun, nofun, nofun⟩
  queue := ⟨rfl, List.nodup_nil, nofun⟩
  waiter := ⟨nofun, nofun, nofun⟩
  call := ⟨fun _ => trivial, nofun⟩
  log := ⟨nofun, nofun⟩

theorem Inv.step {l : Label} (h : Inv s token) (hs : step s l = some s') :
    ∃ token', Inv s' token' := by
  rcases (step_result hs).2 with hm | ⟨failure, -, rfl⟩
  · exact h.move hm
  · exact ⟨token, h.fail failure⟩

theorem inv_reach (hr : Runs.Reach step (fun _ _ => True) start s) : ∃ token, Inv s token :=
  hr.invariant (P := fun s => ∃ token, Inv s token) ⟨none, inv_start⟩
    fun _ _ _ ⟨_, h⟩ _ hs => h.step hs

/-- A thread inside `Broadcast`. -/
def Pc.loops : Pc → Bool
  | .signalTest (some _) | .signalRemove _ (some _) | .signalV _ _ (some _)
  | .signalReturn _ (some _) | .broadcastTest _ | .broadcastReturn _ => true
  | _ => false

/-- How many statements of `Broadcast` are left with `queue` waiters queued. -/
def Pc.rank (queue : ℕ) : Pc → ℕ
  | .signalTest _ => 5 * queue + 1
  | .signalRemove _ _ => 5 * queue
  | .signalV _ _ _ => 5 * queue + 4
  | .signalReturn _ _ => 5 * queue + 3
  | .broadcastTest _ => 5 * queue + 2
  | .broadcastReturn _ => 1
  | _ => 0

/-- A caller that does not hold the lock does not get past its first test. -/
def State.rank (s : State) (t : ThreadId) : ℕ :=
  if s.Held t then (s.pc t).rank s.waitQueue.length else 1

/-- A thread inside `Broadcast` is never blocked. -/
theorem step_of_loops (hloops : (s.pc t).loops = true) (hfailure : s.failure = none) :
    (step s (.run t)).isSome := by
  have hstep : step s (.run t) = s.advance t := if_neg (by simp [hfailure])
  rw [hstep]
  unfold State.advance
  cases hpc : s.pc t <;> rw [hpc] at hloops <;> try cases hloops
  case signalTest loop =>
    dsimp only
    split_ifs <;> rfl
  case signalRemove queued loop =>
    cases hqueue : s.waitQueue <;> rfl
  case signalV w queued loop =>
    cases hw : s.waiter w <;> simp [hw]
  case signalReturn call loop => rfl
  case broadcastTest call =>
    dsimp only
    split_ifs <;> rfl
  case broadcastReturn call => rfl

theorem Move.held_other (hm : Move s u s') (hl : LockInv s token) (hu : t ≠ u)
    (held : s.Held t) : s'.Held t := by
  cases hm with
  | acquireSet hpc => cases (hl.passing u (by rw [hpc]; rfl)).2.symm.trans held
  | releaseTest hpc hh =>
    cases held.symm.trans hh
    exact (hu rfl).elim
  | _ => exact held

/-- Steps of other threads do not lengthen a `Broadcast`. -/
theorem Move.rank_other (hm : Move s u s') (hl : LockInv s token) (hu : t ≠ u) :
    s'.rank t = s.rank t := by
  unfold State.rank
  rw [hm.pc_of_ne hu]
  by_cases held : s.Held t
  · have hnot : ¬ s.Held u := by
      intro hh
      cases held.symm.trans hh
      exact hu rfl
    rw [if_pos held, if_pos (hm.held_other hl hu held), (hm.frame hl hnot).1]
  · rw [if_neg held, if_neg fun hh => held (hm.held hu hh)]

theorem State.rank_of_held {queue : List WaiterId} (held : s.Held t) (hpc : s.pc t = pc)
    (hqueue : s.waitQueue = queue) : s.rank t = pc.rank queue.length := by
  rw [← hpc, ← hqueue]
  exact if_pos held

/-- Every statement of `Broadcast` brings its end closer. -/
theorem Move.rank_self (hm : Move s t s') (h : CallOk s t (s.pc t)) (hl : LockInv s token)
    (hloops : (s.pc t).loops = true) :
    s'.pc t = .outside ∨ ((s'.pc t).loops = true ∧ s'.rank t < s.rank t) := by
  -- the new statement `pc` belongs to the loop as well
  have goes {pc pc' : Pc} {queue : List WaiterId} (held : s.Held t) (held' : s'.Held t)
      (hpc : s.pc t = pc) (hpc' : s'.pc t = pc') (hqueue : s'.waitQueue = queue)
      (hloops' : pc'.loops = true) (hlt : pc'.rank queue.length < pc.rank s.waitQueue.length) :
      s'.pc t = .outside ∨ ((s'.pc t).loops = true ∧ s'.rank t < s.rank t) := by
    refine .inr ⟨hpc' ▸ hloops', ?_⟩
    rwa [State.rank_of_held held' hpc' hqueue, State.rank_of_held held hpc rfl]
  have holding (hp : (s.pc t).holding = true) : s.Held t := hl.holding t hp
  cases hm with
  | @signalNone loop hpc held hqueue =>
    rw [hpc] at h hloops
    cases loop with
    | none => cases hloops
    | some b => exact ((h held b rfl).2 hqueue).elim
  | @signalSome loop hpc held hqueue =>
    refine goes held held hpc (Function.update_self ..) rfl ?_ (Nat.lt_succ_self _)
    rw [hpc] at hloops
    cases loop <;> first | rfl | cases hloops
  | @signalRemove w queue queued loop hpc hqueue =>
    have held := holding (by rw [hpc]; rfl)
    refine goes held held hpc (Function.update_self ..) rfl ?_ ?_
    · rw [hpc] at hloops
      cases loop <;> first | rfl | cases hloops
    · rw [hqueue]
      show 5 * queue.length + 4 < 5 * (queue.length + 1)
      omega
  | @signalV w sem queued loop hpc hw =>
    have held := holding (by rw [hpc]; rfl)
    refine goes held held hpc (Function.update_self ..) rfl ?_ (Nat.lt_succ_self _)
    rw [hpc] at hloops
    cases loop <;> first | rfl | cases hloops
  | @signalReturn call loop hpc =>
    have held := holding (by rw [hpc]; rfl)
    cases loop with
    | none => exact .inl (Function.update_self ..)
    | some b => exact goes held held hpc (Function.update_self ..) rfl rfl (Nat.lt_succ_self _)
  | broadcastEnd hpc hqueue =>
    have held := holding (by rw [hpc]; rfl)
    refine goes held held hpc (Function.update_self ..) rfl rfl ?_
    show 1 < 5 * s.waitQueue.length + 2
    omega
  | broadcastNext hpc hqueue =>
    have held := holding (by rw [hpc]; rfl)
    exact goes held held hpc (Function.update_self ..) rfl rfl (Nat.lt_succ_self _)
  | broadcastReturn hpc => exact .inl (Function.update_self ..)
  | goto hpc _ | newWaiter hpc _ | broadcastNone hpc | broadcastSome hpc _ | lockTaken hpc _
  | lockQueued hpc | acquireSet hpc | releaseTest hpc _ | releaseV hpc | waitAppend hpc
  | waiterTaken hpc _ _ | waiterQueued hpc _ _ _ | waitDelete hpc =>
    rw [hpc] at hloops
    cases hloops

theorem rank_pos (h : CallOk s t (s.pc t))
    (hloops : (s.pc t).loops = true) : 0 < s.rank t := by
  unfold State.rank
  split_ifs with held
  · cases hpc : s.pc t <;> rw [hpc] at hloops h <;> try cases hloops
    case signalRemove queued loop =>
      have hne : 0 < s.waitQueue.length := by
        rw [h.1]
        exact List.length_pos_of_ne_nil h.2.1
      show 0 < 5 * s.waitQueue.length
      omega
    all_goals exact Nat.succ_pos _
  · exact Nat.one_pos

/-- In every run, `Broadcast` ends after a bounded number of its own statements: it returns, or
its caller fails the assertion because it does not hold the lock. -/
theorem broadcast_ends {ls : List Label} (hi : Inv s token) (hloops : (s.pc t).loops = true)
    (he : Runs.exec step s ls = some s') (hcount : s.rank t ≤ ls.countP (·.thread = t)) :
    ∃ ls₁ s₁, ls₁ <+: ls ∧ Runs.exec step s ls₁ = some s₁ ∧
      (s₁.pc t = .outside ∨ (s₁.failure = some .notHeld ∧ ¬ s₁.Held t)) := by
  induction ls generalizing s token with
  | nil => exact absurd hcount (not_le.mpr (rank_pos (hi.call.calls t) hloops))
  | cons l ls ih =>
    obtain ⟨s₁, hs, hrest⟩ := Option.bind_eq_some_iff.mp he
    have hstep : Runs.exec step s [l] = some s₁ := by
      rw [Runs.exec, hs]
      rfl
    have hgo {ls₁ : List Label} {s₂ : State} (h₁ : Runs.exec step s₁ ls₁ = some s₂) :
        Runs.exec step s (l :: ls₁) = some s₂ := by
      rw [Runs.exec, hs]
      exact h₁
    rw [List.countP_cons] at hcount
    rcases (step_result hs).2 with hm | ⟨failure, hf, rfl⟩
    · obtain ⟨token', hi'⟩ := hi.move hm
      by_cases hl : l.thread = t
      · subst hl
        rcases hm.rank_self (hi.call.calls _) hi.lock hloops with hout | ⟨hloops', hlt⟩
        · exact ⟨[l], s₁, ⟨ls, rfl⟩, hstep, .inl hout⟩
        · simp only [decide_true, ↓reduceIte] at hcount
          obtain ⟨ls₁, s₂, hbefore, h₁, hend⟩ := ih hi' hloops' hrest (by omega)
          exact ⟨l :: ls₁, s₂, List.cons_prefix_cons.mpr ⟨rfl, hbefore⟩, hgo h₁, hend⟩
      · have hne : t ≠ l.thread := fun h => hl h.symm
        simp only [hl, decide_false, Bool.false_eq_true, ↓reduceIte, Nat.add_zero] at hcount
        rw [← hm.rank_other hi.lock hne] at hcount
        rw [← hm.pc_of_ne hne] at hloops
        obtain ⟨ls₁, s₂, hbefore, h₁, hend⟩ := ih hi' hloops hrest hcount
        exact ⟨l :: ls₁, s₂, List.cons_prefix_cons.mpr ⟨rfl, hbefore⟩, hgo h₁, hend⟩
    · obtain ⟨rfl, hnot⟩ := hi.fails hf
      by_cases hl : l.thread = t
      · subst hl
        exact ⟨[l], _, ⟨ls, rfl⟩, hstep, .inr ⟨rfl, hnot⟩⟩
      · -- a failure of another thread ends the run at once
        cases ls with
        | nil =>
          simp only [hl, decide_false, List.countP_nil] at hcount
          exact absurd hcount (not_le.mpr (rank_pos (hi.call.calls t) hloops))
        | cons l' ls => cases hrest

/-- The semaphore a thread is inside `P`, `V` or `delete` of. -/
def Pc.operatesOn : Pc → List WaiterId
  | .waitP w | .waitDelete w | .signalV w _ _ => [w]
  | .signalReturn call _ => call.released
  | _ => []

/-- What the callers of `Lock` and `Condition` rely on. -/
structure Safe (s : State) : Prop where
  exclusive : s.inside.length ≤ 1
  lockHolder : ∀ t, s.lock.lockHolder = some t → s.inside = [t]
  /-- Waiters are released once, and in the order in which they were enqueued. -/
  fifo : (enqueued s.log).Nodup ∧ released s.log <+: enqueued s.log
  /-- A `Signal` that ends has released the one that was enqueued before all others it found. -/
  signal : ∀ t call loop, s.pc t = .signalReturn call loop →
    call.released = call.queued.head?.toList ∧ ∀ w ∈ call.released, .released w ∈ s.log ∧
      ∀ v ∈ call.queued, v ≠ w → [w, v].Sublist (enqueued s.log)
  /-- A `Broadcast` that ends has released all it found. -/
  broadcast : ∀ t call, s.pc t = .broadcastReturn call →
    call.released = call.queued ∧ ∀ w ∈ call.released, .released w ∈ s.log
  broadcastRuns : ∀ t, (s.pc t).loops = true → s.failure = none → (step s (.run t)).isSome
  broadcastEnds : ∀ t ls s', (s.pc t).loops = true → Runs.exec step s ls = some s' →
    5 * s.waitQueue.length + 4 ≤ ls.countP (·.thread = t) →
      ∃ ls₁ s₁, ls₁ <+: ls ∧ Runs.exec step s ls₁ = some s₁ ∧
        (s₁.pc t = .outside ∨ (s₁.failure = some .notHeld ∧ ¬ s₁.Held t))
  /-- A waiter that has been released finds a permit, and is not asleep. -/
  wakes : ∀ t w, s.pc t = .waitP w → .released w ∈ s.log → s.waiter w = some ⟨1, []⟩
  /-- A waiter that has not been released stays where it is. -/
  waits : ∀ t w, s.pc t = .waitP w → .released w ∉ s.log → ∃ sem, s.waiter w = some sem ∧
    sem.value = 0
  returns : ∀ t w, s.pc t = .waitDelete w → s.Held t ∧
    [.enqueued t w, .released w].Sublist s.log
  returned : ∀ t w, .returned t w ∈ s.log →
    [.enqueued t w, .released w, .returned t w].Sublist s.log
  /-- Nobody is at work on a semaphore that has been deleted. -/
  allocated : ∀ t, ∀ w ∈ (s.pc t).operatesOn, (s.waiter w).isSome
  assertions : s.failure = none ∨ s.failure = some .notHeld

theorem Inv.wakes {w : WaiterId} (hi : Inv s token) (hpc : s.pc t = .waitP w)
    (hreleased : .released w ∈ s.log) : s.waiter w = some ⟨1, []⟩ := by
  obtain ⟨-, sem, hsem, -, hcase⟩ := hi.waiter.stage t w .asleep (by rw [hpc]; rfl)
  rcases hcase with ⟨hnot, -⟩ | ⟨-, rfl⟩
  · exact (hnot hreleased).elim
  · exact hsem

theorem Inv.waits {w : WaiterId} (hi : Inv s token) (hpc : s.pc t = .waitP w)
    (hnot : .released w ∉ s.log) : ∃ sem, s.waiter w = some sem ∧ sem.value = 0 := by
  obtain ⟨-, sem, hsem, -, hcase⟩ := hi.waiter.stage t w .asleep (by rw [hpc]; rfl)
  rcases hcase with ⟨-, hvalue, -⟩ | ⟨hreleased, -⟩
  · exact ⟨sem, hsem, hvalue⟩
  · exact (hnot hreleased).elim

theorem Inv.returns {w : WaiterId} (hi : Inv s token) (hpc : s.pc t = .waitDelete w) :
    s.Held t ∧ [.enqueued t w, .released w].Sublist s.log := by
  obtain ⟨-, sem, -, hlog, hreleased, -⟩ := hi.waiter.stage t w .back (by rw [hpc]; rfl)
  exact ⟨hi.lock.holding t (by rw [hpc]; rfl), hi.log.released t w hlog hreleased⟩

theorem Inv.signal {call : Call} {loop : Option Call} (hi : Inv s token)
    (hpc : s.pc t = .signalReturn call loop) :
    call.released = call.queued.head?.toList ∧ ∀ w ∈ call.released, .released w ∈ s.log ∧
      ∀ v ∈ call.queued, v ≠ w → [w, v].Sublist (enqueued s.log) := by
  have hcall := hi.call.calls t
  rw [hpc] at hcall
  obtain ⟨hqueued, hreleased, -, -⟩ := hcall
  refine ⟨hreleased, ?_⟩
  intro w hw
  have hlog : .released w ∈ s.log := by
    apply hi.call.logged t w
    rw [hpc]
    exact List.mem_append_right _ hw
  refine ⟨hlog, ?_⟩
  intro v hv hvw
  -- only the head has been released, so `v` is still in the queue
  have hqueue : v ∈ s.waitQueue := by
    rw [hqueued] at hv
    rcases List.mem_append.mp hv with hv | hv
    · rw [hreleased] at hw hv
      exact (hvw (Option.some.inj ((Option.mem_toList.mp hv).symm.trans
        (Option.mem_toList.mp hw)))).elim
    · exact hv
  have hw' : [w].Sublist (released s.log ++ s.removed) :=
    List.singleton_sublist.mpr (List.mem_append_left _ (mem_released.mpr hlog))
  rw [hi.queue.fifo]
  exact hw'.append (List.singleton_sublist.mpr hqueue)

theorem Inv.broadcast {call : Call} (hi : Inv s token) (hpc : s.pc t = .broadcastReturn call) :
    call.released = call.queued ∧ ∀ w ∈ call.released, .released w ∈ s.log := by
  have hcall := hi.call.calls t
  have hlogged := hi.call.logged t
  rw [hpc] at hcall hlogged
  exact ⟨hcall.symm, hlogged⟩

theorem Inv.allocated {w : WaiterId} (hi : Inv s token) (hw : w ∈ (s.pc t).operatesOn) :
    (s.waiter w).isSome := by
  cases hpc : s.pc t with
  | waitP v =>
    rw [hpc] at hw
    cases List.mem_singleton.mp hw
    obtain ⟨-, sem, hsem, -⟩ := hi.waiter.stage t w .asleep (by rw [hpc]; rfl)
    simp [hsem]
  | waitDelete v =>
    rw [hpc] at hw
    cases List.mem_singleton.mp hw
    obtain ⟨-, sem, hsem, -⟩ := hi.waiter.stage t w .back (by rw [hpc]; rfl)
    simp [hsem]
  | signalV v queued loop =>
    rw [hpc] at hw
    cases List.mem_singleton.mp hw
    obtain ⟨-, u, -, hu⟩ := hi.waiter.sleeper hi.lock hi.queue hpc
    obtain ⟨-, sem, hsem, -⟩ := hi.waiter.stage u w .asleep hu
    simp [hsem]
  | signalReturn call loop =>
    have hcall := hi.call.calls t
    rw [hpc] at hw hcall
    exact hcall.2.2.1 w hw
  | _ =>
    rw [hpc] at hw
    cases hw

theorem State.rank_le (s : State) (t : ThreadId) : s.rank t ≤ 5 * s.waitQueue.length + 4 := by
  unfold State.rank
  split_ifs
  · cases s.pc t <;> simp only [Pc.rank] <;> omega
  · omega

/-- Every interleaving of calls to one lock and one condition is safe. -/
theorem monitor_safe (hr : Runs.Reach step (fun _ _ => True) start s) : Safe s := by
  obtain ⟨token, hi⟩ := inv_reach hr
  have hassertions : s.failure = none ∨ s.failure = some .notHeld := by
    cases hr with
    | refl => exact .inl rfl
    | tail hr _ hs =>
      obtain ⟨token', hbefore⟩ := inv_reach hr
      obtain ⟨hnone, hm | ⟨failure, hf, rfl⟩⟩ := step_result hs
      · exact .inl (hm.failure.trans hnone)
      · exact .inr (congrArg some (hbefore.fails hf).1)
  exact {
    exclusive := by
      rw [hi.lock.inside]
      cases s.lock.lockHolder <;> simp
    lockHolder := by
      intro t ht
      rw [hi.lock.inside, ht]
      rfl
    fifo := by
      refine ⟨hi.queue.nodup, ?_⟩
      rw [hi.queue.fifo, List.append_assoc]
      exact List.prefix_append ..
    signal := fun _ _ _ => hi.signal
    broadcast := fun _ _ => hi.broadcast
    broadcastRuns := fun _ => step_of_loops
    broadcastEnds := fun t _ _ hloops he hcount =>
      broadcast_ends hi hloops he ((s.rank_le t).trans hcount)
    wakes := fun _ _ => hi.wakes
    waits := fun _ _ => hi.waits
    returns := fun _ _ => hi.returns
    returned := hi.log.returned
    allocated := fun _ _ => hi.allocated
    assertions := hassertions }

/-- Callers that hold the lock when they call anything but `Acquire`. -/
def Disciplined (s : State) (l : Label) : Prop :=
  ∀ t routine, l = .call t routine → routine ≠ .acquire → s.Held t

/-- A thread comes to an assertion only while it holds the lock, unless it has just called. -/
theorem Move.asserts (hm : Move s t s') (hl : LockInv s token)
    (hcall : s.pc t = .outside → s.Held t) (ha : (s'.pc t).asserts = true) : s'.Held t := by
  have holding (hp : (s.pc t).holding = true) : s.Held t := hl.holding t hp
  cases hm <;> try simp only [State.goto, Function.update_self] at ha
  case goto hpc _ => exact hcall hpc
  case broadcastSome hpc _ => exact hcall hpc
  case acquireSet caller hpc => cases caller <;> cases ha
  case releaseV caller hpc => cases caller <;> cases ha
  case waitAppend w hpc => exact holding (by rw [hpc]; rfl)
  case signalReturn call loop hpc => cases loop <;> cases ha
  case broadcastNext call hpc _ => exact holding (by rw [hpc]; rfl)
  all_goals cases ha

/-- Between the steps of disciplined callers. -/
def Sound (s : State) : Prop :=
  (∃ token, Inv s token) ∧ s.failure = none ∧ ∀ t, (s.pc t).asserts = true → s.Held t

theorem Sound.move (h : Sound s) (hm : Move s t s') (hcall : s.pc t = .outside → s.Held t) :
    Sound s' := by
  obtain ⟨⟨token, hi⟩, hnone, hasserts⟩ := h
  refine ⟨hi.move hm, hm.failure.trans hnone, ?_⟩
  intro u ha
  by_cases hu : u = t
  · subst hu
    exact hm.asserts hi.lock hcall ha
  · rw [hm.pc_of_ne hu] at ha
    exact hm.held_other hi.lock hu (hasserts u ha)

theorem Sound.step {l : Label} (h : Sound s) (hd : Disciplined s l) (hs : step s l = some s') :
    Sound s' := by
  obtain ⟨⟨token, hi⟩, hnone, hasserts⟩ := h
  obtain ⟨-, hresult⟩ := step_result hs
  cases l with
  | call t routine =>
    by_cases hr : routine = .acquire
    · subst hr
      rw [Monitor.step, if_neg (by simp [hnone])] at hs
      obtain ⟨hpc, he⟩ := Option.ite_none_right_eq_some.mp hs
      cases he
      refine ⟨hi.move (.goto hpc (.inl rfl)), hnone, ?_⟩
      intro u ha
      rcases update_cases s.pc t (.acquireP .client) u with ⟨-, he⟩ | ⟨-, he⟩
      · cases (congrArg Pc.asserts he).symm.trans ha
      · exact hasserts u ((congrArg Pc.asserts he).symm.trans ha)
    · have held : s.Held t := hd t routine rfl hr
      rcases hresult with hm | ⟨failure, hf, -⟩
      · exact Sound.move ⟨⟨token, hi⟩, hnone, hasserts⟩ hm fun _ => held
      · exact ((hi.fails hf).2 held).elim
  | run t =>
    rw [Monitor.step, if_neg (by simp [hnone])] at hs
    have hin : s.pc t ≠ .outside := by
      intro hpc
      simp only [State.advance, hpc] at hs
      cases hs
    rcases hresult with hm | ⟨failure, hf, -⟩
    · exact Sound.move ⟨⟨token, hi⟩, hnone, hasserts⟩ hm fun hpc => (hin hpc).elim
    · obtain ⟨rfl, hnot⟩ := hi.fails hf
      cases hf with
      | notHeld hpc _ =>
        rcases hpc with hpc | hpc
        · exact (hin hpc).elim
        · exact (hnot (hasserts t hpc)).elim

end

/-- Threads 1 and 2 wait; thread 3 signals the first of them, broadcasts to the other and
releases the lock, which both then get back. -/
def signalTwo : List Label :=
  [.call 1 .acquire, .run 1, .run 1, .call 1 .wait, .run 1, .run 1, .run 1, .run 1,
    .call 2 .acquire, .run 2, .run 2, .call 2 .wait, .run 2, .run 2, .run 2,
    .call 3 .acquire, .run 3, .run 3, .call 3 .signal, .run 3, .run 3, .run 3, .run 3,
    .call 3 .broadcast, .run 3, .run 3, .run 3, .run 3, .run 3, .run 3,
    .call 3 .release, .run 3, .run 3, .run 1, .run 1, .run 1, .run 1,
    .call 1 .release, .run 1, .run 1, .run 2, .run 2, .run 2]

theorem monitor_safe_signalTwo :
    ∃ s, Runs.exec step start signalTwo = some s ∧ s.pc 2 = .waitDelete 1 ∧
      .returned 1 0 ∈ s.log ∧ Safe s := by
  have hview : (Runs.exec step start signalTwo).map
      (fun s => (s.pc 2, decide (.returned 1 0 ∈ s.log))) = some (.waitDelete 1, true) := by
    decide +kernel
  obtain ⟨s, hs, hv⟩ := Option.map_eq_some_iff.mp hview
  obtain ⟨hpc, hlog⟩ := Prod.mk.inj hv
  exact ⟨s, hs, hpc, of_decide_eq_true hlog, monitor_safe (Runs.reach_of_exec hs)⟩

end Nachos.Monitor

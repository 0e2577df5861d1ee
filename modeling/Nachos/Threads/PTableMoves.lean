import Nachos.Threads.PTable

/-! What a step of the process table can do, case by case. -/
namespace Nachos.PTable

/-- One turn in `P`: the semaphore and the place of the thread afterwards. -/
inductive Turn (sem : Semaphore) (t : ThreadId) (done retry : Pc) : Semaphore → Pc → Prop
  | entered (h : sem.value ≠ 0) : Turn sem t done retry { sem with value := sem.value - 1 } done
  | queued (h : sem.value = 0) :
      Turn sem t done retry { sem with queue := sem.queue ++ [t] } retry

theorem turn_P (sem : Semaphore) (t : ThreadId) (done retry : Pc) :
    Turn sem t done retry (sem.P t).2 (if (sem.P t).1 then done else retry) := by
  unfold Semaphore.P
  split
  · next h => exact .queued h
  · next h => exact .entered h

namespace State

variable {s : State} {t : ThreadId} {th : Thread}

theorem live_eq_some_iff {o : ProcessNumber} {pcb : PCB} :
    s.live o = some pcb ↔ s.heap o = some pcb ∧ pcb.deleted = false := by
  simp [live, Option.filter_eq_some_iff]

theorem entry_eq_some_iff {i : ℤ} {o : ProcessNumber} :
    s.entry i = some o ↔ 0 ≤ i ∧ i < MAX_PROCESS ∧ s.pcb i.toNat = some o := by
  unfold entry
  split
  · next h => simp only [h.1, h.2, true_and]
  · next h =>
    constructor
    · intro h'
      cases h'
    · intro h'
      exact absurd ⟨h'.1, h'.2.1⟩ h

theorem livePCB_eq_some_iff {i : ℤ} {o : ProcessNumber} :
    s.livePCB i = some o ↔ s.entry i = some o ∧ ∃ pcb, s.live o = some pcb := by
  simp [livePCB, Option.filter_eq_some_iff, Option.isSome_iff_exists]

end State

/-- The steps of thread `t` in state `s`, with what they found there. -/
inductive Move (s : State) (t : ThreadId) (th : Thread) (input : Input) : State → Prop
  | stop (status : Status) (h : status ≠ .running) : Move s t th input { s with status }
  | run (h : th.pc = .start1 ∨ ∃ argv, th.pc = .start2 argv) :
      Move s t th input (s.setPc t th .user)
  | giveUp (argv : List CString) (env : StartEnv) (h : th.pc = .start2 argv)
      (hi : input = .start env) (hr : startProcess2 env argv = .returned) :
      Move s t th input ((s.log (.threadFinished t)).setPc t th .finished)
  | execCall (call : ExecCall) (h : th.pc = .user) (bmsem : Semaphore) (pc : Pc)
      (hturn : Turn s.bmsem t (.execCheck call) (.execEnter call) bmsem pc) :
      Move s t th input ({ s.log (.execCalled t call) with bmsem }.setPc t th pc)
  | execWake (call : ExecCall) (h : th.pc = .execEnter call) (bmsem : Semaphore) (pc : Pc)
      (hturn : Turn s.bmsem t (.execCheck call) (.execEnter call) bmsem pc) :
      Move s t th input ({ s with bmsem }.setPc t th pc)
  | execRefuse (call : ExecCall) (opened : Bool) (h : th.pc = .execCheck call)
      (hi : input = .check opened)
      (hr : call.name = none ∨ call.name = some th.name ∨ opened = false ∨ s.bm.clearList = []) :
      Move s t th input
        ((s.log (.execChecked t ⟨call.name, th.name, opened, s.freeSlots⟩)).leave t th (-1))
  | execAllocate (call : ExecCall) (name : CString) (index : ℕ) (rest : List ℕ)
      (h : th.pc = .execCheck call) (hi : input = .check true) (hname : call.name = some name)
      (hother : name ≠ th.name) (hfree : s.bm.clearList = index :: rest) :
      Move s t th input ({ (s.log (.execChecked t ⟨call.name, th.name, true, s.freeSlots⟩)).log
          (.slotTaken t index s.next) with
        bm := s.bm.insert index
        pcb := Function.update s.pcb index (some s.next)
        next := s.next + 1
        heap := Function.update s.heap s.next
          (some { PCB.new index th.processID with multex := ⟨0, []⟩ }) }.setPc t th
            (.execFork call index s.next))
  | execLock (call : ExecCall) (index : ℕ) (child : ProcessNumber)
      (h : th.pc = .execLock call index child) (pcb : PCB) (hl : s.live child = some pcb)
      (sem : Semaphore) (pc : Pc) (hturn : Turn pcb.multex t (.execFork call index child)
        (.execLock call index child) sem pc) :
      Move s t th input ((s.setPCB child { pcb with multex := sem }).setPc t th pc)
  | execFork (call : ExecCall) (index : ℕ) (child : ProcessNumber) (tail : CString)
      (h : th.pc = .execFork call index child) (pcb : PCB) (hl : s.live child = some pcb) :
      Move s t th input (({ s with
        heap := Function.update s.heap child
          (some { pcb with thread := some child, parentID := th.processID })
        thread := Function.update s.thread child
          (some (State.newThread call index tail)) }.log (.forked t child)).setPc t th
            (.execUnlock call index child))
  | execUnlock (call : ExecCall) (index : ℕ) (child : ProcessNumber)
      (h : th.pc = .execUnlock call index child) (pcb : PCB) (hl : s.live child = some pcb) :
      Move s t th input ((s.setPCB child { pcb with multex := pcb.multex.V.2 }).setPc t th
        (.execLeave call index child))
  | execLeave (call : ExecCall) (index : ℕ) (child : ProcessNumber) (value : ℤ)
      (h : th.pc = .execLeave call index child)
      (hvalue : value = index ∨ ∃ pcb new, s.live child = some pcb ∧
        pcb.thread.bind s.thread = some new ∧ value = new.processID) :
      Move s t th input (s.leave t th value)
  | execReturn (value : ℤ) (h : th.pc = .execReturn value) :
      Move s t th input ((s.log (.execReturned t value)).setPc t th .user)
  | joinRefuse (pid : ℤ) (h : th.pc = .user) :
      Move s t th input ((s.log (.joinRefused t pid)).setPc t th (.joinReturn (-1)))
  | joinPass (pid : ℤ) (h : th.pc = .user) (hi : input = .join pid) (child : ProcessNumber)
      (he : s.entry pid = some child) (pcb : PCB) (hl : s.live child = some pcb)
      (hp : pcb.parentID = th.processID) (parent : ProcessNumber)
      (hparent : s.entry pcb.parentID = some parent) (ppcb : PCB) (hpl : s.live parent = some ppcb)
      (sem : Semaphore) (pc : Pc)
      (hturn : Turn ppcb.multex t (.joinInc pid parent) (.joinLock pid parent) sem pc) :
      Move s t th input (((s.log (.joinPassed t pid child)).setPCB parent
        { ppcb with multex := sem }).setPc t th pc)
  | joinLock (pid : ℤ) (parent : ProcessNumber) (h : th.pc = .joinLock pid parent) (pcb : PCB)
      (hl : s.live parent = some pcb) (sem : Semaphore) (pc : Pc)
      (hturn : Turn pcb.multex t (.joinInc pid parent) (.joinLock pid parent) sem pc) :
      Move s t th input ((s.setPCB parent { pcb with multex := sem }).setPc t th pc)
  | joinInc (pid : ℤ) (parent : ProcessNumber) (h : th.pc = .joinInc pid parent) (pcb : PCB)
      (hl : s.live parent = some pcb) :
      Move s t th input ((s.setPCB parent { pcb with
        numwait := pcb.numwait + 1, multex := pcb.multex.V.2 }).setPc t th (.joinBegin pid))
  | joinWait (pid : ℤ) (child : ProcessNumber)
      (h : (th.pc = .joinBegin pid ∧ s.entry pid = some child) ∨ th.pc = .joinWait pid child)
      (pcb : PCB) (hl : s.live child = some pcb) (sem : Semaphore) (pc : Pc)
      (hturn : Turn pcb.joinsem t (.joinRead pid) (.joinWait pid child) sem pc) :
      Move s t th input ((s.setPCB child { pcb with joinsem := sem }).setPc t th pc)
  | joinRead (pid : ℤ) (h : th.pc = .joinRead pid) (child : ProcessNumber)
      (he : s.entry pid = some child) (pcb : PCB) (hl : s.live child = some pcb) :
      Move s t th input (((s.log (.codeRead t pcb.exitcode)).setPCB child
        { pcb with exitsem := pcb.exitsem.V.2 }).setPc t th (.joinReturn pcb.exitcode))
  | joinReturn (value : ℤ) (h : th.pc = .joinReturn value) :
      Move s t th input ((s.log (.joinReturned t value)).setPc t th .user)
  | exitCall (exitCode : ℤ)
      (h : th.pc = .user ∨ th.pc = .start1 ∨ ∃ argv, th.pc = .start2 argv)
      (hid : th.processID ≠ 0) (self : ProcessNumber) (he : s.entry th.processID = some self)
      (pcb : PCB) (hl : s.live self = some pcb) (parent : ProcessNumber)
      (hparent : s.entry pcb.parentID = some parent) (ppcb : PCB)
      (hpl : (s.setPCB self { pcb with exitcode := exitCode }).live parent = some ppcb)
      (sem : Semaphore) (pc : Pc)
      (hturn : Turn ppcb.multex t (.exitDec parent) (.exitLock parent) sem pc) :
      Move s t th input ((((s.setPCB self { pcb with exitcode := exitCode }).log
        (.exitCalled t exitCode)).setPCB parent { ppcb with multex := sem }).setPc t th pc)
  | exitLock (parent : ProcessNumber) (h : th.pc = .exitLock parent) (pcb : PCB)
      (hl : s.live parent = some pcb) (sem : Semaphore) (pc : Pc)
      (hturn : Turn pcb.multex t (.exitDec parent) (.exitLock parent) sem pc) :
      Move s t th input ((s.setPCB parent { pcb with multex := sem }).setPc t th pc)
  | exitDec (parent : ProcessNumber) (h : th.pc = .exitDec parent) (pcb : PCB)
      (hl : s.live parent = some pcb) :
      Move s t th input ((s.setPCB parent { pcb with
        numwait := pcb.numwait - 1, multex := pcb.multex.V.2 }).setPc t th .exitRelease)
  | exitRelease (h : th.pc = .exitRelease) (self : ProcessNumber)
      (he : s.entry th.processID = some self) (pcb : PCB) (hl : s.live self = some pcb) :
      Move s t th input ((s.setPCB self { pcb with joinsem := pcb.joinsem.V.2 }).setPc t th
        .exitBegin)
  | exitWait (self : ProcessNumber)
      (h : (th.pc = .exitBegin ∧ s.entry th.processID = some self) ∨ th.pc = .exitWait self)
      (pcb : PCB) (hl : s.live self = some pcb) (sem : Semaphore) (pc : Pc)
      (hturn : Turn pcb.exitsem t .exitRemove (.exitWait self) sem pc) :
      Move s t th input ((s.setPCB self { pcb with exitsem := sem }).setPc t th pc)
  | remove (h : th.pc = .exitRemove) (bm : Bitmap MAX_PROCESS)
      (hbm : s.bm.clear th.processID = some bm) (self : ProcessNumber)
      (he : s.pcb th.processID.toNat = some self) (pcb : PCB) (hl : s.live self = some pcb)
      (hthread : pcb.thread = some t) :
      Move s t th input ((({ s with
        bm
        pcb := Function.update s.pcb th.processID.toNat none
        heap := Function.update s.heap self (some { pcb with deleted := true }) }.log
          (.removed t th.processID.toNat self)).log (.threadFinished t)).setPc t th .finished)
  | removeStray (h : th.pc = .exitRemove) (s' : State)
      (hstray : s.pcb th.processID.toNat = none ∨ ∃ self pcb,
        s.pcb th.processID.toNat = some self ∧ s.live self = some pcb ∧
        ∀ owner, pcb.thread.bind s.thread = some owner → owner.processID ≠ th.processID) :
      Move s t th input s'

variable {s s' : State} {t : ThreadId} {th : Thread} {input : Input}

theorem Move.crash : Move s t th input s.crash := .stop .crashed (by simp)

/-- A turn in `P` on a PCB found alive. -/
theorem Move.of_acquire {s₀ : State} {o : ProcessNumber} {name : SemName} {done retry : Pc}
    (hl : ∃ pcb, s₀.live o = some pcb)
    (h : ∀ pcb sem pc, s₀.live o = some pcb → Turn (pcb.sem name) t done retry sem pc →
      Move s t th input ((s₀.setPCB o (pcb.setSem sem name)).setPc t th pc)) :
    Move s t th input (s₀.acquire t th o name done retry) := by
  obtain ⟨pcb, hl⟩ := hl
  unfold State.acquire
  rw [hl]
  exact h pcb _ _ hl (turn_P _ t done retry)

/-- A turn in `P` that ends in a crash when the PCB is gone. -/
theorem Move.of_acquire_or_crash {o : ProcessNumber} {name : SemName} {done retry : Pc}
    (h : ∀ pcb sem pc, s.live o = some pcb → Turn (pcb.sem name) t done retry sem pc →
      Move s t th input ((s.setPCB o (pcb.setSem sem name)).setPc t th pc)) :
    Move s t th input (s.acquire t th o name done retry) := by
  cases hl : s.live o with
  | none =>
    unfold State.acquire
    rw [hl]
    exact .crash
  | some pcb => exact .of_acquire ⟨pcb, hl⟩ h

theorem Move.of_wake {o : ProcessNumber} {name : SemName} {done retry : Pc}
    (hw : s.wake t th o name done retry = some s')
    (h : ∀ pcb sem pc, s.live o = some pcb → Turn (pcb.sem name) t done retry sem pc →
      Move s t th input ((s.setPCB o (pcb.setSem sem name)).setPc t th pc)) :
    Move s t th input s' := by
  unfold State.wake at hw
  split at hw
  · cases hw
  · cases hw
    exact .of_acquire_or_crash h

theorem Move.of_release {o : ProcessNumber} {f : PCB → PCB} {name : SemName} {pc : Pc}
    (h : ∀ pcb, s.live o = some pcb →
      Move s t th input ((s.setPCB o ((f pcb).setSem ((f pcb).sem name).V.2 name)).setPc t th pc)) :
    Move s t th input (s.release t th o f name pc) := by
  unfold State.release
  cases hl : s.live o with
  | none => exact .crash
  | some pcb => exact h pcb hl

theorem Move.of_exitUpdate {exitCode : ℤ}
    (h : th.pc = .user ∨ th.pc = .start1 ∨ ∃ argv, th.pc = .start2 argv) :
    Move s t th input (s.exitUpdate t th exitCode) := by
  unfold State.exitUpdate
  split
  · exact .crash
  next self he =>
  split
  · exact .stop .halted (by simp)
  next hid =>
  split
  · exact .crash
  next pcb hl =>
  split
  · exact .crash
  next parent hparent =>
  obtain ⟨hentry, ppcb, hpl⟩ := State.livePCB_eq_some_iff.mp hparent
  have hlive : ∃ ppcb, (s.setPCB self { pcb with exitcode := exitCode }).live parent =
      some ppcb := by
    by_cases hself : parent = self
    · subst hself
      refine ⟨_, State.live_eq_some_iff.mpr ⟨Function.update_self .., ?_⟩⟩
      exact (State.live_eq_some_iff.mp hl).2
    · refine ⟨ppcb, State.live_eq_some_iff.mpr ?_⟩
      rw [State.setPCB_heap, Function.update_of_ne hself]
      exact State.live_eq_some_iff.mp hpl
  refine .of_acquire hlive fun ppcb sem pc hpl hturn => ?_
  exact .exitCall exitCode h hid self he pcb hl parent hentry ppcb hpl sem pc hturn

theorem Move.of_started {argv : List CString} {env : StartEnv} (hi : input = .start env)
    (h : th.pc = .start2 argv) : Move s t th input (s.started t th (startProcess2 env argv)) := by
  cases hr : startProcess2 env argv with
  | returned => exact .giveUp argv env h hi hr
  | exception which m =>
    simp only [State.started]
    split
    · exact .of_exitUpdate (.inr (.inr ⟨argv, h⟩))
    · exact .crash
  | run m => exact .run (.inr ⟨argv, h⟩)
  | abort => exact .crash

theorem Move.of_started1 {env : StartEnv} (h : th.pc = .start1) :
    Move s t th input (s.started t th (startProcess1 env)) := by
  unfold startProcess1
  split
  · exact .crash
  · exact .run (.inl h)

theorem Move.of_joinUpdate {pid : ℤ} (hi : input = .join pid) (h : th.pc = .user) :
    Move s t th input (s.joinUpdate t th pid) := by
  unfold State.joinUpdate
  split
  · exact .joinRefuse pid h
  next child he =>
  split
  · exact .crash
  next pcb hl =>
  split
  · exact .joinRefuse pid h
  next hp =>
  rw [not_not] at hp
  split
  · exact .crash
  next parent hparent =>
  obtain ⟨hentry, hlive⟩ := State.livePCB_eq_some_iff.mp hparent
  refine .of_acquire hlive fun ppcb sem pc hpl hturn => ?_
  exact .joinPass pid h hi child he pcb hl hp parent hentry ppcb hpl sem pc hturn

theorem Move.of_allocate {call : ExecCall} {name : CString} (h : th.pc = .execCheck call)
    (hi : input = .check true) (hname : call.name = some name) (hother : name ≠ th.name)
    (ha : (s.log (.execChecked t ⟨call.name, th.name, true, s.freeSlots⟩)).allocate t th call =
      some s') : Move s t th input s' := by
  unfold State.allocate at ha
  rw [State.log_bm, Bitmap.findAndSet_eq] at ha
  cases hfree : s.bm.clearList with
  | nil =>
    rw [hfree] at ha
    cases ha
    exact .execRefuse call true h hi (.inr (.inr (.inr hfree)))
  | cons index rest =>
    rw [hfree] at ha
    cases ha
    exact .execAllocate call name index rest h hi hname hother hfree

theorem Move.of_check {call : ExecCall} {opened : Bool} (h : th.pc = .execCheck call)
    (hi : input = .check opened)
    (hc : s.check t th call opened = some s') : Move s t th input s' := by
  have hrefuse (hr : call.name = none ∨ call.name = some th.name ∨ opened = false ∨
      s.bm.clearList = []) := Move.execRefuse (s := s) (t := t) call opened h hi hr
  unfold State.check at hc
  dsimp only at hc
  cases hname : call.name with
  | none =>
    have hs' : s' = (s.log (.execChecked t ⟨call.name, th.name, opened, s.freeSlots⟩)).leave
        t th (-1) := by
      split at hc
      · simp only [State.execUpdate, hname, Option.some.injEq] at hc
        rw [← hc, hname]
      · simp only [State.execV, hname, Option.some.injEq] at hc
        rw [← hc, hname]
    rw [hs']
    exact hrefuse (.inl hname)
  | some name =>
    by_cases hother : name = th.name
    · have hs' : s' = (s.log (.execChecked t ⟨call.name, th.name, opened, s.freeSlots⟩)).leave
          t th (-1) := by
        split at hc
        · simp only [State.execUpdate, hname, hother, if_true, ite_self, Option.some.injEq] at hc
          rw [← hc, hname, hother]
        · simp only [State.execV, hname, hother, if_true, Option.some.injEq] at hc
          rw [← hc, hname, hother]
      rw [hs']
      exact hrefuse (.inr (.inl (hother ▸ hname)))
    · cases opened with
      | false =>
        have hs' : s' = (s.log (.execChecked t ⟨call.name, th.name, false, s.freeSlots⟩)).leave
            t th (-1) := by
          split at hc
          · simp only [State.execUpdate, hname, Bool.not_false, if_true, Option.some.injEq] at hc
            rw [← hc, hname]
          · simp only [State.execV, hname, if_neg hother, Bool.not_false, if_true,
              Option.some.injEq] at hc
            rw [← hc, hname]
        rw [hs']
        exact hrefuse (.inr (.inr (.inl rfl)))
      | true =>
        refine .of_allocate h hi hname hother ?_
        split at hc
        · simpa [State.execUpdate, hname, hother] using hc
        · simpa [State.execV, hname, hother] using hc

theorem Move.of_remove (h : th.pc = .exitRemove) (hr : s.remove t th = some s') :
    Move s t th input s' := by
  obtain ⟨bm, hbm, hr⟩ := Option.bind_eq_some_iff.mp hr
  split at hr
  · next hnone => exact .removeStray h s' (.inl hnone)
  next self he =>
  split at hr
  · cases hr
    exact .crash
  next pcb hl =>
  dsimp only at hr
  split at hr
  · next hnone =>
    refine .removeStray h s' (.inr ⟨self, pcb, he, hl, ?_⟩)
    intro owner howner
    rw [hnone] at howner
    cases howner
  next owner howner =>
  split at hr
  · next hne =>
    refine .removeStray h s' (.inr ⟨self, pcb, he, hl, ?_⟩)
    intro owner' howner'
    obtain rfl := Option.some.inj (howner.symm.trans howner')
    exact hne
  split at hr
  · cases hr
    exact .crash
  next hthread =>
  cases hr
  exact .remove h bm hbm self he pcb hl (not_not.mp hthread)

theorem Move.of_fork {call : ExecCall} {index : ℕ} {child : ProcessNumber} {tail : CString}
    (h : th.pc = .execFork call index child) :
    Move s t th input (s.fork t th call index child tail) := by
  unfold State.fork
  split
  · exact .crash
  · next pcb hl => exact .execFork call index child tail h pcb hl

theorem Move.of_leaveExec {call : ExecCall} {index : ℕ} {child : ProcessNumber}
    (h : th.pc = .execLeave call index child) :
    Move s t th input (s.leaveExec t th call index child) := by
  unfold State.leaveExec
  split
  · exact .execLeave call index child index h (.inl rfl)
  · split
    · exact .crash
    · next new hnew =>
      obtain ⟨pcb, hl, hthread⟩ := Option.bind_eq_some_iff.mp hnew
      exact .execLeave call index child new.processID h (.inr ⟨pcb, new, hl, hthread, rfl⟩)

theorem Move.of_joinBegin {pid : ℤ} (h : th.pc = .joinBegin pid) :
    Move s t th input (s.joinBegin t th pid) := by
  unfold State.joinBegin
  split
  · exact .crash
  · next child he =>
    refine .of_acquire_or_crash fun pcb sem pc hl hturn => ?_
    exact .joinWait pid child (.inl ⟨h, he⟩) pcb hl sem pc hturn

theorem Move.of_joinRead {pid : ℤ} (h : th.pc = .joinRead pid) :
    Move s t th input (s.joinRead t th pid) := by
  unfold State.joinRead
  split
  · exact .crash
  next child he =>
  split
  · exact .crash
  next pcb hl =>
  have heq : (s.log (.codeRead t pcb.exitcode)).release t th child id .exitsem
      (.joinReturn pcb.exitcode) = ((s.log (.codeRead t pcb.exitcode)).setPCB child
        { pcb with exitsem := pcb.exitsem.V.2 }).setPc t th (.joinReturn pcb.exitcode) := by
    have hl' : (s.log (.codeRead t pcb.exitcode)).live child = some pcb := hl
    unfold State.release
    rw [hl']
    rfl
  rw [heq]
  exact .joinRead pid h child he pcb hl

theorem Move.of_exitRelease (h : th.pc = .exitRelease) :
    Move s t th input (s.exitRelease t th) := by
  unfold State.exitRelease
  split
  · exact .crash
  · next self he => exact .of_release fun pcb hl => .exitRelease h self he pcb hl

theorem Move.of_exitBegin (h : th.pc = .exitBegin) : Move s t th input (s.exitBegin t th) := by
  unfold State.exitBegin
  split
  · exact .crash
  · next self he =>
    refine .of_acquire_or_crash fun pcb sem pc hl hturn => ?_
    exact .exitWait self (.inl ⟨h, he⟩) pcb hl sem pc hturn

/-- Every step is one of the moves. -/
theorem step_move {l : Label} (h : step s l = some s') :
    ∃ th, s.status = .running ∧ s.thread l.thread = some th ∧ Move s l.thread th l.input s' := by
  unfold step at h
  split at h
  swap
  · cases h
  next hrun =>
  obtain ⟨th, hth, h⟩ := Option.bind_eq_some_iff.mp h
  refine ⟨th, hrun, hth, ?_⟩
  generalize hpc : th.pc = pc at h
  generalize hin : l.input = input at h ⊢
  unfold perform at h
  split at h
  case h_1 env => cases h; exact .of_started1 hpc
  case h_2 argv env => cases h; exact .of_started rfl hpc
  case h_3 call => cases h; exact .execCall call hpc _ _ (turn_P _ _ _ _)
  case h_4 pid => cases h; exact .of_joinUpdate rfl hpc
  case h_5 exitCode => cases h; exact .of_exitUpdate (.inl hpc)
  case h_6 call =>
    split at h
    · cases h
    · cases h; exact .execWake call hpc _ _ (turn_P _ _ _ _)
  case h_7 call opened => exact .of_check hpc rfl h
  case h_8 call index child =>
    refine .of_wake h fun pcb sem pc hl hturn => ?_
    exact .execLock call index child hpc pcb hl sem pc hturn
  case h_9 call index child tail => cases h; exact .of_fork hpc
  case h_10 call index child =>
    cases h
    exact .of_release fun pcb hl => .execUnlock call index child hpc pcb hl
  case h_11 call index child => cases h; exact .of_leaveExec hpc
  case h_12 value => cases h; exact .execReturn value hpc
  case h_13 pid parent =>
    refine .of_wake h fun pcb sem pc hl hturn => ?_
    exact .joinLock pid parent hpc pcb hl sem pc hturn
  case h_14 pid parent =>
    cases h
    exact .of_release fun pcb hl => .joinInc pid parent hpc pcb hl
  case h_15 pid => cases h; exact .of_joinBegin hpc
  case h_16 pid child =>
    refine .of_wake h fun pcb sem pc hl hturn => ?_
    exact .joinWait pid child (.inr hpc) pcb hl sem pc hturn
  case h_17 pid => cases h; exact .of_joinRead hpc
  case h_18 value => cases h; exact .joinReturn value hpc
  case h_19 parent =>
    refine .of_wake h fun pcb sem pc hl hturn => ?_
    exact .exitLock parent hpc pcb hl sem pc hturn
  case h_20 parent =>
    cases h
    exact .of_release fun pcb hl => .exitDec parent hpc pcb hl
  case h_21 => cases h; exact .of_exitRelease hpc
  case h_22 => cases h; exact .of_exitBegin hpc
  case h_23 self =>
    refine .of_wake h fun pcb sem pc hl hturn => ?_
    exact .exitWait self (.inr hpc) pcb hl sem pc hturn
  case h_24 => exact .of_remove hpc h
  case h_25 => cases h

end Nachos.PTable

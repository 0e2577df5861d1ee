import Nachos.Threads.ExecCalls

/-! The handshake between `JoinUpdate` and `ExitUpdate`: which steps touch it, and the exit
codes it hands over. -/
namespace Nachos.PTable

/-- How far a process has come in `ExitUpdate`: code stored, `JoinRelease` done, `ExitWait`
passed. -/
inductive Stage where
  | before | announced | released | removing
  deriving DecidableEq

def Pc.stage : Pc → Stage
  | .exitLock _ | .exitDec _ | .exitRelease => .announced
  | .exitBegin | .exitWait _ => .released
  | .exitRemove => .removing
  | _ => .before

/-- The slot of a `JoinUpdate` that passed its checks and has not passed `JoinWait`. -/
def Pc.awaiting : Pc → Option ℤ
  | .joinLock pid _ | .joinInc pid _ | .joinBegin pid | .joinWait pid _ => some pid
  | _ => none

/-- The slot of a `JoinUpdate` between `JoinWait` and `ExitRelease`. -/
def Pc.reading : Pc → Option ℤ
  | .joinRead pid => some pid
  | _ => none

/-- The slot of a `JoinUpdate` under way. -/
def Pc.joining (pc : Pc) : Option ℤ := pc.awaiting.or pc.reading

def Event.isJoinCall : Event → Bool
  | .joinPassed _ _ _ | .joinRefused _ _ => true
  | _ => false

/-- What the handshake reads of a PCB, the exit code apart. -/
def PCB.core (pcb : PCB) : ℕ × ℕ × ℤ × Bool :=
  (pcb.joinsem.value, pcb.exitsem.value, pcb.parentID, pcb.deleted)

/-- Thread `t` goes on at `pc` after the events `es`; the table stays. -/
structure Advance (s s' : State) (t : ThreadId) (th : Thread) (pc : Pc) (es : List Event) :
    Prop where
  live : th.pc ≠ .finished
  pcb : s'.pcb = s.pcb
  next : s'.next = s.next
  thread : s'.thread = Function.update s.thread t (some { th with pc })
  trace : s'.trace = es ++ s.trace
  actor : ∀ e ∈ es, e.actor = t

/-- A step that leaves the handshake alone. -/
structure Aside (s s' : State) (t : ThreadId) (th : Thread) (pc : Pc) (es : List Event) :
    Prop where
  core : ∀ o, (s'.heap o).map PCB.core = (s.heap o).map PCB.core
  exitcode : ∀ o, (s'.heap o).map PCB.exitcode = (s.heap o).map PCB.exitcode
  stage : pc.stage = th.pc.stage
  awaiting : pc.awaiting = th.pc.awaiting
  reading : pc.reading = th.pc.reading
  child : ∀ pid child, pc = .joinWait pid child →
    s.entry pid = some child ∨ th.pc = .joinWait pid child
  self : ∀ self, pc = .exitWait self →
    s.entry th.processID = some self ∨ th.pc = .exitWait self
  silent : th.pc.joining ≠ none → es = []
  outcome : ∀ value, pc = .joinReturn value → value = -1 ∧ ∃ pid, es = [.joinRefused t pid]
  returned : ∀ u value, .joinReturned u value ∈ es →
    es = [.joinReturned t value] ∧ th.pc = .joinReturn value
  exitCalled : ∀ u value, .exitCalled u value ∉ es
  removed : ∀ u i o, .removed u i o ∉ es
  joinPassed : ∀ u pid child, .joinPassed u pid child ∉ es

/-- The moves as far as the handshake is concerned. -/
inductive HandMove (s : State) (t : ThreadId) (th : Thread) (input : Input) : State → Prop
  | stop (status : Status) (h : status ≠ .running) : HandMove s t th input { s with status }
  | aside (s' : State) (pc : Pc) (es : List Event) (ha : Advance s s' t th pc es)
      (h : Aside s s' t th pc es) : HandMove s t th input s'
  | allocate (call : ExecCall) (index : ℕ) (rest : List ℕ) (multex : Semaphore)
      (checks : Checks) (h : th.pc = .execCheck call) (hfree : s.bm.clearList = index :: rest) :
      HandMove s t th input ({ s with
        bm := s.bm.insert index
        pcb := Function.update s.pcb index (some s.next)
        next := s.next + 1
        heap := Function.update s.heap s.next (some { PCB.new index th.processID with multex })
        trace := .slotTaken t index s.next :: .execChecked t checks :: s.trace }.setPc t th
          (.execFork call index s.next))
  | fork (call : ExecCall) (index : ℕ) (child : ProcessNumber) (tail : CString)
      (h : th.pc = .execFork call index child) (pcb : PCB) (hl : s.live child = some pcb) :
      HandMove s t th input ({ s with
        heap := Function.update s.heap child
          (some { pcb with thread := some child, parentID := th.processID })
        thread := Function.update s.thread child (some (State.newThread call index tail))
        trace := .forked t child :: s.trace }.setPc t th (.execUnlock call index child))
  | joinPass (s' : State) (pid : ℤ) (h : th.pc = .user) (hi : input = .join pid)
      (child : ProcessNumber) (he : s.entry pid = some child) (pcb : PCB)
      (hl : s.live child = some pcb) (hp : pcb.parentID = th.processID) (parent : ProcessNumber)
      (pc : Pc) (hpc : pc = .joinInc pid parent ∨ pc = .joinLock pid parent)
      (ha : Advance s s' t th pc [.joinPassed t pid child])
      (hcore : ∀ o, (s'.heap o).map PCB.core = (s.heap o).map PCB.core)
      (hcode : ∀ o, (s'.heap o).map PCB.exitcode = (s.heap o).map PCB.exitcode) :
      HandMove s t th input s'
  | joinEnter (s' : State) (pid : ℤ) (child : ProcessNumber)
      (h : (th.pc = .joinBegin pid ∧ s.entry pid = some child) ∨ th.pc = .joinWait pid child)
      (pcb : PCB) (hl : s.live child = some pcb) (hsem : pcb.joinsem.value ≠ 0)
      (ha : Advance s s' t th (.joinRead pid) [])
      (hheap : s'.heap = Function.update s.heap child (some { pcb with
        joinsem := { pcb.joinsem with value := pcb.joinsem.value - 1 } })) :
      HandMove s t th input s'
  | joinRead (s' : State) (pid : ℤ) (h : th.pc = .joinRead pid) (child : ProcessNumber)
      (he : s.entry pid = some child) (pcb : PCB) (hl : s.live child = some pcb)
      (ha : Advance s s' t th (.joinReturn pcb.exitcode) [.codeRead t pcb.exitcode])
      (hheap : s'.heap = Function.update s.heap child (some { pcb with
        exitsem := pcb.exitsem.V.2 })) : HandMove s t th input s'
  | exitCall (s' : State) (exitCode : ℤ) (pc : Pc) (hold : th.pc.stage = .before)
      (hjoin : th.pc.joining = none) (parent : ProcessNumber)
      (hpc : pc = .exitDec parent ∨ pc = .exitLock parent) (self : ProcessNumber)
      (hself : s.entry th.processID = some self)
      (ha : Advance s s' t th pc [.exitCalled t exitCode])
      (hcore : ∀ o, (s'.heap o).map PCB.core = (s.heap o).map PCB.core)
      (hcode : ∀ o, (s'.heap o).map PCB.exitcode =
        if o = self then some exitCode else (s.heap o).map PCB.exitcode) : HandMove s t th input s'
  | exitRelease (s' : State) (h : th.pc = .exitRelease) (self : ProcessNumber)
      (he : s.entry th.processID = some self) (pcb : PCB) (hl : s.live self = some pcb)
      (ha : Advance s s' t th .exitBegin [])
      (hheap : s'.heap = Function.update s.heap self (some { pcb with
        joinsem := pcb.joinsem.V.2 })) : HandMove s t th input s'
  | exitEnter (s' : State) (self : ProcessNumber)
      (h : (th.pc = .exitBegin ∧ s.entry th.processID = some self) ∨ th.pc = .exitWait self)
      (pcb : PCB) (hl : s.live self = some pcb) (hsem : pcb.exitsem.value ≠ 0)
      (ha : Advance s s' t th .exitRemove [])
      (hheap : s'.heap = Function.update s.heap self (some { pcb with
        exitsem := { pcb.exitsem with value := pcb.exitsem.value - 1 } })) :
      HandMove s t th input s'
  | remove (h : th.pc = .exitRemove) (bm : Bitmap MAX_PROCESS) (self : ProcessNumber)
      (he : s.pcb th.processID.toNat = some self) (pcb : PCB) (hl : s.live self = some pcb) :
      HandMove s t th input ({ s with
        bm
        pcb := Function.update s.pcb th.processID.toNat none
        heap := Function.update s.heap self (some { pcb with deleted := true })
        trace := .threadFinished t :: .removed t th.processID.toNat self :: s.trace }.setPc t th
          .finished)
  | stray (s' : State) (h : th.pc = .exitRemove)
      (hstray : s.pcb th.processID.toNat = none ∨ ∃ self pcb,
        s.pcb th.processID.toNat = some self ∧ s.live self = some pcb ∧
        ∀ owner, pcb.thread.bind s.thread = some owner → owner.processID ≠ th.processID) :
      HandMove s t th input s'

section

variable {s s' : State} {t : ThreadId} {th : Thread} {input : Input}

/-- Steps that have nothing to do with `Join` and `Exit`, but for the return of a join. -/
theorem HandMove.of_plain (pc : Pc) (es : List Event) (ha : Advance s s' t th pc es)
    (hheap : s'.heap = s.heap ∨ ∃ o pcb pcb', s.live o = some pcb ∧
      s'.heap = Function.update s.heap o (some pcb') ∧ pcb'.core = pcb.core ∧
      pcb'.exitcode = pcb.exitcode)
    (hold : th.pc.stage = .before ∧ th.pc.joining = none)
    (hnew : pc.stage = .before ∧ pc.joining = none)
    (hes : ∀ e ∈ es, (∀ u value, e ≠ .exitCalled u value) ∧ (∀ u i o, e ≠ .removed u i o) ∧
      ∀ u pid child, e ≠ .joinPassed u pid child)
    (houtcome : ∀ value, pc = .joinReturn value → value = -1 ∧ ∃ pid, es = [.joinRefused t pid])
    (hreturned : ∀ u value, .joinReturned u value ∈ es →
      es = [.joinReturned t value] ∧ th.pc = .joinReturn value) :
    HandMove s t th input s' := by
  have hkeep {α : Type} (f : PCB → α) (hf : ∀ pcb pcb' : PCB, pcb'.core = pcb.core →
      pcb'.exitcode = pcb.exitcode → f pcb' = f pcb) (o : ProcessNumber) :
      (s'.heap o).map f = (s.heap o).map f := by
    rcases hheap with heq | ⟨o', pcb, pcb', hl, heq, hcore, hcode⟩
    · rw [heq]
    · rw [heq]
      exact map_live hl (hf pcb pcb' hcore hcode) o
  have hawait : pc.awaiting = none ∧ pc.reading = none := by
    simpa [Pc.joining, Option.or_eq_none_iff] using hnew.2
  have hawait' : th.pc.awaiting = none ∧ th.pc.reading = none := by
    simpa [Pc.joining, Option.or_eq_none_iff] using hold.2
  refine .aside s' pc es ha ⟨hkeep _ fun _ _ h _ => h, hkeep _ fun _ _ _ h => h,
    hnew.1.trans hold.1.symm, hawait.1.trans hawait'.1.symm, hawait.2.trans hawait'.2.symm, ?_, ?_,
    fun h => absurd hold.2 h, houtcome, hreturned, ?_, ?_, ?_⟩
  · rintro pid child rfl
    exact absurd hawait.1 (by simp [Pc.awaiting])
  · rintro self rfl
    exact absurd hnew.1 (by simp [Pc.stage])
  · intro u value hm
    exact (hes _ hm).1 u value rfl
  · intro u i o hm
    exact (hes _ hm).2.1 u i o rfl
  · intro u pid child hm
    exact (hes _ hm).2.2 u pid child rfl

/-- Steps inside `IncNumWait` and `DecNumWait`. -/
theorem HandMove.of_multex (pc : Pc) {o : ProcessNumber} {pcb pcb' : PCB}
    (ha : Advance s s' t th pc []) (hl : s.live o = some pcb)
    (hheap : s'.heap = Function.update s.heap o (some pcb')) (hcore : pcb'.core = pcb.core)
    (hcode : pcb'.exitcode = pcb.exitcode) (hstage : pc.stage = th.pc.stage)
    (hawaiting : pc.awaiting = th.pc.awaiting) (hreading : pc.reading = th.pc.reading)
    (hwait : ∀ pid child, pc ≠ .joinWait pid child) (hself : ∀ self, pc ≠ .exitWait self)
    (hreturn : ∀ value, pc ≠ .joinReturn value) : HandMove s t th input s' := by
  refine .aside s' pc [] ha ⟨?_, ?_, hstage, hawaiting, hreading,
    fun pid child h => absurd h (hwait pid child), fun self h => absurd h (hself self),
    fun _ => rfl, fun value h => absurd h (hreturn value), by simp, by simp, by simp, by simp⟩
  · intro u
    rw [hheap]
    exact map_live hl hcore u
  · intro u
    rw [hheap]
    exact map_live hl hcode u

theorem Move.hand (hm : Move s t th input s') : HandMove s t th input s' := by
  cases hm with
  | stop status h => exact .stop status h
  | run h =>
    refine .of_plain .user [] ⟨?_, rfl, rfl, rfl, rfl, by simp⟩ (.inl rfl) ?_
      ⟨rfl, rfl⟩ (by simp) (by simp) (by simp)
    · rcases h with h | ⟨argv, h⟩ <;> simp [h]
    · rcases h with h | ⟨argv, h⟩ <;> rw [h] <;> exact ⟨rfl, rfl⟩
  | giveUp argv env h hi hr =>
    refine .of_plain .finished [_] ⟨by simp [h], rfl, rfl, rfl, rfl,
      by simp [Event.actor]⟩ (.inl rfl) (by rw [h]; exact ⟨rfl, rfl⟩) ⟨rfl, rfl⟩ (by simp)
      (by simp) (by simp)
  | execCall call h bmsem pc hturn =>
    refine .of_plain pc [_] ⟨by simp [h], rfl, rfl, rfl, rfl,
      by simp [Event.actor]⟩ (.inl rfl) (by rw [h]; exact ⟨rfl, rfl⟩) ?_ (by simp) ?_ (by simp)
    all_goals rcases hturn.pc_cases with rfl | rfl <;> simp [Pc.stage, Pc.joining, Pc.awaiting,
      Pc.reading]
  | execWake call h bmsem pc hturn =>
    refine .of_plain pc [] ⟨by simp [h], rfl, rfl, rfl, rfl, by simp⟩ (.inl rfl)
      (by rw [h]; exact ⟨rfl, rfl⟩) ?_ (by simp) ?_ (by simp)
    all_goals rcases hturn.pc_cases with rfl | rfl <;> simp [Pc.stage, Pc.joining, Pc.awaiting,
      Pc.reading]
  | execRefuse call opened h hi hr =>
    exact .of_plain (.execReturn (-1)) [_, _] ⟨by simp [h], rfl, rfl, rfl, rfl,
      by simp [Event.actor]⟩ (.inl rfl) (by rw [h]; exact ⟨rfl, rfl⟩) ⟨rfl, rfl⟩ (by simp)
      (by simp) (by simp)
  | execAllocate call name index rest h hi hname hother hfree =>
    exact .allocate call index rest ⟨0, []⟩ _ h hfree
  | execLock call index child h pcb hl sem pc hturn =>
    refine .of_plain pc [] ⟨by simp [h], rfl, rfl, rfl, rfl, by simp⟩
      (.inr ⟨child, pcb, _, hl, rfl, rfl, rfl⟩) (by rw [h]; exact ⟨rfl, rfl⟩) ?_ (by simp) ?_
      (by simp)
    all_goals rcases hturn.pc_cases with rfl | rfl <;> simp [Pc.stage, Pc.joining, Pc.awaiting,
      Pc.reading]
  | execFork call index child tail h pcb hl => exact .fork call index child tail h pcb hl
  | execUnlock call index child h pcb hl =>
    exact .of_plain (.execLeave call index child) [] ⟨by simp [h], rfl, rfl, rfl, rfl,
      by simp⟩ (.inr ⟨child, pcb, _, hl, rfl, rfl, rfl⟩) (by rw [h]; exact ⟨rfl, rfl⟩) ⟨rfl, rfl⟩
      (by simp) (by simp) (by simp)
  | execLeave call index child value h hvalue =>
    exact .of_plain (.execReturn value) [_] ⟨by simp [h], rfl, rfl, rfl, rfl,
      by simp [Event.actor]⟩ (.inl rfl) (by rw [h]; exact ⟨rfl, rfl⟩) ⟨rfl, rfl⟩ (by simp)
      (by simp) (by simp)
  | execReturn value h =>
    exact .of_plain .user [_] ⟨by simp [h], rfl, rfl, rfl, rfl,
      by simp [Event.actor]⟩ (.inl rfl) (by rw [h]; exact ⟨rfl, rfl⟩) ⟨rfl, rfl⟩ (by simp)
      (by simp) (by simp)
  | joinRefuse pid h =>
    exact .of_plain (.joinReturn (-1)) [.joinRefused t pid] ⟨by simp [h], rfl, rfl,
      rfl, rfl, by simp [Event.actor]⟩ (.inl rfl) (by rw [h]; exact ⟨rfl, rfl⟩) ⟨rfl, rfl⟩ (by simp)
      (by simp) (by simp)
  | joinPass pid h hi child he pcb hl hp parent hparent ppcb hpl sem pc hturn =>
    exact .joinPass _ pid h hi child he pcb hl hp parent pc hturn.pc_cases
      ⟨by simp [h], rfl, rfl, rfl, rfl, by simp [Event.actor]⟩ (map_live hpl rfl)
      (map_live hpl rfl)
  | joinLock pid parent h pcb hl sem pc hturn =>
    refine .of_multex pc ⟨by simp [h], rfl, rfl, rfl, rfl, by simp⟩ hl rfl rfl rfl ?_ ?_ ?_
      ?_ ?_ ?_
    all_goals rcases hturn.pc_cases with rfl | rfl <;> simp [h, Pc.stage, Pc.awaiting, Pc.reading]
  | joinInc pid parent h pcb hl =>
    refine .of_multex (.joinBegin pid) ⟨by simp [h], rfl, rfl, rfl, rfl, by simp⟩ hl rfl rfl
      rfl ?_ ?_ ?_ ?_ ?_ ?_
    all_goals simp [h, Pc.stage, Pc.awaiting, Pc.reading]
  | joinWait pid child h pcb hl sem pc hturn =>
    have hlive : th.pc ≠ .finished := by rcases h with ⟨h, -⟩ | h <;> simp [h]
    cases hturn with
    | entered hsem =>
      exact .joinEnter _ pid child h pcb hl hsem ⟨hlive, rfl, rfl, rfl, rfl, by simp⟩ rfl
    | queued hsem =>
      refine .aside _ (.joinWait pid child) [] ⟨hlive, rfl, rfl, rfl, rfl, by simp⟩
        ⟨map_live hl rfl, map_live hl rfl, ?_, ?_, ?_, ?_, by simp, by simp, by simp, by simp,
          by simp, by simp, by simp⟩
      all_goals rcases h with ⟨h, he⟩ | h <;> simp [h, Pc.stage, Pc.awaiting, Pc.reading]
      exact he
  | joinRead pid h child he pcb hl =>
    exact .joinRead _ pid h child he pcb hl ⟨by simp [h], rfl, rfl, rfl, rfl, by simp [Event.actor]⟩
      rfl
  | joinReturn value h =>
    exact .of_plain .user [.joinReturned t value] ⟨by simp [h], rfl, rfl, rfl, rfl,
      by simp [Event.actor]⟩ (.inl rfl) (by rw [h]; exact ⟨rfl, rfl⟩) ⟨rfl, rfl⟩ (by simp)
      (by simp) (by simp [h])
  | exitCall exitCode h hid self he pcb hl parent hparent ppcb hpl sem pc hturn =>
    have hold : th.pc ≠ .finished ∧ th.pc.stage = .before ∧ th.pc.joining = none := by
      rcases h with h | h | ⟨argv, h⟩ <;> rw [h] <;> simp [Pc.stage, Pc.joining, Pc.awaiting,
        Pc.reading]
    refine .exitCall _ exitCode pc hold.2.1 hold.2.2 parent hturn.pc_cases self he
      ⟨hold.1, rfl, rfl, rfl, rfl, by simp [Event.actor]⟩ ?_ ?_
    · intro o
      exact (map_live (f := PCB.core) (q := { ppcb with multex := sem }) hpl rfl o).trans
        (map_live (q := { pcb with exitcode := exitCode }) hl rfl o)
    · intro o
      refine (map_live (f := PCB.exitcode) (q := { ppcb with multex := sem }) hpl rfl o).trans ?_
      rw [State.setPCB_heap]
      by_cases ho : o = self
      · rw [ho, Function.update_self, if_pos rfl]
        rfl
      · rw [Function.update_of_ne ho, if_neg ho]
  | exitLock parent h pcb hl sem pc hturn =>
    refine .of_multex pc ⟨by simp [h], rfl, rfl, rfl, rfl, by simp⟩ hl rfl rfl rfl ?_ ?_ ?_
      ?_ ?_ ?_
    all_goals rcases hturn.pc_cases with rfl | rfl <;> simp [h, Pc.stage, Pc.awaiting, Pc.reading]
  | exitDec parent h pcb hl =>
    refine .of_multex .exitRelease ⟨by simp [h], rfl, rfl, rfl, rfl, by simp⟩ hl rfl rfl
      rfl ?_ ?_ ?_ ?_ ?_ ?_
    all_goals simp [h, Pc.stage, Pc.awaiting, Pc.reading]
  | exitRelease h self he pcb hl =>
    exact .exitRelease _ h self he pcb hl ⟨by simp [h], rfl, rfl, rfl, rfl, by simp⟩ rfl
  | exitWait self h pcb hl sem pc hturn =>
    have hlive : th.pc ≠ .finished := by rcases h with ⟨h, -⟩ | h <;> simp [h]
    cases hturn with
    | entered hsem =>
      exact .exitEnter _ self h pcb hl hsem ⟨hlive, rfl, rfl, rfl, rfl, by simp⟩ rfl
    | queued hsem =>
      refine .aside _ (.exitWait self) [] ⟨hlive, rfl, rfl, rfl, rfl, by simp⟩
        ⟨map_live hl rfl, map_live hl rfl, ?_, ?_, ?_, by simp, ?_, by simp, by simp, by simp,
          by simp, by simp, by simp⟩
      all_goals rcases h with ⟨h, he⟩ | h <;> simp [h, Pc.stage, Pc.awaiting, Pc.reading]
      exact he
  | remove h bm hbm self he pcb hl hthread => exact .remove h bm self he pcb hl
  | removeStray h s' hstray => exact .stray s' h hstray

theorem State.newThread_stage (call : ExecCall) (index : ℕ) (tail : CString) :
    (State.newThread call index tail).pc.stage = .before := by
  unfold State.newThread
  cases call.kind <;> rfl

theorem State.newThread_joining (call : ExecCall) (index : ℕ) (tail : CString) :
    (State.newThread call index tail).pc.joining = none := by
  unfold State.newThread
  cases call.kind <;> rfl

/-- Exit codes: the code of an exiting process is the one it called `ExitUpdate` with, it
calls it once, and a removed PCB is deleted. -/
structure CodeInv (s : State) : Prop where
  called : ∀ o value, .exitCalled o value ∈ s.trace →
    ∃ th, s.thread o = some th ∧ (th.pc.stage ≠ .before ∨ th.pc = .finished)
  unique : ∀ o value value', .exitCalled o value ∈ s.trace → .exitCalled o value' ∈ s.trace →
    value = value'
  code : ∀ t th, s.thread t = some th → th.pc.stage ≠ .before →
    ∃ pcb, s.heap t = some pcb ∧ .exitCalled t pcb.exitcode ∈ s.trace
  removed : ∀ u i o, .removed u i o ∈ s.trace → ∃ pcb, s.heap o = some pcb ∧ pcb.deleted = true

namespace CodeInv

/-- Steps without an exit or a removal. -/
theorem keep (h : CodeInv s) (es : List Event) (htrace : s'.trace = es ++ s.trace)
    (hexit : ∀ u value, .exitCalled u value ∉ es) (hremove : ∀ u i o, .removed u i o ∉ es)
    (hheap : ∀ o pcb, s.heap o = some pcb → ∃ pcb', s'.heap o = some pcb' ∧
      pcb'.exitcode = pcb.exitcode ∧ pcb'.deleted = pcb.deleted)
    (hout : ∀ u uh, s.thread u = some uh → uh.pc.stage ≠ .before ∨ uh.pc = .finished →
      ∃ uh', s'.thread u = some uh' ∧ (uh'.pc.stage ≠ .before ∨ uh'.pc = .finished))
    (hin : ∀ u uh', s'.thread u = some uh' → uh'.pc.stage ≠ .before →
      ∃ uh, s.thread u = some uh ∧ uh.pc.stage ≠ .before) : CodeInv s' := by
  have hcalled {o : ThreadId} {value : ℤ} (hm : .exitCalled o value ∈ s'.trace) :
      .exitCalled o value ∈ s.trace := by
    rw [htrace] at hm
    exact (List.mem_append.mp hm).resolve_left (hexit o value)
  constructor
  · intro o value hm
    obtain ⟨th, hth, hstage⟩ := h.called o value (hcalled hm)
    exact hout o th hth hstage
  · intro o value value' hm hm'
    exact h.unique o value value' (hcalled hm) (hcalled hm')
  · intro u uh' hu hstage
    obtain ⟨uh, hu, hold⟩ := hin u uh' hu hstage
    obtain ⟨pcb, hp, hm⟩ := h.code u uh hu hold
    obtain ⟨pcb', hp', hcode, -⟩ := hheap u pcb hp
    exact ⟨pcb', hp', by rw [hcode, htrace]; exact List.mem_append_right es hm⟩
  · intro u i o hm
    rw [htrace] at hm
    obtain ⟨pcb, hp, hd⟩ := h.removed u i o ((List.mem_append.mp hm).resolve_left (hremove u i o))
    obtain ⟨pcb', hp', -, hd'⟩ := hheap o pcb hp
    exact ⟨pcb', hp', hd'.trans hd⟩

theorem advance (h : CodeInv s) (hth : s.thread t = some th) {pc : Pc} {es : List Event}
    (ha : Advance s s' t th pc es) (hexit : ∀ u value, .exitCalled u value ∉ es)
    (hremove : ∀ u i o, .removed u i o ∉ es)
    (hcode : ∀ o, (s'.heap o).map PCB.exitcode = (s.heap o).map PCB.exitcode)
    (hdeleted : ∀ o, (s'.heap o).map PCB.deleted = (s.heap o).map PCB.deleted)
    (hstage : pc.stage = .before ↔ th.pc.stage = .before) : CodeInv s' := by
  refine h.keep _ ha.trace hexit hremove ?_ ?_ ?_
  · intro o pcb hp
    obtain ⟨pcb', hp', hc⟩ := exists_of_map (hcode o) hp
    obtain ⟨pcb'', hp'', hd⟩ := exists_of_map (hdeleted o) hp
    rw [hp'] at hp''
    cases hp''
    exact ⟨pcb', hp', hc, hd⟩
  · intro u uh hu hold
    rw [ha.thread]
    by_cases hut : u = t
    · subst hut
      rw [hth] at hu
      cases hu
      refine ⟨_, Function.update_self .., .inl ?_⟩
      rw [Ne, hstage]
      exact hold.resolve_right ha.live
    · exact ⟨uh, by rw [Function.update_of_ne hut, hu], hold⟩
  · intro u uh' hu hnew
    rw [ha.thread] at hu
    rcases update_some_cases hu with ⟨rfl, rfl⟩ | ⟨-, hu⟩
    · exact ⟨th, hth, fun hold => hnew (hstage.mpr hold)⟩
    · exact ⟨uh', hu, hnew⟩

theorem exitCall (h : CodeInv s) (ht : TableInv s) (hth : s.thread t = some th) {pc : Pc}
    {exitCode : ℤ} {self : ProcessNumber} (hold : th.pc.stage = .before)
    (hnew : pc.stage = .announced) (hself : s.entry th.processID = some self)
    (ha : Advance s s' t th pc [.exitCalled t exitCode])
    (hcore : ∀ o, (s'.heap o).map PCB.core = (s.heap o).map PCB.core)
    (hcode : ∀ o, (s'.heap o).map PCB.exitcode =
      if o = self then some exitCode else (s.heap o).map PCB.exitcode) : CodeInv s' := by
  rw [ht.own t th hth ha.live] at hself
  cases hself
  have hmem {o : ThreadId} {value : ℤ} : .exitCalled o value ∈ s'.trace ↔
      (o = t ∧ value = exitCode) ∨ .exitCalled o value ∈ s.trace := by
    rw [ha.trace]
    simp
  -- this is its first call
  have hfirst {value : ℤ} (hm : .exitCalled t value ∈ s.trace) : False := by
    obtain ⟨th', hth', hstage⟩ := h.called t value hm
    rw [hth] at hth'
    cases hth'
    exact hstage.elim (fun hne => hne hold) ha.live
  constructor
  · intro o value hm
    rw [ha.thread]
    by_cases hot : o = t
    · subst hot
      exact ⟨_, Function.update_self .., .inl (by simp [hnew])⟩
    · obtain ⟨oh, ho, hstage⟩ := h.called o value ((hmem.mp hm).resolve_left fun hc => hot hc.1)
      exact ⟨oh, by rw [Function.update_of_ne hot, ho], hstage⟩
  · intro o value value' hm hm'
    rcases hmem.mp hm with ⟨ho, hv⟩ | hm <;> rcases hmem.mp hm' with ⟨ho', hv'⟩ | hm'
    · rw [hv, hv']
    · exact (hfirst (ho ▸ hm')).elim
    · exact (hfirst (ho' ▸ hm)).elim
    · exact h.unique o value value' hm hm'
  · intro u uh hu hstage
    rw [ha.thread] at hu
    rcases update_some_cases hu with ⟨rfl, rfl⟩ | ⟨hut, hu⟩
    · have := hcode u
      rw [if_pos rfl] at this
      obtain ⟨pcb, hp, rfl⟩ := Option.map_eq_some_iff.mp this
      exact ⟨pcb, hp, hmem.mpr (.inl ⟨rfl, rfl⟩)⟩
    · obtain ⟨pcb, hp, hm⟩ := h.code u uh hu hstage
      have := hcode u
      rw [if_neg hut] at this
      obtain ⟨pcb', hp', hc⟩ := exists_of_map this hp
      exact ⟨pcb', hp', hmem.mpr (.inr (hc ▸ hm))⟩
  · intro u i o hm
    rw [ha.trace] at hm
    obtain ⟨pcb, hp, hd⟩ := h.removed u i o (by simpa using hm)
    obtain ⟨pcb', hp', hc⟩ := exists_of_map (hcore o) hp
    simp only [PCB.core, Prod.mk.injEq] at hc
    exact ⟨pcb', hp', hc.2.2.2.trans hd⟩

theorem remove (h : CodeInv s) {bm : Bitmap MAX_PROCESS} {slots : ℕ → Option ProcessNumber}
    {pcb : PCB} (hth : s.thread t = some th) (hl : s.live t = some pcb) :
    CodeInv ({ s with
      bm
      pcb := slots
      heap := Function.update s.heap t (some { pcb with deleted := true })
      trace := .threadFinished t :: .removed t th.processID.toNat t :: s.trace }.setPc t th
        .finished) := by
  have hheap := (State.live_eq_some_iff.mp hl).1
  have hcalled {o : ThreadId} {value : ℤ}
      (hm : .exitCalled o value ∈ Event.threadFinished t :: .removed t th.processID.toNat t ::
        s.trace) : .exitCalled o value ∈ s.trace := by
    simpa using hm
  constructor
  · intro o value hm
    by_cases hot : o = t
    · subst hot
      exact ⟨_, Function.update_self .., .inr rfl⟩
    · obtain ⟨oh, ho, hstage⟩ := h.called o value (hcalled hm)
      exact ⟨oh, (Function.update_of_ne hot _ _).trans ho, hstage⟩
  · intro o value value' hm hm'
    exact h.unique o value value' (hcalled hm) (hcalled hm')
  · intro u uh hu hstage
    rcases update_some_cases hu with ⟨rfl, rfl⟩ | ⟨hut, hu⟩
    · exact absurd rfl hstage
    · obtain ⟨upcb, hp, hm⟩ := h.code u uh hu hstage
      exact ⟨upcb, (Function.update_of_ne hut _ _).trans hp,
        List.mem_cons_of_mem _ (List.mem_cons_of_mem _ hm)⟩
  · intro u i o hm
    by_cases hot : o = t
    · subst hot
      exact ⟨_, Function.update_self .., rfl⟩
    · have hm : .removed u i o ∈ s.trace := by
        simpa [hot] using hm
      obtain ⟨opcb, hp, hd⟩ := h.removed u i o hm
      exact ⟨opcb, (Function.update_of_ne hot _ _).trans hp, hd⟩

theorem deleted_of_core {heap heap' : ProcessNumber → Option PCB} {o : ProcessNumber}
    (h : (heap' o).map PCB.core = (heap o).map PCB.core) :
    (heap' o).map PCB.deleted = (heap o).map PCB.deleted := by
  have := congrArg (Option.map fun core : ℕ × ℕ × ℤ × Bool => core.2.2.2) h
  rw [Option.map_map, Option.map_map] at this
  exact this

/-- Writing one PCB without its exit code and its mark of deletion. -/
theorem map_of_update {α : Type*} {f : PCB → α} {o : ProcessNumber} {pcb pcb' : PCB}
    (hheap : s'.heap = Function.update s.heap o (some pcb')) (hl : s.live o = some pcb)
    (hf : f pcb' = f pcb) (u : ProcessNumber) : (s'.heap u).map f = (s.heap u).map f := by
  rw [hheap]
  exact map_live hl hf u

theorem move (h : CodeInv s) (ht : TableInv s) (hth : s.thread t = some th)
    (hm : HandMove s t th input s') : CodeInv s' := by
  cases hm with
  | stop status _ => exact ⟨h.called, h.unique, h.code, h.removed⟩
  | aside s' pc es ha haside =>
    refine h.advance hth ha haside.exitCalled haside.removed haside.exitcode ?_
      (by rw [haside.stage])
    exact fun o => deleted_of_core (haside.core o)
  | allocate call index rest multex checks hpc hfree =>
    refine h.keep [_, _] rfl (by simp) (by simp) ?_ ?_ ?_
    · intro o pcb hp
      exact ⟨pcb, (Function.update_of_ne (ht.heap_lt hp).ne _ _).trans hp, rfl, rfl⟩
    · intro u uh hu hold
      have hut : u ≠ t := by
        rintro rfl
        rw [hth] at hu
        cases hu
        simp [hpc, Pc.stage] at hold
      exact ⟨uh, (Function.update_of_ne hut _ _).trans hu, hold⟩
    · intro u uh hu hnew
      rcases update_some_cases hu with ⟨rfl, rfl⟩ | ⟨-, hu⟩
      · exact absurd rfl hnew
      · exact ⟨uh, hu, hnew⟩
  | fork call index child tail hpc pcb hl =>
    obtain ⟨-, hnone, -⟩ := ht.creating t th index child hth (by rw [hpc]; rfl)
    refine h.keep [_] rfl (by simp) (by simp) ?_ ?_ ?_
    · intro o old hp
      by_cases ho : o = child
      · subst ho
        rw [(State.live_eq_some_iff.mp hl).1] at hp
        cases hp
        exact ⟨_, Function.update_self .., rfl, rfl⟩
      · exact ⟨old, (Function.update_of_ne ho _ _).trans hp, rfl, rfl⟩
    · intro u uh hu hold
      have hut : u ≠ t := by
        rintro rfl
        rw [hth] at hu
        cases hu
        simp [hpc, Pc.stage] at hold
      have huc : u ≠ child := by
        rintro rfl
        rw [hnone] at hu
        cases hu
      refine ⟨uh, ?_, hold⟩
      exact (Function.update_of_ne hut _ _).trans ((Function.update_of_ne huc _ _).trans hu)
    · intro u uh hu hnew
      rcases update_some_cases hu with ⟨rfl, rfl⟩ | ⟨-, hu⟩
      · exact absurd rfl hnew
      · rcases update_some_cases hu with ⟨rfl, rfl⟩ | ⟨-, hu⟩
        · exact absurd (State.newThread_stage call index tail) hnew
        · exact ⟨uh, hu, hnew⟩
  | joinPass s' pid hpc hi child he pcb hl hp parent pc hnew ha hcore hcode =>
    refine h.advance hth ha (by simp) (by simp) hcode (fun o => deleted_of_core (hcore o)) ?_
    rcases hnew with rfl | rfl <;> simp [hpc, Pc.stage]
  | joinEnter s' pid child hpc pcb hl hsem ha hheap =>
    refine h.advance hth ha (by simp) (by simp) (map_of_update hheap hl rfl)
      (map_of_update hheap hl rfl) ?_
    rcases hpc with ⟨hpc, -⟩ | hpc <;> simp [hpc, Pc.stage]
  | joinRead s' pid hpc child he pcb hl ha hheap =>
    exact h.advance hth ha (by simp) (by simp) (map_of_update hheap hl rfl)
      (map_of_update hheap hl rfl) (by simp [hpc, Pc.stage])
  | exitCall s' exitCode pc hold hjoin parent hpc self hself ha hcore hcode =>
    refine h.exitCall ht hth hold ?_ hself ha hcore hcode
    rcases hpc with rfl | rfl <;> rfl
  | exitRelease s' hpc self he pcb hl ha hheap =>
    exact h.advance hth ha (by simp) (by simp) (map_of_update hheap hl rfl)
      (map_of_update hheap hl rfl) (by simp [hpc, Pc.stage])
  | exitEnter s' self hpc pcb hl hsem ha hheap =>
    refine h.advance hth ha (by simp) (by simp) (map_of_update hheap hl rfl)
      (map_of_update hheap hl rfl) ?_
    rcases hpc with ⟨hpc, -⟩ | hpc <;> simp [hpc, Pc.stage]
  | remove hpc bm self he pcb hl =>
    obtain rfl := ht.removed_self hth hpc he
    exact h.remove hth hl
  | stray s' hpc hstray => exact (ht.not_stray hth hpc hstray).elim

end CodeInv

theorem Initial.codeInv (h : Initial s) : CodeInv s := by
  constructor
  · intro o value hm
    rw [h.trace] at hm
    cases hm
  · intro o value value' hm
    rw [h.trace] at hm
    cases hm
  · intro t th hth hstage
    rw [h.thread] at hth
    rcases update_some_cases hth with ⟨-, rfl⟩ | ⟨-, hth⟩
    · exact absurd rfl hstage
    · cases hth
  · intro u i o hm
    rw [h.trace] at hm
    cases hm

end

end Nachos.PTable

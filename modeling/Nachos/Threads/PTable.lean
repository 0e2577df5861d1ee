import Nachos.Library.Runs
import Nachos.Lib.Bitmap
import Nachos.Threads.Synch
import Nachos.Threads.StartProcess

/-! The process table (`threads/ptable.cc`, `threads/pcb.cc`) under every interleaving.
Kernel code gives up the processor only inside `P`, `V` and `Fork`, so a step runs one
thread from one such point to the next. A thread asleep in `P` is one in the queue of
the semaphore; a thread woken there tests the counter again. Using a `NULL` entry, or a
PCB after its deletion, ends the run as crashed. -/
namespace Nachos.PTable

abbrev MAX_PROCESS : ℕ := 10

/-- A process is numbered once and for all; the number names its PCB and its thread. -/
abbrev ProcessNumber := ℕ

structure PCB where
  joinsem : Semaphore
  exitsem : Semaphore
  multex : Semaphore
  exitcode : ℤ
  numwait : ℕ
  thread : Option ThreadId
  parentID : ℤ
  processID : ℤ
  /-- The destructor has run. -/
  deleted : Bool
  deriving DecidableEq

/-- `PCB::PCB` called by a thread whose `processID` is `current`. -/
def PCB.new (id : ℕ) (current : ℤ) : PCB where
  joinsem := Semaphore.new 0
  exitsem := Semaphore.new 0
  multex := Semaphore.new 1
  exitcode := 0
  numwait := 0
  thread := none
  parentID := if id = 0 then -1 else current
  processID := id
  deleted := false

inductive SemName where
  | joinsem | exitsem | multex
  deriving DecidableEq

def PCB.sem (pcb : PCB) : SemName → Semaphore
  | .joinsem => pcb.joinsem
  | .exitsem => pcb.exitsem
  | .multex => pcb.multex

def PCB.setSem (pcb : PCB) (sem : Semaphore) : SemName → PCB
  | .joinsem => { pcb with joinsem := sem }
  | .exitsem => { pcb with exitsem := sem }
  | .multex => { pcb with multex := sem }

inductive ExecKind where
  | update
  | v (arguments : List CString)
  deriving DecidableEq

/-- A call of `ExecUpdate(name)`, or of `ExecV(argc, argv)` with `name` for `argv[0]`. -/
structure ExecCall where
  kind : ExecKind
  name : Option CString
  deriving DecidableEq

/-- Where a thread is. Names ending in `Lock` or `Wait`, and `execEnter`, are inside `P`. -/
inductive Pc where
  | start1
  | start2 (argv : List CString)
  | user
  | execEnter (call : ExecCall)
  | execCheck (call : ExecCall)
  | execLock (call : ExecCall) (index : ℕ) (child : ProcessNumber)
  | execFork (call : ExecCall) (index : ℕ) (child : ProcessNumber)
  | execUnlock (call : ExecCall) (index : ℕ) (child : ProcessNumber)
  | execLeave (call : ExecCall) (index : ℕ) (child : ProcessNumber)
  | execReturn (value : ℤ)
  | joinLock (pid : ℤ) (parent : ProcessNumber)
  | joinInc (pid : ℤ) (parent : ProcessNumber)
  | joinBegin (pid : ℤ)
  | joinWait (pid : ℤ) (child : ProcessNumber)
  | joinRead (pid : ℤ)
  | joinReturn (value : ℤ)
  | exitLock (parent : ProcessNumber)
  | exitDec (parent : ProcessNumber)
  | exitRelease
  | exitBegin
  | exitWait (self : ProcessNumber)
  | exitRemove
  | finished
  deriving DecidableEq

structure Thread where
  name : CString
  processID : ℤ
  pc : Pc
  deriving DecidableEq

/-- What the checks of `ExecUpdate` and `ExecV` are about, at the moment they are made. -/
structure Checks where
  name : Option CString
  current : CString
  opened : Bool
  free : List ℕ
  deriving DecidableEq

/-- The observable part of what thread `t` does. -/
inductive Event where
  | execCalled (t : ThreadId) (call : ExecCall)
  | execChecked (t : ThreadId) (checks : Checks)
  | slotTaken (t : ThreadId) (index : ℕ) (child : ProcessNumber)
  | forked (t : ThreadId) (child : ProcessNumber)
  | bmsemReleased (t : ThreadId)
  | execReturned (t : ThreadId) (value : ℤ)
  | joinPassed (t : ThreadId) (pid : ℤ) (child : ProcessNumber)
  | joinRefused (t : ThreadId) (pid : ℤ)
  | codeRead (t : ThreadId) (value : ℤ)
  | joinReturned (t : ThreadId) (value : ℤ)
  | exitCalled (t : ThreadId) (exitCode : ℤ)
  | removed (t : ThreadId) (index : ℕ) (process : ProcessNumber)
  | threadFinished (t : ThreadId)
  deriving DecidableEq

inductive Status where
  | running | halted | crashed
  deriving DecidableEq

structure State where
  bm : Bitmap MAX_PROCESS
  pcb : ℕ → Option ProcessNumber
  bmsem : Semaphore
  heap : ProcessNumber → Option PCB
  thread : ThreadId → Option Thread
  next : ℕ
  status : Status
  /-- What happened so far, the last event first. -/
  trace : List Event

namespace State

variable (s : State) (t : ThreadId) (th : Thread)

@[simps] def log (e : Event) : State := { s with trace := e :: s.trace }

@[simps] def crash : State := { s with status := .crashed }

/-- Thread `t`, with the fields of `th`, goes on at `pc`. -/
@[simps] def setPc (pc : Pc) : State :=
  { s with thread := Function.update s.thread t (some { th with pc }) }

@[simps] def setPCB (o : ProcessNumber) (pcb : PCB) : State :=
  { s with heap := Function.update s.heap o (some pcb) }

/-- The entry `pcb[i]`. -/
def entry (i : ℤ) : Option ProcessNumber :=
  if 0 ≤ i ∧ i < MAX_PROCESS then s.pcb i.toNat else none

/-- The PCB object, unless it has been deleted. -/
def live (o : ProcessNumber) : Option PCB := (s.heap o).filter fun pcb => !pcb.deleted

/-- The entry `pcb[i]`, when it can be used. -/
def livePCB (i : ℤ) : Option ProcessNumber := (s.entry i).filter fun o => (s.live o).isSome

/-- One turn in `P` on a semaphore of PCB `o`. -/
def acquire (o : ProcessNumber) (name : SemName) (done retry : Pc) : State :=
  match s.live o with
  | none => s.crash
  | some pcb =>
    let (entered, sem) := (pcb.sem name).P t
    (s.setPCB o (pcb.setSem sem name)).setPc t th (if entered then done else retry)

/-- Another turn in `P`, once the thread is no longer in the queue. -/
def wake (o : ProcessNumber) (name : SemName) (done retry : Pc) : Option State :=
  if ((s.heap o).any fun pcb => t ∈ (pcb.sem name).queue) then none
  else some (s.acquire t th o name done retry)

/-- `f` applied to PCB `o`, followed by `V` on one of its semaphores. -/
def release (o : ProcessNumber) (f : PCB → PCB) (name : SemName) (pc : Pc) : State :=
  match s.live o with
  | none => s.crash
  | some pcb => (s.setPCB o ((f pcb).setSem ((f pcb).sem name).V.2 name)).setPc t th pc

/-- One turn in `bmsem->P()`. -/
def enter (call : ExecCall) : State :=
  let (entered, bmsem) := s.bmsem.P t
  { s with bmsem }.setPc t th (if entered then .execCheck call else .execEnter call)

/-- `bmsem->V()`, followed by the return. -/
def leave (value : ℤ) : State :=
  ({ s with bmsem := s.bmsem.V.2 }.log (.bmsemReleased t)).setPc t th (.execReturn value)

/-- The free entries of the table. -/
def freeSlots : List ℕ := (List.range MAX_PROCESS).filter fun i => (s.pcb i).isNone

/-- From `GetFreeSlot` in `ExecUpdate` and `ExecV` to `multex->P()` in the new PCB. -/
def allocate (call : ExecCall) : Option State := do
  let (index, bm) ← s.bm.findAndSet
  if index < 0 then return { s with bm }.leave t th (-1)
  else
    let pcb := PCB.new index.toNat th.processID
    let (entered, multex) := pcb.multex.P t
    let taken : State := { s.log (.slotTaken t index.toNat s.next) with
      bm
      pcb := Function.update s.pcb index.toNat (some s.next)
      next := s.next + 1
      heap := Function.update s.heap s.next (some { pcb with multex }) }
    return taken.setPc t th (if entered then .execFork call index.toNat s.next
      else .execLock call index.toNat s.next)

/-- The checks of `ExecUpdate` on the answer of `Open`. -/
def execUpdate (call : ExecCall) (opened : Bool) : Option State :=
  match call.name with
  | none => s.leave t th (-1)
  | some name =>
    if !opened then s.leave t th (-1)
    else if name = th.name then s.leave t th (-1)
    else s.allocate t th call

/-- The checks of `ExecV`, which asks for the name before it opens the file. -/
def execV (call : ExecCall) (opened : Bool) : Option State :=
  match call.name with
  | none => s.leave t th (-1)
  | some name =>
    if name = th.name then s.leave t th (-1)
    else if !opened then s.leave t th (-1)
    else s.allocate t th call

/-- Both entry points, from the return of `bmsem->P()` on. -/
def check (call : ExecCall) (opened : Bool) : Option State :=
  let checked := s.log (.execChecked t ⟨call.name, th.name, opened, s.freeSlots⟩)
  match call.kind with
  | .update => checked.execUpdate t th call opened
  | .v _ => checked.execV t th call opened

/-- The new thread of `PCB::Exec` and `PCB::ExecV`. The copy of the name made for `Exec`
has no terminator, so the name goes on with the string `tail` found behind it. -/
def newThread (call : ExecCall) (index : ℕ) (tail : CString) : Thread :=
  let name : CString := call.name.getD emptyString
  match call.kind with
  | .update =>
    ⟨⟨name.val ++ tail.val, by simp [name.property, tail.property]⟩, index, .start1⟩
  | .v arguments => ⟨name, index, .start2 (name :: arguments)⟩

/-- From `new Thread` to `Fork`. -/
def fork (call : ExecCall) (index : ℕ) (child : ProcessNumber) (tail : CString) : State :=
  match s.live child with
  | none => s.crash
  | some pcb =>
    let forked : State := { s with
      heap := Function.update s.heap child
        (some { pcb with thread := some child, parentID := th.processID })
      thread := Function.update s.thread child (some (newThread call index tail)) }
    (forked.log (.forked t child)).setPc t th (.execUnlock call index child)

/-- The return from `PCB::Exec`, which reads `thread->processID`, or from `PCB::ExecV`,
whose value is not used; then `bmsem->V()`. -/
def leaveExec (call : ExecCall) (index : ℕ) (child : ProcessNumber) : State :=
  match call.kind with
  | .v _ => s.leave t th index
  | .update =>
    match (s.live child).bind fun pcb => pcb.thread.bind s.thread with
    | none => s.crash
    | some new => s.leave t th new.processID

/-- `JoinUpdate`, up to the first turn in `multex->P()`. -/
def joinUpdate (pid : ℤ) : State :=
  match s.entry pid with
  | none => (s.log (.joinRefused t pid)).setPc t th (.joinReturn (-1))
  | some child =>
    match s.live child with
    | none => s.crash
    | some pcb =>
      if pcb.parentID ≠ th.processID then
        (s.log (.joinRefused t pid)).setPc t th (.joinReturn (-1))
      else
        match s.livePCB pcb.parentID with
        | none => s.crash
        | some parent => (s.log (.joinPassed t pid child)).acquire t th parent .multex
            (.joinInc pid parent) (.joinLock pid parent)

/-- `pcb[pid]->JoinWait()`, the first turn. -/
def joinBegin (pid : ℤ) : State :=
  match s.entry pid with
  | none => s.crash
  | some child => s.acquire t th child .joinsem (.joinRead pid) (.joinWait pid child)

/-- `GetExitCode` and `ExitRelease`, both on `pcb[pid]`. -/
def joinRead (pid : ℤ) : State :=
  match s.entry pid with
  | none => s.crash
  | some child =>
    match s.live child with
    | none => s.crash
    | some pcb => (s.log (.codeRead t pcb.exitcode)).release t th child id .exitsem
        (.joinReturn pcb.exitcode)

/-- `ExitUpdate`, up to the first turn in the parent's `multex->P()`. -/
def exitUpdate (exitCode : ℤ) : State :=
  match s.entry th.processID with
  | none => s.crash
  | some self =>
    if th.processID = 0 then { s with status := .halted }
    else
      match s.live self with
      | none => s.crash
      | some pcb =>
        match s.livePCB pcb.parentID with
        | none => s.crash
        | some parent => ((s.setPCB self { pcb with exitcode := exitCode }).log
            (.exitCalled t exitCode)).acquire t th parent .multex (.exitDec parent)
              (.exitLock parent)

/-- `pcb[id]->JoinRelease()`. -/
def exitRelease : State :=
  match s.entry th.processID with
  | none => s.crash
  | some self => s.release t th self id .joinsem .exitBegin

/-- `pcb[id]->ExitWait()`, the first turn. -/
def exitBegin : State :=
  match s.entry th.processID with
  | none => s.crash
  | some self => s.acquire t th self .exitsem .exitRemove (.exitWait self)

/-- `Remove(id)` and the destructor of the PCB, which ends the thread it belongs to. -/
def remove : Option State := do
  let bm ← s.bm.clear th.processID
  match s.pcb th.processID.toNat with
  | none => return { s with bm }.setPc t th .user
  | some self =>
    match s.live self with
    | none => return s.crash
    | some pcb =>
      let removed : State := { s with
        bm
        pcb := Function.update s.pcb th.processID.toNat none
        heap := Function.update s.heap self (some { pcb with deleted := true }) }
      let logged := removed.log (.removed t th.processID.toNat self)
      match pcb.thread.bind s.thread with
      | none => return logged.setPc t th .user
      | some owner =>
        if owner.processID ≠ th.processID then return logged.setPc t th .user
        else if pcb.thread ≠ some t then return s.crash
        else return (logged.log (.threadFinished t)).setPc t th .finished

/-- The exceptions for which `ExceptionHandler` calls `ExitUpdate`; any other one fails an
assertion. -/
def handled : ExceptionType → Bool
  | .addressErrorException | .readOnlyException | .illegalInstrException | .overflowException
  | .busErrorException => true
  | _ => false

/-- A start routine comes to its end; one that returns does so into `Thread::Finish`. -/
def started : Started → State
  | .returned => (s.log (.threadFinished t)).setPc t th .finished
  | .exception which _ => if handled which then s.exitUpdate t th which.code else s.crash
  | .run _ => s.setPc t th .user
  | .abort => s.crash

end State

/-- What a step depends on besides the state: the request of a user program, the answer of
the host to `Open`, the memory behind a name, or what a start routine finds. -/
inductive Input where
  | start (env : StartEnv)
  | exec (call : ExecCall)
  | join (pid : ℤ)
  | exit (exitCode : ℤ)
  | check (opened : Bool)
  | fork (tail : CString)
  | go

structure Label where
  thread : ThreadId
  input : Input

def perform (s : State) (t : ThreadId) (th : Thread) : Pc → Input → Option State
  | .start1, .start env => s.started t th (startProcess1 env)
  | .start2 argv, .start env => s.started t th (startProcess2 env argv)
  | .user, .exec call => (s.log (.execCalled t call)).enter t th call
  | .user, .join pid => s.joinUpdate t th pid
  | .user, .exit exitCode => s.exitUpdate t th exitCode
  | .execEnter call, .go => if t ∈ s.bmsem.queue then none else s.enter t th call
  | .execCheck call, .check opened => s.check t th call opened
  | .execLock call index child, .go =>
    s.wake t th child .multex (.execFork call index child) (.execLock call index child)
  | .execFork call index child, .fork tail => s.fork t th call index child tail
  | .execUnlock call index child, .go =>
    s.release t th child id .multex (.execLeave call index child)
  | .execLeave call index child, .go => s.leaveExec t th call index child
  | .execReturn value, .go => (s.log (.execReturned t value)).setPc t th .user
  | .joinLock pid parent, .go =>
    s.wake t th parent .multex (.joinInc pid parent) (.joinLock pid parent)
  | .joinInc pid parent, .go => s.release t th parent
    (fun pcb => { pcb with numwait := pcb.numwait + 1 }) .multex (.joinBegin pid)
  | .joinBegin pid, .go => s.joinBegin t th pid
  | .joinWait pid child, .go => s.wake t th child .joinsem (.joinRead pid) (.joinWait pid child)
  | .joinRead pid, .go => s.joinRead t th pid
  | .joinReturn value, .go => (s.log (.joinReturned t value)).setPc t th .user
  | .exitLock parent, .go => s.wake t th parent .multex (.exitDec parent) (.exitLock parent)
  | .exitDec parent, .go => s.release t th parent
    (fun pcb => { pcb with numwait := pcb.numwait - 1 }) .multex .exitRelease
  | .exitRelease, .go => s.exitRelease t th
  | .exitBegin, .go => s.exitBegin t th
  | .exitWait self, .go => s.wake t th self .exitsem .exitRemove (.exitWait self)
  | .exitRemove, .go => s.remove t th
  | _, _ => none

/-- One thread runs from one point where it can lose the processor to the next. -/
def step (s : State) (l : Label) : Option State :=
  if s.status = .running then do
    let th ← s.thread l.thread
    perform s l.thread th th.pc l.input
  else none

def mainThread : Thread := ⟨⟨[109, 97, 105, 110], by decide⟩, 0, .user⟩

/-- The kernel once the table is built; the main thread is process 0. -/
def initial : Option State := do
  let bm ← Bitmap.new MAX_PROCESS
  let bm ← bm.mark 0
  return {
    bm
    pcb := Function.update (fun _ => none) 0 (some 0)
    bmsem := Semaphore.new 1
    heap := Function.update (fun _ => none) 0 (some (PCB.new 0 0))
    thread := Function.update (fun _ => none) 0 (some mainThread)
    next := 1
    status := .running
    trace := [] }

/-- A call of `ExecUpdate` or `ExecV` by `t` that finds the file and is not disturbed. -/
def execSteps (t : ThreadId) (kind : ExecKind) (name : CString) : List Label :=
  [⟨t, .exec ⟨kind, some name⟩⟩, ⟨t, .check true⟩, ⟨t, .fork emptyString⟩, ⟨t, .go⟩,
    ⟨t, .go⟩, ⟨t, .go⟩]

/-- `n` turns of `t` that need no answer from outside. -/
def goSteps (t : ThreadId) (n : ℕ) : List Label := List.replicate n ⟨t, .go⟩

end Nachos.PTable

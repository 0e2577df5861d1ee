import Nachos.Userprog.Ksyscall

/-! `ExceptionHandler` (`userprog/exception.cc`). Most system calls are worked off here. Those
that go to the process table or to the named semaphores can lose the processor there, so the
handler ends with a request for them. -/
namespace Nachos

abbrev MaxFileLength : ℤ := 32

/-- What `ExceptionHandler` asks of the rest of the kernel. -/
inductive Request where
  /-- Nothing: it has returned to the user program. -/
  | resume
  | halt
  | execUpdate (name : CString)
  | execV (argv : List CString)
  | joinUpdate (pid : ℤ)
  | exitUpdate (exitCode : ℤ)
  /-- `HandleNonSyscallException`; an assertion fails if it comes back. -/
  | handleNonSyscallException (which : ExceptionType)
  | createSemaphore (name : CString) (init : ℤ)
  | wait (name : CString)
  | signal (name : CString)
  deriving DecidableEq

/-- The first index from `first` on with an empty entry, or -1. -/
def FileSystem.freeEntry (fs : FileSystem) (first : ℕ) : ℤ :=
  let empty := (List.finRange 20).find? fun i => first ≤ i.val ∧ (fs.openf i).isNone
  empty.elim (-1) fun i => i.val

namespace Sys

variable {W : Type} (host : Host W)

/-- An `int` argument. -/
def argument (num : Fin NumTotalRegs) : Sys W ℤ := do
  let value ← readRegister num
  return value.toInt

@[simp] theorem ends_argument {num : Fin NumTotalRegs} {k : Kernel W} {Q : ℤ → Kernel W → Prop}
    {E : Stop → Kernel W → Prop} :
    EStateM.Ends (argument num) k Q E ↔ Q (k.machine.registers num).toInt k := Iff.rfl

def scRead : Sys W Unit := do
  let virtAddr ← readRegister 4
  let len ← argument 5
  let id ← argument 6
  if id > 19 ∨ id < 0 then finish (-1)
  else
    let file ← openf id
    if file = none then finish (-1)
    else if id = 1 then finish (-1)
    else
      let oldPos ← onFile id (OpenFile.getCurrentPos host)
      let buffer ← user2System host virtAddr len
      if id = 0 then readLine host virtAddr len buffer
      else
        let length ← onFile id (OpenFile.length host)
        if oldPos = length ∧ len > 0 then finish 0
        else
          let (numRead, buffer) ← onFile id fun f => f.read host buffer (len - 1)
          if numRead.toInt > 0 then
            let buffer ← poke buffer (len - 1) 0
            let newPos ← onFile id (OpenFile.getCurrentPos host)
            let _ ← system2User virtAddr (newPos - oldPos).toInt buffer
            finish (newPos - oldPos)
          else finish (-1)

/-- The range of `openf_id` is tested only after the entry has been used. -/
def scWrite : Sys W Unit := do
  let virtAddr ← readRegister 4
  let len ← argument 5
  let openfId ← argument 6
  let file ← openf openfId
  if file = none then finish (-1)
  else
    let f ← deref file
    if openfId ≠ 1 ∧ f.fdType ≠ 0 then finish (-1)
    else if openfId > 19 ∨ openfId < 0 then finish (-1)
    else if f.permission = 1 then finish (-1)
    else if openfId = 0 then finish (-1)
    else
      let buffer ← user2System host virtAddr len
      if openfId = 1 then putString host len buffer
      else
        let before ← onFile openfId (OpenFile.getCurrentPos host)
        let last ← peek buffer (len - 1)
        let len := if last = 0 then len - 1 else len
        if len ≤ 0 then finish (-1)
        else
          let written ← onFile openfId fun f => f.write host buffer len
          if written ≠ 0 then
            let after ← onFile openfId (OpenFile.getCurrentPos host)
            let _ ← system2User virtAddr (after - before).toInt buffer
            finish (after - before + 1)
          else increasePC

def scConnect : Sys W Unit := do
  let index ← argument 4
  let f ← deref (← openf index)
  let socketID := f.file
  let port ← readRegister 6
  let virtAddr ← readRegister 5
  let ip ← user2System host virtAddr 32
  if socketID.toInt < 0 then finish (-1)
  else
    let result ← ask fun w => host.connect w socketID (cString ip) port
    if result.toInt < 0 then finish (-1) else finish 0

def scSeek : Sys W Unit := do
  let pos ← readRegister 4
  let id ← argument 5
  if id < 0 ∨ id > 19 then finish (-1)
  else
    let file ← openf id
    if file = none then finish (-1)
    else if id = 0 ∨ id = 1 then finish (-1)
    else
      let pos ← if pos = -1 then onFile id (OpenFile.length host) else pure pos
      let length ← onFile id (OpenFile.length host)
      if pos.toInt > length.toInt ∨ pos.toInt < 0 then finish (-1)
      else
        let _ ← onFile id fun f => f.seek host pos
        finish pos

def scClose : Sys W Unit := do
  let fID ← argument 4
  if fID > 19 then finish (-1)
  else if fID ≥ 0 then
    let file ← openf fID
    if file = none then finish (-1)
    else
      let f ← deref file
      close host f.file
      setOpenf fID none
      let _ ← tableDescriptor fID
      setTableDescriptor fID none
      finish 0
  else finish (-1)

/-- `errno` of a `recv` on a socket that is not connected. -/
abbrev ENOTCONN : Word := 107

/-- `errno` of a `send` on a connection that is closed. -/
abbrev EPIPE : Word := 32

/-- The range of `id` is tested only after the entry has been used. -/
def scReceive : Sys W Unit := do
  let id ← argument 4
  let file ← openf id
  if file = none then finish (-1)
  else
    let f ← deref file
    let virtAddr ← readRegister 5
    let len ← argument 6
    if id > 19 ∨ id < 0 then finish (-1)
    else if f.fdType = 1 then
      let buffer ← newChars host (len + 1)
      let answer ← ask fun w => host.recv w f.file (sizeT len)
      let buffer ← received buffer answer
      let result := answer.value
      if result.toInt < 0 then
        let error ← errno host
        if error = ENOTCONN then finish 0 else finish (-1)
      else
        let _ ← system2User virtAddr result.toInt buffer
        finish result
    else finish (-1)

/-- The bound for `id` is `index`, which counts the entries the constructor has made. -/
def scSend : Sys W Unit := do
  let id ← argument 4
  let file ← openf id
  if file = none then finish (-1)
  else
    let f ← deref file
    let virtAddr ← readRegister 5
    let len ← argument 6
    let index := (← fileSystem).index
    if id > index ∨ id < 0 then finish (-1)
    else if f.fdType = 1 then
      let buffer ← user2System host virtAddr len
      let bytes ← bytesOf buffer len
      let result ← ask fun w => host.send w f.file bytes
      let error ← errno host
      if error = EPIPE then finish 0
      else if result.toInt < 0 then finish (-1)
      else finish result
    else finish (-1)

def scReadString : Sys W Unit := do
  let bufferVirtAddr ← readRegister 4
  let len ← argument 5
  let buffer ← user2System host bufferVirtAddr len
  readLine host bufferVirtAddr len buffer

def scPrintString : Sys W Unit := do
  let bufferVirtAddr ← readRegister 4
  let len ← argument 5
  let buffer ← user2System host bufferVirtAddr len
  putString host len buffer

def scCreate : Sys W Unit := do
  let virtAddr ← readRegister 4
  let filename ← user2System host virtAddr (MaxFileLength + 1)
  if (← FileSystem.create host (cString filename)) then finish 0 else finish (-1)

def scAdd : Sys W Unit := do
  let op1 ← readRegister 4
  let op2 ← readRegister 5
  finish (op1 + op2)

/-- The name is entered whether or not the host has opened the file. -/
def scOpen : Sys W Unit := do
  let bufferVirtAddr ← readRegister 4
  let permission ← argument 5
  let fileName ← user2System host bufferVirtAddr (MaxFileLength + 1)
  let openFileID := FileSystem.freeEntry (← fileSystem) 2
  if openFileID ≠ -1 ∧ (permission = 0 ∨ permission = 1) then
    let file ← FileSystem.openFile host (cString fileName) 0 permission
    setOpenf openFileID file
    setTableDescriptor openFileID (some (cString fileName))
    finish (BitVec.ofInt 32 openFileID)
  else finish (-1)

def scRemove : Sys W Unit := do
  let virtAddr ← readRegister 4
  let filename ← user2System host virtAddr MaxFileLength
  let fs ← fileSystem
  if ∃ i : Fin 20, 2 ≤ (i : ℕ) ∧ fs.tableDescriptor i = some (cString filename) then finish (-1)
  else if (← FileSystem.remove host (cString filename)) then finish 0
  else finish (-1)

def scSocketTCP : Sys W Unit := do
  let socketID ← ask host.socket
  if socketID = -1 then finish (-1)
  else
    let openFileID := FileSystem.freeEntry (← fileSystem) 0
    if openFileID ≠ -1 then
      setOpenf openFileID (some (FileSystem.openSocket socketID))
      finish (BitVec.ofInt 32 openFileID)
    else finish (-1)

/-- The loop of `SC_ExecV` from argument `i` on. -/
def copyArgv (virtAddr : Word) : (n i : ℕ) → Sys W (List CString)
  | 0, _ => pure []
  | n + 1, i => do
    let address ← hardware (Sim.readMem (virtAddr + BitVec.ofNat 32 (i * 4)) 4)
    let buffer ← user2System host address 1024
    let rest ← copyArgv virtAddr n (i + 1)
    return cString buffer :: rest

/-- `new char*[argc]` is an exception when `argc` is negative or the array too large. -/
def scExecV : Sys W Request := do
  let argc ← argument 4
  let virtAddr ← readRegister 5
  assert (0 ≤ argc ∧ 4 * argc < 2 ^ 31)
  let argv ← copyArgv host virtAddr argc.toNat 0
  return .execV argv

/-- A file or semaphore name, at the address in register 4. -/
def nameArgument : Sys W CString := do
  let virtAddr ← readRegister 4
  let filename ← user2System host virtAddr (MaxFileLength + 1)
  return cString filename

/-- A handler that returns to the user program itself. -/
def resuming (handler : Sys W Unit) : Sys W Request := do
  handler
  return .resume

/-- The inner `switch`, on the code in register 2. -/
def syscall (type : ℕ) : Sys W Request :=
  match type with
  | 0 => pure .halt
  | 1 => return .exitUpdate (← argument 4)
  | 2 => return .execUpdate (← nameArgument host)
  | 3 => return .joinUpdate (← argument 4)
  | 4 => resuming (scCreate host)
  | 5 => resuming (scRemove host)
  | 6 => resuming (scOpen host)
  | 7 => resuming (scRead host)
  | 8 => resuming (scWrite host)
  | 9 => resuming (scSeek host)
  | 10 => resuming (scClose host)
  | 13 => scExecV host
  | 42 => resuming scAdd
  | 43 => resuming (scReadString host)
  | 44 => resuming (scPrintString host)
  | 99 => resuming (scSocketTCP host)
  | 100 => resuming (scConnect host)
  | 101 => resuming (scSend host)
  | 102 => resuming (scReceive host)
  | 104 => do
    let semVal ← argument 5
    return .createSemaphore (← nameArgument host) semVal
  | 105 => return .wait (← nameArgument host)
  | 106 => return .signal (← nameArgument host)
  | _ => throw .abort

/-- `ExceptionHandler`, up to its return or its request to the rest of the kernel. -/
def exceptionHandler : ExceptionType → Sys W Request
  | .syscallException => do
    let type ← readRegister 2
    syscall host type.toNat
  | .addressErrorException => pure (.handleNonSyscallException .addressErrorException)
  | .readOnlyException => pure (.handleNonSyscallException .readOnlyException)
  | .illegalInstrException => pure (.handleNonSyscallException .illegalInstrException)
  | .overflowException => pure (.handleNonSyscallException .overflowException)
  | .busErrorException => pure (.handleNonSyscallException .busErrorException)
  | .noException | .pageFaultException => throw .abort

end Sys
end Nachos

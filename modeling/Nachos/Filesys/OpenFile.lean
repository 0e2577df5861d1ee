import Nachos.Library.Ends
import Nachos.Threads.StartProcess

/-! Kernel code that talks to the host: the wrappers of `lib/sysdep.cc`, the stub file
system of `filesys/openfile.h` and `filesys/filesys.h`, and the table of open files. The
host answers as it likes; what the kernel relies on is kept in `Host`. Debugging output
is off, and memory for an array of a size an `int` can hold is always found. -/
namespace Nachos

/-- The most bytes `read` and its relatives transfer in one call. -/
abbrev MaxTransfer : ℕ := 0x7ffff000

/-- What `read` and `recv` answer when `count` bytes are asked for: the bytes stored in
the caller's buffer, or nothing when the call fails. -/
structure Transfer (count : ℕ) where
  bytes : Option (List UInt8)
  length_le : ∀ stored ∈ bytes, stored.length ≤ min count MaxTransfer

namespace Transfer

variable {count : ℕ} (t : Transfer count)

/-- What has been stored. -/
def stored : List UInt8 := t.bytes.getD []

/-- The `int` the caller gets. -/
def value : Word :=
  match t.bytes with
  | none => -1
  | some stored => BitVec.ofNat 32 stored.length

theorem length_stored_le : t.stored.length ≤ count := by
  unfold stored
  cases h : t.bytes with
  | none => exact Nat.zero_le _
  | some stored => exact (t.length_le stored h).trans (min_le_left _ _)

theorem toInt_value_le : t.value.toInt ≤ t.stored.length := by
  unfold value stored
  cases h : t.bytes with
  | none => decide
  | some stored =>
    have hmod := Nat.mod_le stored.length (2 ^ 32)
    simp only [Option.getD_some, BitVec.toInt_eq_toNat_cond, BitVec.toNat_ofNat]
    split <;> omega

end Transfer

/-- The system calls of the host and the console, with `W` for all the host remembers. -/
structure Host (W : Type) where
  /-- `open(name, flags)`; `creating` is for `O_RDWR|O_CREAT|O_TRUNC` against `O_RDWR`. -/
  openFd : W → CString → (creating : Bool) → Word × W
  close : W → (fd : Word) → Word × W
  lseek : W → (fd offset : Word) → (whence : ℕ) → Word × W
  read : W → (fd : Word) → (count : ℕ) → Transfer count × W
  write : W → (fd : Word) → List UInt8 → Word × W
  unlink : W → CString → Word × W
  socket : W → Word × W
  connect : W → (sockID : Word) → (ip : CString) → (port : Word) → Word × W
  send : W → (sockID : Word) → List UInt8 → Word × W
  recv : W → (sockID : Word) → (count : ℕ) → Transfer count × W
  errno : W → Word
  /-- `synchConsoleIn->GetChar()` and `synchConsoleOut->PutChar(ch)`. -/
  getChar : W → UInt8 × W
  putChar : W → UInt8 → W
  /-- What an array holds that has just been allocated. -/
  fresh : W → ℕ → UInt8

structure OpenFile where
  /-- 0 for normal files, 1 for sockets. -/
  fdType : ℤ
  permission : ℤ
  currentOffset : Word
  file : Word
  deriving DecidableEq

/-- The constructor with three arguments. -/
def OpenFile.new (f : Word) (fdType permission : ℤ) : OpenFile :=
  if fdType = 0 then { fdType, permission, currentOffset := 0, file := f }
  else { fdType := 1, permission := -1, currentOffset := -1, file := f }

structure FileSystem where
  openf : Fin 20 → Option OpenFile
  index : ℤ
  tableDescriptor : Fin 20 → Option CString

theorem toNat_lt_twenty {id : ℤ} (h : 0 ≤ id ∧ id < 20) : id.toNat < 20 := by omega

namespace FileSystem

/-- The entry `openf[id]`, empty for an `id` outside the table. -/
def entry (fs : FileSystem) (id : ℤ) : Option OpenFile :=
  if h : 0 ≤ id ∧ id < 20 then fs.openf ⟨id.toNat, toNat_lt_twenty h⟩ else none

/-- The table with another file, or none, at `id`. -/
def setEntry (fs : FileSystem) (id : ℤ) (file : Option OpenFile) : FileSystem :=
  if h : 0 ≤ id ∧ id < 20 then
    { fs with openf := Function.update fs.openf ⟨id.toNat, toNat_lt_twenty h⟩ file }
  else fs

/-- `tableDescriptor[id]`, and the table with another name there. -/
def name (fs : FileSystem) (id : ℤ) : Option CString :=
  if h : 0 ≤ id ∧ id < 20 then fs.tableDescriptor ⟨id.toNat, toNat_lt_twenty h⟩ else none

def setName (fs : FileSystem) (id : ℤ) (name : Option CString) : FileSystem :=
  if h : 0 ≤ id ∧ id < 20 then
    let i := ⟨id.toNat, toNat_lt_twenty h⟩
    { fs with tableDescriptor := Function.update fs.tableDescriptor i name }
  else fs

theorem entry_setEntry {fs : FileSystem} {id : ℤ} (h : 0 ≤ id ∧ id < 20)
    (file : Option OpenFile) : (fs.setEntry id file).entry id = file := by
  simp [setEntry, entry, h]

theorem range_of_entry {fs : FileSystem} {id : ℤ} {f : OpenFile} (h : fs.entry id = some f) :
    0 ≤ id ∧ id < 20 := by
  unfold entry at h
  split at h
  · assumption
  · cases h

end FileSystem

/-- What a system call works on: the machine as the trap has left it, the file system, and
the host. -/
structure Kernel (W : Type) where
  machine : Machine
  fileSystem : FileSystem
  host : W

/-- Why kernel code does not come to its end. -/
inductive Stop where
  /-- User memory refused an access, and `ExceptionHandler` runs; it does not come back. -/
  | trap (which : ExceptionType)
  /-- An index outside its array. -/
  | badIndex
  | nullPointer
  /-- An assertion failed, or an exception was thrown that nothing catches. -/
  | abort
  deriving DecidableEq

abbrev Sys (W : Type) := EStateM Stop (Kernel W)

namespace Sys

variable {W α : Type} (host : Host W)

/-- A hardware operation. -/
def hardware (x : Sim α) : Sys W α := fun k =>
  match x k.machine with
  | .ok a machine => .ok a { k with machine }
  | .trap which machine => .error (.trap which) { k with machine }
  | .abort => .error .abort k

/-- `Machine::ReadRegister` and `Machine::WriteRegister`. -/
def readRegister (num : Fin NumTotalRegs) : Sys W Word := hardware (Sim.reg num)

def writeRegister (num : Fin NumTotalRegs) (value : Word) : Sys W Unit :=
  hardware (Sim.setReg num value)

/-- A call to the host. -/
def ask (call : W → α × W) : Sys W α := fun k =>
  .ok (call k.host).1 { k with host := (call k.host).2 }

/-- `errno`. -/
def errno : Sys W Word := fun k => .ok (host.errno k.host) k

def assert (condition : Prop) [Decidable condition] : Sys W Unit :=
  if condition then pure () else throw .abort

/-- The object behind a pointer. -/
def deref (pointer : Option α) : Sys W α :=
  match pointer with
  | none => throw .nullPointer
  | some a => pure a

/-- `new char[size]`; a size that is negative, or wraps to a negative one, is an exception. -/
def newChars (size : ℤ) : Sys W (List UInt8) := fun k =>
  if 0 ≤ size ∧ size < 2 ^ 31 then .ok ((List.range size.toNat).map (host.fresh k.host)) k
  else .error .abort k

/-- `buffer[i]`. -/
def peek (buffer : List UInt8) (i : ℤ) : Sys W UInt8 :=
  if 0 ≤ i ∧ i < buffer.length then pure (buffer.getD i.toNat 0) else throw .badIndex

/-- `buffer[i] = ch`. -/
def poke (buffer : List UInt8) (i : ℤ) (ch : UInt8) : Sys W (List UInt8) :=
  if 0 ≤ i ∧ i < buffer.length then pure (buffer.set i.toNat ch) else throw .badIndex

/-- An `int` as the `size_t` of a host call. -/
def sizeT (n : ℤ) : ℕ := (BitVec.ofInt 32 n).toNat

theorem sizeT_le {n : ℤ} (h0 : 0 ≤ n) : (sizeT n : ℤ) ≤ n := by
  simp only [sizeT, BitVec.toNat_ofInt]
  omega

theorem toNat_sizeT {n : ℤ} (h0 : 0 ≤ n) (h : n < 2 ^ 31) : (sizeT n : ℤ) = n := by
  simp only [sizeT, BitVec.toNat_ofInt]
  omega

/-- The bytes the host takes from `buffer`. -/
def bytesOf (buffer : List UInt8) (n : ℤ) : Sys W (List UInt8) :=
  if sizeT n ≤ buffer.length then pure (buffer.take (sizeT n)) else throw .badIndex

/-- The buffer after the host has stored its answer at the beginning. -/
def received {count : ℕ} (buffer : List UInt8) (t : Transfer count) : Sys W (List UInt8) :=
  if t.stored.length ≤ buffer.length then pure (t.stored ++ buffer.drop t.stored.length)
  else throw .badIndex

section

open EStateM

variable {k : Kernel W} {Q : α → Kernel W → Prop} {E : Stop → Kernel W → Prop}

@[simp] theorem ends_readRegister {num : Fin NumTotalRegs} {Q : Word → Kernel W → Prop} :
    Ends (readRegister num) k Q E ↔ Q (k.machine.registers num) k := Iff.rfl

@[simp] theorem ends_writeRegister {num : Fin NumTotalRegs} {value : Word}
    {Q : Unit → Kernel W → Prop} :
    Ends (writeRegister num value) k Q E ↔ Q () { k with machine := { k.machine with
      registers := Function.update k.machine.registers num value } } := Iff.rfl

@[simp] theorem ends_ask {call : W → α × W} :
    Ends (ask call) k Q E ↔ Q (call k.host).1 { k with host := (call k.host).2 } := Iff.rfl

@[simp] theorem ends_errno {Q : Word → Kernel W → Prop} :
    Ends (errno host) k Q E ↔ Q (host.errno k.host) k := Iff.rfl

@[simp] theorem ends_assert {condition : Prop} [Decidable condition] {Q : Unit → Kernel W → Prop} :
    Ends (assert condition) k Q E ↔ if condition then Q () k else E .abort k := by
  simp [assert]

@[simp] theorem ends_deref {pointer : Option α} :
    Ends (deref pointer) k Q E ↔ pointer.elim (E .nullPointer k) fun a => Q a k := by
  cases pointer <;> rfl

@[simp] theorem ends_newChars {size : ℤ} {Q : List UInt8 → Kernel W → Prop} :
    Ends (newChars host size) k Q E ↔ if 0 ≤ size ∧ size < 2 ^ 31 then
      Q ((List.range size.toNat).map (host.fresh k.host)) k else E .abort k := by
  unfold Ends newChars
  split_ifs <;> rfl

@[simp] theorem ends_peek {buffer : List UInt8} {i : ℤ} {Q : UInt8 → Kernel W → Prop} :
    Ends (peek buffer i) k Q E ↔ if 0 ≤ i ∧ i < buffer.length then
      Q (buffer.getD i.toNat 0) k else E .badIndex k := by
  simp [peek]

@[simp] theorem ends_poke {buffer : List UInt8} {i : ℤ} {ch : UInt8}
    {Q : List UInt8 → Kernel W → Prop} :
    Ends (poke buffer i ch) k Q E ↔ if 0 ≤ i ∧ i < buffer.length then
      Q (buffer.set i.toNat ch) k else E .badIndex k := by
  simp [poke]

@[simp] theorem ends_bytesOf {buffer : List UInt8} {n : ℤ} {Q : List UInt8 → Kernel W → Prop} :
    Ends (bytesOf buffer n) k Q E ↔ if sizeT n ≤ buffer.length then
      Q (buffer.take (sizeT n)) k else E .badIndex k := by
  simp [bytesOf]

@[simp] theorem ends_received {count : ℕ} {buffer : List UInt8} {t : Transfer count}
    {Q : List UInt8 → Kernel W → Prop} :
    Ends (received buffer t) k Q E ↔ if t.stored.length ≤ buffer.length then
      Q (t.stored ++ buffer.drop t.stored.length) k else E .badIndex k := by
  simp [received]

end

/-! `lib/sysdep.cc` -/

def openForWrite (name : CString) : Sys W Word := do
  let fd ← ask fun w => host.openFd w name true
  assert (0 ≤ fd.toInt)
  return fd

def openForReadWrite (name : CString) (crashOnError : Bool) : Sys W Word := do
  let fd ← ask fun w => host.openFd w name false
  assert (crashOnError = false ∨ 0 ≤ fd.toInt)
  return fd

def readPartial (fd : Word) (buffer : List UInt8) (nBytes : ℤ) :
    Sys W (Word × List UInt8) := do
  let answer ← ask fun w => host.read w fd (sizeT nBytes)
  let buffer ← received buffer answer
  return (answer.value, buffer)

def writeFile (fd : Word) (buffer : List UInt8) (nBytes : ℤ) : Sys W Unit := do
  let bytes ← bytesOf buffer nBytes
  let retVal ← ask fun w => host.write w fd bytes
  assert (retVal.toInt = nBytes)

def lseek (fd offset : Word) (whence : ℕ) : Sys W Unit := do
  let retVal ← ask fun w => host.lseek w fd offset whence
  assert (0 ≤ retVal.toInt)

/-- `Tell`, the position (`SEEK_CUR` is 1); a failure is not noticed. -/
def tell (fd : Word) : Sys W Word := ask fun w => host.lseek w fd 0 1

def close (fd : Word) : Sys W Unit := do
  let retVal ← ask fun w => host.close w fd
  assert (0 ≤ retVal.toInt)

/-- `Unlink` returns a `bool`, so it is 0 exactly when the host's answer is. -/
def unlink (name : CString) : Sys W Bool := do
  let retVal ← ask fun w => host.unlink w name
  return retVal ≠ 0

section

open EStateM

variable {k : Kernel W} {E : Stop → Kernel W → Prop}

@[simp] theorem ends_readPartial {fd : Word} {buffer : List UInt8} {nBytes : ℤ}
    {Q : Word × List UInt8 → Kernel W → Prop} :
    Ends (readPartial host fd buffer nBytes) k Q E ↔
      let (answer, w) := host.read k.host fd (sizeT nBytes)
      if answer.stored.length ≤ buffer.length then
        Q (answer.value, answer.stored ++ buffer.drop answer.stored.length) { k with host := w }
      else E .badIndex { k with host := w } := by
  simp [readPartial]

@[simp] theorem ends_writeFile {fd : Word} {buffer : List UInt8} {nBytes : ℤ}
    {Q : Unit → Kernel W → Prop} :
    Ends (writeFile host fd buffer nBytes) k Q E ↔
      if sizeT nBytes ≤ buffer.length then
        let (retVal, w) := host.write k.host fd (buffer.take (sizeT nBytes))
        if retVal.toInt = nBytes then Q () { k with host := w } else E .abort { k with host := w }
      else E .badIndex k := by
  simp [writeFile]

@[simp] theorem ends_lseek {fd offset : Word} {whence : ℕ} {Q : Unit → Kernel W → Prop} :
    Ends (lseek host fd offset whence) k Q E ↔
      let (retVal, w) := host.lseek k.host fd offset whence
      if 0 ≤ retVal.toInt then Q () { k with host := w } else E .abort { k with host := w } := by
  simp [lseek]

@[simp] theorem ends_tell {fd : Word} {Q : Word → Kernel W → Prop} :
    Ends (tell host fd) k Q E ↔
      Q (host.lseek k.host fd 0 1).1 { k with host := (host.lseek k.host fd 0 1).2 } := Iff.rfl

@[simp] theorem ends_close {fd : Word} {Q : Unit → Kernel W → Prop} :
    Ends (close host fd) k Q E ↔
      let (retVal, w) := host.close k.host fd
      if 0 ≤ retVal.toInt then Q () { k with host := w } else E .abort { k with host := w } := by
  simp [close]

end

/-! The descriptor table -/

def fileSystem : Sys W FileSystem := fun k => .ok k.fileSystem k

def modifyFileSystem (f : FileSystem → FileSystem) : Sys W Unit := fun k =>
  .ok () { k with fileSystem := f k.fileSystem }

/-- The bounds of `openf` and `tableDescriptor`. -/
def inTable (id : ℤ) : Sys W Unit :=
  if 0 ≤ id ∧ id < 20 then pure () else throw .badIndex

/-- `openf[id]`. -/
def openf (id : ℤ) : Sys W (Option OpenFile) := do
  inTable id
  return (← fileSystem).entry id

/-- `openf[id] = file`. -/
def setOpenf (id : ℤ) (file : Option OpenFile) : Sys W Unit := do
  inTable id
  modifyFileSystem fun fs => fs.setEntry id file

/-- `tableDescriptor[id]`. -/
def tableDescriptor (id : ℤ) : Sys W (Option CString) := do
  inTable id
  return (← fileSystem).name id

/-- `tableDescriptor[id] = name`. -/
def setTableDescriptor (id : ℤ) (name : Option CString) : Sys W Unit := do
  inTable id
  modifyFileSystem fun fs => fs.setName id name

/-- `openf[id]->op()`, with `op` a member function that returns the object it leaves. -/
def onFile (id : ℤ) (op : OpenFile → Sys W (α × OpenFile)) : Sys W α := do
  let file ← deref (← openf id)
  let (a, file) ← op file
  setOpenf id (some file)
  return a

section

open EStateM

variable {k : Kernel W} {E : Stop → Kernel W → Prop}

@[simp] theorem ends_fileSystem {Q : FileSystem → Kernel W → Prop} :
    Ends fileSystem k Q E ↔ Q k.fileSystem k := Iff.rfl

@[simp] theorem ends_modifyFileSystem {f : FileSystem → FileSystem}
    {Q : Unit → Kernel W → Prop} :
    Ends (modifyFileSystem f) k Q E ↔ Q () { k with fileSystem := f k.fileSystem } := Iff.rfl

@[simp] theorem ends_inTable {id : ℤ} {Q : Unit → Kernel W → Prop} :
    Ends (inTable id) k Q E ↔ if 0 ≤ id ∧ id < 20 then Q () k else E .badIndex k := by
  simp [inTable]

@[simp] theorem ends_openf {id : ℤ} {Q : Option OpenFile → Kernel W → Prop} :
    Ends (openf id) k Q E ↔ if 0 ≤ id ∧ id < 20 then Q (k.fileSystem.entry id) k
      else E .badIndex k := by
  simp [openf]

@[simp] theorem ends_setOpenf {id : ℤ} {file : Option OpenFile} {Q : Unit → Kernel W → Prop} :
    Ends (setOpenf id file) k Q E ↔ if 0 ≤ id ∧ id < 20 then
      Q () { k with fileSystem := k.fileSystem.setEntry id file } else E .badIndex k := by
  simp [setOpenf]

@[simp] theorem ends_tableDescriptor {id : ℤ} {Q : Option CString → Kernel W → Prop} :
    Ends (tableDescriptor id) k Q E ↔ if 0 ≤ id ∧ id < 20 then Q (k.fileSystem.name id) k
      else E .badIndex k := by
  simp [tableDescriptor]

@[simp] theorem ends_setTableDescriptor {id : ℤ} {name : Option CString}
    {Q : Unit → Kernel W → Prop} :
    Ends (setTableDescriptor id name) k Q E ↔ if 0 ≤ id ∧ id < 20 then
      Q () { k with fileSystem := k.fileSystem.setName id name } else E .badIndex k := by
  simp [setTableDescriptor]

theorem ends_onFile {id : ℤ} {f : OpenFile} {op : OpenFile → Sys W (α × OpenFile)}
    (h : k.fileSystem.entry id = some f) {Q : α → Kernel W → Prop} :
    Ends (onFile id op) k Q E ↔ Ends (op f) k (fun r k' =>
      Q r.1 { k' with fileSystem := k'.fileSystem.setEntry id (some r.2) }) E := by
  have hrange := FileSystem.range_of_entry h
  simp [onFile, h, hrange]

end

end Sys

namespace OpenFile

open Sys

variable {W : Type} (host : Host W) (f : OpenFile)

def readAt (into : List UInt8) (numBytes : ℤ) (position : Word) :
    Sys W (Word × List UInt8) := do
  lseek host f.file position 0
  readPartial host f.file into numBytes

def writeAt (src : List UInt8) (numBytes : ℤ) (position : Word) : Sys W Word := do
  lseek host f.file position 0
  writeFile host f.file src numBytes
  return BitVec.ofInt 32 numBytes

def read (into : List UInt8) (numBytes : ℤ) : Sys W ((Word × List UInt8) × OpenFile) := do
  let (numRead, into) ← f.readAt host into numBytes f.currentOffset
  return ((numRead, into), { f with currentOffset := f.currentOffset + numRead })

def write (src : List UInt8) (numBytes : ℤ) : Sys W (Word × OpenFile) := do
  let numWritten ← f.writeAt host src numBytes f.currentOffset
  return (numWritten, { f with currentOffset := f.currentOffset + numWritten })

def seek (pos : Word) : Sys W (Word × OpenFile) := do
  lseek host f.file pos 0
  let currentOffset ← tell host f.file
  return (currentOffset, { f with currentOffset })

def length : Sys W (Word × OpenFile) := do
  lseek host f.file 0 2
  let pos ← tell host f.file
  return (pos, f)

def getCurrentPos : Sys W (Word × OpenFile) := do
  let currentOffset ← tell host f.file
  return (currentOffset, { f with currentOffset })

end OpenFile

/-! Where the member functions come back: whether the assertions of `sysdep.cc` hold is up to the
answers of the host. -/

namespace OpenFile

variable {W : Type} (host : Host W) (f : OpenFile)

/-- `Tell`: the answer, and the host after it. -/
def told (w : W) : Word × W := host.lseek w f.file 0 1

/-- `Length` comes back, with `P` of what it returns and of the host after it. -/
def Measures (w : W) (P : Word → W → Prop) : Prop :=
  let (retVal, w) := host.lseek w f.file 0 2
  0 ≤ retVal.toInt ∧ P (f.told host w).1 (f.told host w).2

/-- `Lseek(file, pos, SEEK_SET)` comes back. -/
def Finds (w : W) (pos : Word) : Prop := 0 ≤ (host.lseek w f.file pos 0).1.toInt

/-- `WriteAt` comes back from a call with `n` bytes for this position. -/
def Takes (w : W) (pos : Word) (n : ℤ) : Prop :=
  f.Finds host w pos ∧ ∀ bytes : List UInt8, bytes.length = n →
    (host.write (host.lseek w f.file pos 0).2 f.file bytes).1.toInt = n

end OpenFile

section

open Sys EStateM

variable {W : Type} (host : Host W) {f : OpenFile} {k : Kernel W}

/-- A member function that ends in `r` has used the host only, for the same file. -/
def Consulted {α : Type} (f : OpenFile) (k : Kernel W) (P : α → OpenFile → W → Prop)
    (r : α × OpenFile) (k' : Kernel W) : Prop :=
  k'.machine = k.machine ∧ k'.fileSystem = k.fileSystem ∧ r.2.file = f.file ∧ P r.1 r.2 k'.host

namespace OpenFile

theorem ends_getCurrentPos : Ends (f.getCurrentPos host) k
    (Consulted f k fun pos f' w => f'.currentOffset = pos ∧ (pos, w) = f.told host k.host)
    fun _ _ => False :=
  ⟨rfl, rfl, rfl, rfl, rfl⟩

theorem ends_length : Ends (f.length host) k
    (Consulted f k fun length f' w => f' = f ∧ ∀ P, f.Measures host k.host P → P length w)
    fun stop _ => stop = .abort ∧ ∀ P, ¬ f.Measures host k.host P := by
  simp only [length, ends_bind, ends_lseek, ends_tell, ends_pure]
  split_ifs with h
  · exact ⟨rfl, rfl, rfl, rfl, fun P hP => hP.2⟩
  · exact ⟨trivial, fun P hP => h hP.1⟩

theorem ends_seek (pos : Word) : Ends (f.seek host pos) k (Consulted f k fun _ _ _ => True)
    fun stop _ => stop = .abort ∧ ¬ f.Finds host k.host pos := by
  simp only [seek, ends_bind, ends_lseek, ends_tell, ends_pure]
  split_ifs with h
  · exact ⟨rfl, rfl, rfl, trivial⟩
  · exact ⟨trivial, h⟩

theorem ends_read {into : List UInt8} {numBytes : ℤ} (hsize : sizeT numBytes ≤ into.length) :
    Ends (f.read host into numBytes) k (Consulted f k fun r _ _ => r.2.length = into.length)
    fun stop _ => stop = .abort ∧ ¬ f.Finds host k.host f.currentOffset := by
  simp only [read, readAt, ends_bind, ends_lseek, ends_readPartial, ends_pure]
  split_ifs with hseek hfit
  · refine ⟨rfl, rfl, rfl, ?_⟩
    simp only [List.length_append, List.length_drop]
    omega
  · exact absurd ((Transfer.length_stored_le _).trans hsize) hfit
  · exact ⟨trivial, hseek⟩

theorem ends_write {src : List UInt8} {numBytes : ℤ} (h0 : 0 ≤ numBytes) (h1 : numBytes < 2 ^ 31)
    (hsize : sizeT numBytes ≤ src.length) :
    Ends (f.write host src numBytes) k (Consulted f k fun _ _ _ => True)
    fun stop _ => stop = .abort ∧ ¬ f.Takes host k.host f.currentOffset numBytes := by
  simp only [write, writeAt, ends_bind, ends_lseek, ends_writeFile, ends_pure, hsize, if_true]
  split_ifs with hseek hfull
  · exact ⟨rfl, rfl, rfl, trivial⟩
  · refine ⟨trivial, fun ho => hfull (ho.2 _ ?_)⟩
    rw [List.length_take, min_eq_left hsize, toNat_sizeT h0 h1]
  · exact ⟨trivial, fun ho => hseek ho.1⟩

end OpenFile

theorem Sys.ends_onFile_of {α : Type} {id : ℤ} {op : OpenFile → Sys W (α × OpenFile)}
    {P : α → OpenFile → W → Prop} {Q : α → Kernel W → Prop} {E E' : Stop → Kernel W → Prop}
    (he : k.fileSystem.entry id = some f) (hop : Ends (op f) k (Consulted f k P) E')
    (hQ : ∀ a f' k', k'.machine = k.machine → k'.fileSystem.entry id = some f' →
      f'.file = f.file → P a f' k'.host → Q a k')
    (hE : ∀ stop k', E' stop k' → E stop k') : Ends (onFile id op) k Q E := by
  have hr := FileSystem.range_of_entry he
  rw [ends_onFile he]
  refine hop.mono ?_ hE
  rintro ⟨a, f'⟩ k' ⟨hmachine, -, hfile, hP⟩
  exact hQ a f' _ hmachine (FileSystem.entry_setEntry hr _) hfile hP

end

namespace FileSystem

open Sys

variable {W : Type} (host : Host W)

/-- `FileSystem::Create`. `OpenForWrite` has failed an assertion before it returns -1. -/
def create (name : CString) : Sys W Bool := do
  let fileDescriptor ← openForWrite host name
  if fileDescriptor = -1 then return false
  else
    close host fileDescriptor
    return true

/-- `FileSystem::Open(name, type, permission)`; with two arguments the permission is 0. -/
def openFile (name : CString) (type permission : ℤ) : Sys W (Option OpenFile) := do
  let fileDescriptor ← openForReadWrite host name false
  if fileDescriptor = -1 then return none
  else return some (OpenFile.new fileDescriptor type permission)

/-- `FileSystem::Open(SockID)`. -/
def openSocket (sockID : Word) : OpenFile := OpenFile.new sockID 1 0

def remove (name : CString) : Sys W Bool := do
  let failed ← unlink host name
  return !failed

/-- The file system before the body of the constructor has run. -/
def blank : FileSystem where
  openf _ := none
  index := 0
  tableDescriptor _ := none

def stdinName : CString := ⟨[115, 116, 100, 105, 110], by decide⟩
def stdoutName : CString := ⟨[115, 116, 100, 111, 117, 116], by decide⟩

/-- The constructor, on a file system that is still `blank`. -/
def new : Sys W Unit := do
  let _ ← create host stdinName
  let _ ← create host stdoutName
  setOpenf 0 (← openFile host stdinName 2 0)
  setOpenf 1 (← openFile host stdoutName 3 0)
  modifyFileSystem fun fs => { fs with index := 2 }

end FileSystem
end Nachos

import Nachos.Library.ByteStore
import Mathlib.Data.BitVec

/-! The simulated hardware seen by user programs: registers, main memory and the
linear page table, with the address translation of `machine/translate.cc`. The
build defines neither `USE_TLB` nor `HOST_IS_BIG_ENDIAN`, so there is no TLB and
`WordToHost` and its relatives are the identity. -/
namespace Nachos

abbrev PageSize : ℕ := 128
abbrev NumPhysPages : ℕ := 128
abbrev MemorySize : ℕ := NumPhysPages * PageSize

/-- A C `int` or `unsigned int` of the 32-bit build. -/
abbrev Word := BitVec 32

inductive ExceptionType where
  | noException | syscallException | pageFaultException | readOnlyException
  | busErrorException | addressErrorException | overflowException | illegalInstrException
  deriving DecidableEq, Repr

/-- The enumeration value, as it is handed to `ExitUpdate`. -/
def ExceptionType.code : ExceptionType → ℤ
  | .noException => 0 | .syscallException => 1 | .pageFaultException => 2
  | .readOnlyException => 3 | .busErrorException => 4 | .addressErrorException => 5
  | .overflowException => 6 | .illegalInstrException => 7

structure TranslationEntry where
  virtualPage : ℤ
  physicalPage : ℤ
  valid : Bool
  readOnly : Bool
  use : Bool
  dirty : Bool
  deriving DecidableEq, Repr

abbrev PageTable := List TranslationEntry

abbrev NumTotalRegs : ℕ := 40

instance : NeZero NumTotalRegs := ⟨by decide⟩

/-- The register file, general registers first. -/
abbrev Registers := Fin NumTotalRegs → Word

def StackReg : Fin NumTotalRegs := 29
def R31 : Fin NumTotalRegs := 31
def HiReg : Fin NumTotalRegs := 32
def LoReg : Fin NumTotalRegs := 33
def PCReg : Fin NumTotalRegs := 34
def NextPCReg : Fin NumTotalRegs := 35
def PrevPCReg : Fin NumTotalRegs := 36
def LoadReg : Fin NumTotalRegs := 37
def LoadValueReg : Fin NumTotalRegs := 38
def BadVAddrReg : Fin NumTotalRegs := 39

/-- The simulated machine. `mainMemory` is indexed like the C array, and an index
outside `[0, MemorySize)` is some other byte of the host. Page tables are objects
of the kernel heap, so `pageTable` is an address, and `tables` the heap. -/
structure Machine where
  registers : Registers
  mainMemory : ByteStore.Store
  pageTable : Option ℕ
  pageTableSize : ℕ
  tables : ℕ → PageTable

/-- The frame number as the hardware reads it, in an `unsigned int`. -/
def TranslationEntry.pageFrame (entry : TranslationEntry) : ℕ :=
  (BitVec.ofInt 32 entry.physicalPage).toNat

/-- The entry after an access: the hardware sets the use and dirty bits. -/
def TranslationEntry.touch (entry : TranslationEntry) (writing : Bool) : TranslationEntry :=
  { entry with use := true, dirty := entry.dirty || writing }

def misaligned (virtAddr : Word) (size : ℕ) : Bool :=
  (size == 4 && virtAddr &&& 0x3 != 0) || (size == 2 && virtAddr &&& 0x1 != 0)

/-- `Machine::Translate` on the table it finds at `pageTable` (`none` for `NULL`).
There is no result when an assertion fails or the table is read past its end. -/
def translate (table : Option PageTable) (pageTableSize : ℕ) (virtAddr : Word) (size : ℕ)
    (writing : Bool) : Option (Except ExceptionType (ℕ × PageTable)) :=
  if misaligned virtAddr size then some (.error .addressErrorException)
  else do
    let table ← table
    let vpn := virtAddr.toNat / PageSize
    let offset := virtAddr.toNat % PageSize
    if vpn ≥ pageTableSize then return .error .addressErrorException
    let entry ← table[vpn]?
    if !entry.valid then return .error .pageFaultException
    if entry.readOnly && writing then return .error .readOnlyException
    if entry.pageFrame ≥ NumPhysPages then return .error .busErrorException
    let physAddr := entry.pageFrame * PageSize + offset
    if physAddr + size ≤ MemorySize then
      return .ok (physAddr, table.set vpn (entry.touch writing))
    else none

/-- What running simulated hardware can end in: a value, a trap to
`ExceptionHandler` with the machine as the handler finds it, or a failed assertion. -/
inductive Outcome (α : Type) where
  | ok (value : α) (m : Machine)
  | trap (which : ExceptionType) (m : Machine)
  | abort

/-- Hardware operations, run on the machine. -/
def Sim (α : Type) := Machine → Outcome α

instance : Monad Sim where
  pure a := fun m => .ok a m
  bind x f := fun m =>
    match x m with
    | .ok a m' => f a m'
    | .trap which m' => .trap which m'
    | .abort => .abort

namespace Sim

def get : Sim Machine := fun m => .ok m m

def abort {α : Type} : Sim α := fun _ => .abort

/-- `registers[num]`. -/
def reg (num : Fin NumTotalRegs) : Sim Word := fun m => .ok (m.registers num) m

/-- `registers[num] = value`. -/
def setReg (num : Fin NumTotalRegs) (value : Word) : Sim Unit :=
  fun m => .ok () { m with registers := Function.update m.registers num value }

/-- `Machine::DelayedLoad`. The pending target is itself read from a register. -/
def delayedLoad (nextReg nextValue : Word) : Sim Unit := do
  let target ← reg LoadReg
  if h : target.toNat < NumTotalRegs then
    setReg ⟨target.toNat, h⟩ (← reg LoadValueReg)
    setReg LoadReg nextReg
    setReg LoadValueReg nextValue
    setReg 0 0
  else abort

/-- `Machine::RaiseException`, up to the call of `ExceptionHandler`. -/
def raiseException {α : Type} (which : ExceptionType) (badVAddr : Word) : Sim α := do
  setReg BadVAddrReg badVAddr
  delayedLoad 0 0
  fun m => .trap which m

/-- `Machine::Translate` at the installed table, or the trap that reports its failure. -/
def translateOrRaise (addr : Word) (size : ℕ) (writing : Bool) : Sim ℕ := fun m =>
  match translate (m.pageTable.map m.tables) m.pageTableSize addr size writing with
  | none => .abort
  | some (.error which) => raiseException which addr m
  | some (.ok (physAddr, table)) =>
    match m.pageTable with
    | none => .abort
    | some address => .ok physAddr { m with tables := Function.update m.tables address table }

/-- The little-endian value of `size` bytes of main memory. -/
def loadBytes (mainMemory : ByteStore.Store) (physAddr : ℕ) : ℕ → ℕ
  | 0 => 0
  | size + 1 => (mainMemory physAddr).toNat + 256 * loadBytes mainMemory (physAddr + 1) size

/-- The `size` low bytes of a word, least significant first. -/
def storeBytes (value : ℕ) : ℕ → List UInt8
  | 0 => []
  | size + 1 => UInt8.ofNat (value % 256) :: storeBytes (value / 256) size

/-- `Machine::ReadMem`. A single byte is a signed `char`. -/
def readMem (addr : Word) (size : ℕ) : Sim Word := do
  let physAddr ← translateOrRaise addr size false
  let m ← get
  match size with
  | 1 => return (BitVec.ofNat 8 (loadBytes m.mainMemory physAddr 1)).signExtend 32
  | 2 => return BitVec.ofNat 32 (loadBytes m.mainMemory physAddr 2)
  | 4 => return BitVec.ofNat 32 (loadBytes m.mainMemory physAddr 4)
  | _ => abort

/-- Bytes placed in main memory. -/
def store (p : ByteStore.Patch) : Sim Unit :=
  fun m => .ok () { m with mainMemory := ByteStore.patch m.mainMemory p }

/-- `Machine::WriteMem`. -/
def writeMem (addr : Word) (size : ℕ) (value : Word) : Sim Unit := do
  let physAddr ← translateOrRaise addr size true
  match size with
  | 1 | 2 | 4 => store ⟨physAddr, storeBytes value.toNat size⟩
  | _ => abort

end Sim
end Nachos

import Nachos.Lib.Bitmap
import Nachos.Machine.Translate

/-! Address spaces of user programs: the NOFF header, the constructor
`AddrSpace(char*)` that allocates frames and copies the segments, and the
destructor. The build defines `RDATA`, so the header has four segments. -/
namespace Nachos

/-- The value an exact result has in a C `int`. -/
def int32 (x : ℤ) : ℤ := x.bmod 4294967296

/-- The value an exact result has in a C `unsigned int`. -/
def uint32 (x : ℤ) : ℕ := (x % 4294967296).toNat

structure Segment where
  virtualAddr : ℤ
  inFileAddr : ℤ
  size : ℤ
  deriving DecidableEq, Repr

structure NoffHeader where
  noffMagic : ℤ
  code : Segment
  initData : Segment
  readonlyData : Segment
  uninitData : Segment
  deriving DecidableEq, Repr

def NOFFMAGIC : ℤ := 0xbadfad
abbrev UserStackSize : ℕ := 4096

/-- The contents of a file of the host. -/
abbrev HostFile := List UInt8

/-- `OpenFile::ReadAt`: `Lseek` asserts that the position is not negative, and the
host reads what the file has from there, up to `numBytes` bytes. -/
def readAt (file : HostFile) (numBytes : ℕ) (position : ℤ) : Option (List UInt8) :=
  if 0 ≤ position then some ((file.drop position.toNat).take numBytes) else none

/-- A little-endian `int` of the header. -/
def intAt (file : HostFile) (offset : ℕ) : ℤ :=
  int32 ((file.getD offset 0).toNat + 256 * (file.getD (offset + 1) 0).toNat +
    65536 * (file.getD (offset + 2) 0).toNat + 16777216 * (file.getD (offset + 3) 0).toNat)

def segmentAt (file : HostFile) (offset : ℕ) : Segment :=
  ⟨intAt file offset, intAt file (offset + 4), intAt file (offset + 8)⟩

def sizeofNoffHeader : ℕ := 52

/-- The header of a file long enough to hold one. `WordToHost` is the identity
on the host, so `SwapHeader` is never called. -/
def readHeader (file : HostFile) : Option NoffHeader :=
  if sizeofNoffHeader ≤ file.length then
    some ⟨intAt file 0, segmentAt file 4, segmentAt file 16, segmentAt file 28, segmentAt file 40⟩
  else none

/-- A program of one instruction and no data. -/
def tinyProgram : HostFile :=
  [0xbadfad, 0, 52, 4, 0, 0, 0, 0, 0, 0, 0, 0, 0].flatMap (Sim.storeBytes · 4) ++ [1, 2, 3, 4]

/-- An address space; the source's `numPages` is the length its table was allocated with. -/
structure AddrSpace where
  pageTable : PageTable
  deriving DecidableEq

namespace AddrSpace

def numPages (space : AddrSpace) : ℕ := space.pageTable.length

/-- How the constructor can return. -/
inductive Construction where
  /-- The file could not be opened; the members keep whatever was in memory. -/
  | notOpened
  /-- Fewer free frames than pages: no table, and `numPages` is 0. -/
  | refused
  /-- The space, the bitmap after the allocation and the writes to `mainMemory` in order. -/
  | loaded (space : AddrSpace) (gPhysPageBitMap : Bitmap NumPhysPages)
      (writes : List ByteStore.Patch)
  deriving DecidableEq

/-- A page-table entry as the allocation loop fills it. -/
def freshEntry (i : ℕ) (physicalPage : ℤ) : TranslationEntry :=
  ⟨i, physicalPage, true, false, false, false⟩

/-- The `bzero` of one page. -/
def zeroPage (physicalPage : ℤ) : ByteStore.Patch :=
  ⟨physicalPage * PageSize, List.replicate PageSize 0⟩

/-- The allocation loop from page `i`, with `r` pages left. -/
def allocLoop (bm : Bitmap NumPhysPages) (i : ℕ) :
    ℕ → Option (PageTable × Bitmap NumPhysPages × List ByteStore.Patch)
  | 0 => some ([], bm, [])
  | r + 1 => do
    let (physicalPage, bm) ← bm.findAndSet
    let (rest, bm, writes) ← allocLoop bm (i + 1) r
    return (freshEntry i physicalPage :: rest, bm, zeroPage physicalPage :: writes)

/-- The copy loop of one segment from page `i` on: a whole page is read for every
entry, to the segment's virtual address added to the base of the frame. -/
def copyLoop (executable : HostFile) (segment : Segment) (i : ℕ) :
    PageTable → Option (List ByteStore.Patch)
  | [] => some []
  | entry :: rest => do
    let bytes ← readAt executable PageSize (int32 (segment.inFileAddr + i * PageSize))
    let writes ← copyLoop executable segment (i + 1) rest
    return ⟨int32 (segment.virtualAddr + entry.physicalPage * PageSize), bytes⟩ :: writes

def copySegment (executable : HostFile) (segment : Segment) (pageTable : PageTable) :
    Option (List ByteStore.Patch) :=
  if segment.size > 0 then copyLoop executable segment 0 pageTable else some []

/-- The number of pages the constructor asks for; the sum is taken in an `unsigned int`. -/
def pagesNeeded (noffH : NoffHeader) : ℕ :=
  divRoundUp (uint32 (noffH.code.size + noffH.initData.size + noffH.uninitData.size +
    UserStackSize)) PageSize

/-- The constructor between the acquisition of `addrLock` and its release. -/
def locked (executable : HostFile) (noffH : NoffHeader) (bm : Bitmap NumPhysPages) :
    Option Construction := do
  let numPages := pagesNeeded noffH
  if numPages > NumPhysPages then none
  else if numPages > (← bm.numClear) then return .refused
  else
    let (pageTable, bm, zeroes) ← allocLoop bm 0 numPages
    let code ← copySegment executable noffH.code pageTable
    let initData ← copySegment executable noffH.initData pageTable
    let readonlyData ← copySegment executable noffH.readonlyData pageTable
    return .loaded ⟨pageTable⟩ bm (zeroes ++ code ++ initData ++ readonlyData)

/-- The header of an executable that passes the assertion on its magic number. -/
def checkedHeader (executable : HostFile) : Option NoffHeader := do
  let noffH ← readHeader executable
  if noffH.noffMagic = NOFFMAGIC then some noffH else none

/-- `AddrSpace::AddrSpace(char*)` on the file the host opens (`none` for `NULL`). -/
def new (executable : Option HostFile) (bm : Bitmap NumPhysPages) : Option Construction :=
  match executable with
  | none => some .notOpened
  | some file => do locked file (← checkedHeader file) bm

/-- `AddrSpace::~AddrSpace`. -/
def destroy (space : AddrSpace) (bm : Bitmap NumPhysPages) : Option (Bitmap NumPhysPages) :=
  space.pageTable.foldlM (fun bm entry => bm.clear entry.physicalPage) bm

/-- The members of an `AddrSpace` object as the machine gets them. -/
structure Members where
  pageTable : Option ℕ
  numPages : ℕ
  deriving DecidableEq

/-- `AddrSpace::InitRegisters`. -/
def initRegisters (space : Members) : Registers :=
  Function.update (Function.update (Function.update (fun _ => 0) PCReg 0) NextPCReg 4) StackReg
    (BitVec.ofNat 32 (space.numPages * PageSize) - 16)

/-- `AddrSpace::RestoreState`. -/
def restoreState (space : Members) (m : Machine) : Machine :=
  { m with pageTable := space.pageTable, pageTableSize := space.numPages }

/-- `AddrSpace::Execute`, up to the call of `Machine::Run`. -/
def execute (space : Members) (m : Machine) : Machine :=
  restoreState space { m with registers := initRegisters space }

/-- The table the allocation loop builds over the given frames, from page `i` on. -/
def tableOf (i : ℕ) (frames : List ℕ) : PageTable :=
  (frames.zipIdx i).map fun (frame, k) => freshEntry k frame

@[simp] theorem tableOf_nil (i : ℕ) : tableOf i [] = [] := rfl

@[simp] theorem tableOf_cons (i frame : ℕ) (frames : List ℕ) :
    tableOf i (frame :: frames) = freshEntry i frame :: tableOf (i + 1) frames := by
  simp [tableOf]

@[simp] theorem length_tableOf (i : ℕ) (frames : List ℕ) :
    (tableOf i frames).length = frames.length := by
  simp [tableOf]

theorem map_physicalPage_tableOf (i : ℕ) (frames : List ℕ) :
    (tableOf i frames).map TranslationEntry.physicalPage = frames.map Nat.cast := by
  induction frames generalizing i with
  | nil => rfl
  | cons frame frames ih => simp [ih, freshEntry]

theorem getElem?_tableOf (i k : ℕ) (frames : List ℕ) :
    (tableOf i frames)[k]? = frames[k]?.map fun frame : ℕ => freshEntry (i + k) frame := by
  simp only [tableOf, List.getElem?_map, List.getElem?_zipIdx, Option.map_map]
  rfl

/-- While frames last, the loop takes the least clear ones in increasing order and
`FindAndSet` never answers -1. -/
theorem allocLoop_eq (r : ℕ) : ∀ (bm : Bitmap NumPhysPages) (i : ℕ), r ≤ bm.clearList.length →
    allocLoop bm i r = some (tableOf i (bm.clearList.take r),
      (bm.clearList.take r).foldl Bitmap.insert bm,
      (bm.clearList.take r).map fun frame : ℕ => zeroPage frame) := by
  induction r with
  | zero => intro bm i _; simp [allocLoop]
  | succ r ih =>
    intro bm i hr
    cases hc : bm.clearList with
    | nil => simp [hc] at hr
    | cons frame rest =>
      have hrest := Bitmap.clearList_insert hc
      have hlen : r ≤ (bm.insert frame).clearList.length := by
        rw [hrest]
        simpa [hc] using hr
      rw [allocLoop, Bitmap.findAndSet_eq, hc]
      simp only [List.head?_cons, Option.bind_eq_bind, Option.bind_some, ih _ (i + 1) hlen, hrest]
      simp

/-- The frames a constructor asking for `numPages` pages is going to take. -/
def chosenFrames (bm : Bitmap NumPhysPages) (numPages : ℕ) : List ℕ := bm.clearList.take numPages

theorem mem_chosenFrames {bm : Bitmap NumPhysPages} {numPages frame : ℕ}
    (h : frame ∈ chosenFrames bm numPages) : frame < NumPhysPages ∧ bm.mem frame = false :=
  Bitmap.mem_clearList.mp (List.mem_of_mem_take h)

theorem chosenFrames_nodup (bm : Bitmap NumPhysPages) (numPages : ℕ) :
    (chosenFrames bm numPages).Nodup :=
  bm.clearList_nodup.sublist (List.take_sublist _ _)

/-- What a constructor that loads a program has done: enough frames were free, the
table covers the least free frames, and the writes are the zeroed pages followed
by the copies of the segments in the order code, data, read-only data. -/
structure LoadedBy (executable : HostFile) (noffH : NoffHeader) (bm : Bitmap NumPhysPages)
    (space : AddrSpace) (bm' : Bitmap NumPhysPages) (writes : List ByteStore.Patch) where
  code : List ByteStore.Patch
  initData : List ByteStore.Patch
  readonlyData : List ByteStore.Patch
  pages_le : pagesNeeded noffH ≤ bm.clearList.length
  space_eq : space = ⟨tableOf 0 (chosenFrames bm (pagesNeeded noffH))⟩
  bitmap_eq : bm' = (chosenFrames bm (pagesNeeded noffH)).foldl Bitmap.insert bm
  code_eq : copySegment executable noffH.code space.pageTable = some code
  initData_eq : copySegment executable noffH.initData space.pageTable = some initData
  readonlyData_eq : copySegment executable noffH.readonlyData space.pageTable = some readonlyData
  writes_eq : writes =
    (chosenFrames bm (pagesNeeded noffH)).map (fun frame : ℕ => zeroPage frame) ++
      code ++ initData ++ readonlyData

theorem LoadedBy.length_chosenFrames {executable : HostFile} {noffH : NoffHeader}
    {bm bm' : Bitmap NumPhysPages} {space : AddrSpace} {writes : List ByteStore.Patch}
    (h : LoadedBy executable noffH bm space bm' writes) :
    (chosenFrames bm (pagesNeeded noffH)).length = pagesNeeded noffH := by
  simp [chosenFrames, h.pages_le]

/-- The three ways the locked part can end without an assertion failing. -/
theorem locked_cases {executable : HostFile} {noffH : NoffHeader} {bm : Bitmap NumPhysPages}
    {result : Construction} (h : locked executable noffH bm = some result) :
    (result = .refused ∧ bm.clearList.length < pagesNeeded noffH) ∨
    ∃ space bm' writes, result = .loaded space bm' writes ∧
      Nonempty (LoadedBy executable noffH bm space bm' writes) := by
  simp only [locked, Bitmap.numClear_eq, Option.bind_eq_bind, Option.bind_some] at h
  split at h
  · cases h
  split at h
  · next hfew =>
    cases h
    exact .inl ⟨rfl, hfew⟩
  next _ hfew =>
  have hle : pagesNeeded noffH ≤ bm.clearList.length := by omega
  rw [allocLoop_eq _ bm 0 hle] at h
  simp only [Option.bind_some] at h
  obtain ⟨code, hcode, h⟩ := Option.bind_eq_some_iff.mp h
  obtain ⟨initData, hinit, h⟩ := Option.bind_eq_some_iff.mp h
  obtain ⟨readonlyData, hro, h⟩ := Option.bind_eq_some_iff.mp h
  cases h
  exact .inr ⟨_, _, _, rfl, ⟨⟨code, initData, readonlyData, hle, rfl, rfl, hcode, hinit, hro, rfl⟩⟩⟩

theorem pageFrame_of_physicalPage {entry : TranslationEntry} {frame : ℕ}
    (h : entry.physicalPage = frame) (hlt : frame < NumPhysPages) : entry.pageFrame = frame := by
  simp only [TranslationEntry.pageFrame, h, BitVec.toNat_ofInt]
  simp only [NumPhysPages] at hlt
  omega

/-- A new space has a table over different frames that were free. -/
theorem tableOf_of_loaded {executable : Option HostFile} {bm bm' : Bitmap NumPhysPages}
    {space : AddrSpace} {writes : List ByteStore.Patch}
    (h : new executable bm = some (.loaded space bm' writes)) :
    ∃ frames : List ℕ, frames.Nodup ∧
      (∀ frame ∈ frames, frame < NumPhysPages ∧ bm.mem frame = false) ∧
      space = ⟨tableOf 0 frames⟩ := by
  cases executable with
  | none => cases h
  | some file =>
    obtain ⟨noffH, -, h⟩ := Option.bind_eq_some_iff.mp h
    rcases locked_cases h with ⟨hr, -⟩ | ⟨_, _, _, hr, ⟨hload⟩⟩
    · cases hr
    cases hr
    exact ⟨_, chosenFrames_nodup _ _, fun frame hframe => mem_chosenFrames hframe, hload.space_eq⟩

/-- What the allocation loop has put into entry `i`. -/
theorem entry_of_tableOf {frames : List ℕ} (hlt : ∀ frame ∈ frames, frame < NumPhysPages) {i : ℕ}
    {entry : TranslationEntry} (h : (tableOf 0 frames)[i]? = some entry) :
    frames[i]? = some entry.pageFrame ∧ entry.valid = true ∧ entry.readOnly = false := by
  rw [getElem?_tableOf] at h
  obtain ⟨frame, hi, rfl⟩ := Option.map_eq_some_iff.mp h
  rw [pageFrame_of_physicalPage rfl (hlt frame (List.mem_of_getElem? hi))]
  exact ⟨hi, rfl, rfl⟩

/-- Destroying a space whose frames are in range clears exactly those bits. -/
theorem destroy_eq {space : AddrSpace} {frames : List ℕ}
    (hframes : space.pageTable.map TranslationEntry.physicalPage = frames.map Nat.cast)
    (hlt : ∀ frame ∈ frames, frame < NumPhysPages) (bm : Bitmap NumPhysPages) :
    space.destroy bm = some (frames.foldl Bitmap.erase bm) := by
  have hfold : space.destroy bm = (space.pageTable.map TranslationEntry.physicalPage).foldlM
      (fun bm page => bm.clear page) bm := by
    simp [destroy, List.foldlM_map]
  rw [hfold, hframes]
  clear hfold hframes
  induction frames generalizing bm with
  | nil => rfl
  | cons frame frames ih =>
    rw [List.map_cons, List.foldlM_cons, Bitmap.clear_of_lt bm (hlt frame List.mem_cons_self)]
    exact ih (fun f hf => hlt f (List.mem_cons_of_mem _ hf)) _

end AddrSpace
end Nachos

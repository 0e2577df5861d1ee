import Nachos.Userprog.Loader

/-! The conversion of COFF files (`coff2noff/coff2noff.c`), built as its Makefile says: with
`RDATA`, and for 32 bits, where a `long` is an `int`. The files are open, and memory is always
found. -/
namespace Nachos.Coff2noff

/-- How `main` ends without a NOFF file. -/
inductive Failure where
  /-- "File is too short". -/
  | tooShort
  /-- "Unable to write file". -/
  | unableToWrite
  /-- "File is not a MIPSEL COFF file". -/
  | notMipsel
  /-- "File is not a OMAGIC file". -/
  | notOmagic
  /-- "Can't handle both bss and sbss". -/
  | bothBss
  /-- "Unknown segment type". -/
  | unknownSegment
  /-- There is no result: a sum is no `int`. -/
  | undefined
  deriving DecidableEq

/-- `struct scnhdr`, as far as it is used. -/
structure Scnhdr where
  sName : Fin 8 → UInt8
  sPaddr : ℤ
  sSize : ℤ
  sScnptr : ℤ

abbrev sizeofFilehdr : ℕ := 20
abbrev sizeofAouthdr : ℕ := 56
abbrev sizeofScnhdr : ℕ := 40

def MIPSELMAGIC : ℕ := 0x0162
def OMAGIC : ℕ := 0o407

/-- A little-endian `unsigned short`. -/
def shortAt (file : HostFile) (offset : ℕ) : ℕ :=
  (file.getD offset 0).toNat + 256 * (file.getD (offset + 1) 0).toNat

/-- The segments whose bytes are copied. -/
inductive FileKind where
  | text
  | data
  | rdata
  deriving DecidableEq

instance {p : FileKind → Prop} [DecidablePred p] : Decidable (∀ k, p k) :=
  decidable_of_iff (p .text ∧ p .data ∧ p .rdata)
    ⟨fun ⟨htext, hdata, hrdata⟩ k => by cases k <;> assumption, fun h => ⟨h _, h _, h _⟩⟩

inductive Kind where
  | file (k : FileKind)
  | bss
  | unknown
  deriving DecidableEq

namespace Scnhdr

def ofBytes (table : HostFile) (offset : ℕ) : Scnhdr where
  sName i := table.getD (offset + i) 0
  sPaddr := intAt table (offset + 8)
  sSize := intAt table (offset + 16)
  sScnptr := intAt table (offset + 20)

/-- `strcmp(s_name, ...)`. The names are shorter than the field, so a field without a zero is none
of them. -/
def kind (s : Scnhdr) : Kind :=
  let name := (List.ofFn s.sName).takeWhile (· ≠ 0)
  if name = [46, 116, 101, 120, 116] then .file .text
  else if name = [46, 100, 97, 116, 97] then .file .data
  else if name = [46, 114, 100, 97, 116, 97] then .file .rdata
  else if name = [46, 98, 115, 115] then .bss
  else .unknown

end Scnhdr

/-- `noffH.code`, `noffH.initData` and `noffH.readonlyData`. -/
def segmentOf (noffH : NoffHeader) : FileKind → Segment
  | .text => noffH.code
  | .data => noffH.initData
  | .rdata => noffH.readonlyData

def setSegment (noffH : NoffHeader) (k : FileKind) (segment : Segment) : NoffHeader :=
  match k with
  | .text => { noffH with code := segment }
  | .data => { noffH with initData := segment }
  | .rdata => { noffH with readonlyData := segment }

/-- `main` while it copies the segments in. -/
structure Conversion where
  /-- Where `fdIn` is. -/
  position : ℕ
  inNoffFile : ℤ
  /-- What is in the output behind the place of the header. -/
  written : HostFile
  noffH : NoffHeader

/-- `Read`, with where the file is then. A negative count is too large for the system call: it
answers -1, and the test lets that pass for the count -1. -/
def read (file : HostFile) (position : ℕ) (nBytes : ℤ) : Except Failure (HostFile × ℕ) :=
  if nBytes = -1 then .ok ([], position)
  else if 0 ≤ nBytes ∧ position + nBytes.toNat ≤ file.length then
    .ok ((file.drop position).take nBytes.toNat, position + nBytes.toNat)
  else .error .tooShort

/-- `Write` behind what has been written, with the same answer to the count -1. The file ends below
2^31 bytes, where an offset ends. -/
def write (written buffer : HostFile) (nBytes : ℤ) : Except Failure HostFile :=
  if nBytes = -1 then .ok written
  else if 0 ≤ nBytes ∧ sizeofNoffHeader + written.length + buffer.length < 2 ^ 31 then
    .ok (written ++ buffer)
  else .error .unableToWrite

/-- The branch for `.text`, `.data` and `.rdata`. Where `lseek` fails, `fdIn` stays where it is. -/
def copySegment (coff : HostFile) (c : Conversion) (s : Scnhdr) (k : FileKind) :
    Except Failure Conversion := do
  let position := if 0 ≤ s.sScnptr then s.sScnptr.toNat else c.position
  let (buffer, position) ← read coff position s.sSize
  let written ← write c.written buffer s.sSize
  return {
    position, written
    inNoffFile := c.inNoffFile + s.sSize
    noffH := setSegment c.noffH k ⟨s.sPaddr, c.inNoffFile, s.sSize⟩ }

def FitsInt (x : ℤ) : Prop := -2 ^ 31 ≤ x ∧ x < 2 ^ 31

instance (x : ℤ) : Decidable (FitsInt x) := inferInstanceAs (Decidable (_ ∧ _))

/-- The branch for `.bss`. -/
def addBss (c : Conversion) (s : Scnhdr) : Except Failure Conversion :=
  let uninitData := c.noffH.uninitData
  if uninitData.size ≠ 0 then
    if ¬ FitsInt (uninitData.virtualAddr + uninitData.size) then .error .undefined
    else if s.sPaddr = uninitData.virtualAddr + uninitData.size then .error .bothBss
    else if ¬ FitsInt (uninitData.size + s.sSize) then .error .undefined
    else .ok { c with noffH := { c.noffH with
      uninitData := { uninitData with size := uninitData.size + s.sSize } } }
  else .ok { c with noffH := { c.noffH with
    uninitData := { uninitData with virtualAddr := s.sPaddr, size := s.sSize } } }

/-- One turn of the loop over the sections. -/
def copyIn (coff : HostFile) (c : Conversion) (s : Scnhdr) : Except Failure Conversion :=
  if s.sSize = 0 then .ok c
  else
    match s.kind with
    | .file k => copySegment coff c s k
    | .bss => addBss c s
    | .unknown => .error .unknownSegment

def copyAll (coff : HostFile) (c : Conversion) : List Scnhdr → Except Failure Conversion
  | [] => .ok c
  | s :: sections => do copyAll coff (← copyIn coff c s) sections

/-- The header before the loop; the other fields are what the stack holds. -/
def initial (stack : HostFile) : NoffHeader where
  noffMagic := NOFFMAGIC
  code := { segmentAt stack 4 with size := 0 }
  initData := { segmentAt stack 16 with size := 0 }
  readonlyData := { segmentAt stack 28 with size := 0 }
  uninitData := { segmentAt stack 40 with size := 0 }

def segmentWords (segment : Segment) : List ℤ :=
  [segment.virtualAddr, segment.inFileAddr, segment.size]

/-- The header in the output. -/
def headerBytes (noffH : NoffHeader) : HostFile :=
  (noffH.noffMagic :: (segmentWords noffH.code ++ segmentWords noffH.initData ++
    segmentWords noffH.readonlyData ++ segmentWords noffH.uninitData)).flatMap fun x =>
      Sim.storeBytes (uint32 x) 4

/-- The section headers of a table. -/
def sectionsIn (table : HostFile) (numsections : ℕ) : List Scnhdr :=
  (List.range numsections).map fun i => Scnhdr.ofBytes table (sizeofScnhdr * i)

/-- `main`, from the two files that are open to the contents of the second. -/
def main (coff stack : HostFile) : Except Failure HostFile := do
  let (fileh, position) ← read coff 0 sizeofFilehdr
  if shortAt fileh 0 ≠ MIPSELMAGIC then .error .notMipsel
  else
    let (systemh, position) ← read coff position sizeofAouthdr
    if shortAt systemh 0 ≠ OMAGIC then .error .notOmagic
    else
      let numsections := shortAt fileh 2
      let (table, position) ← read coff position (numsections * sizeofScnhdr : ℕ)
      let c ← copyAll coff ⟨position, sizeofNoffHeader, [], initial stack⟩
        (sectionsIn table numsections)
      return headerBytes c.noffH ++ c.written

end Nachos.Coff2noff

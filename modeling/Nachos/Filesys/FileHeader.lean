import Nachos.Filesys.SynchDisk
import Nachos.Lib.Bitmap
import Nachos.Library.LittleEndian
import Nachos.Machine.Translate

/-! File headers (`filesys/filehdr.cc`) on the disk, as one thread uses it. What memory holds
that nothing has been stored to is a parameter. -/
namespace Nachos.Filesys

/-- The sectors, as `SynchDisk::ReadSector` and `WriteSector` see them. -/
abbrev Drive := ℕ → Sector

/-- The memory behind a `char *`. -/
abbrev Buffer := ℕ → UInt8

/-- `bcopy(from, &buf[start], n)`. -/
def bcopy (source : Buffer) (buf : Buffer) (start n : ℕ) : Buffer :=
  fun k => if start ≤ k ∧ k < start + n then source (k - start) else buf k

def byteOf (data : Sector) : Buffer := fun j => data.val.getD j 0

/-- The sector that `WriteSector` finds at `buf`. -/
def sectorOf (buf : Buffer) : Sector := ⟨(List.range SectorSize).map buf, by simp⟩

/-- The `int` at an address. -/
def intAt (buf : Buffer) (a : ℕ) : Word :=
  BitVec.ofNat 32 (LittleEndian.value ((List.range 4).map fun j => buf (a + j)))

theorem byteOf_sectorOf (buf : Buffer) {j : ℕ} (hj : j < SectorSize) :
    byteOf (sectorOf buf) j = buf j := by
  simp [byteOf, sectorOf, List.getD_eq_getElem?_getD, hj]

theorem intAt_eq {buf : Buffer} {a : ℕ} {w : Word}
    (h : ∀ j < 4, buf (a + j) = LittleEndian.byteOf w j) : intAt buf a = w := by
  have hbytes : ((List.range 4).map fun j => buf (a + j)) = LittleEndian.bytesOf w 4 :=
    List.map_congr_left fun j hj => h j (List.mem_range.mp hj)
  rw [intAt, hbytes]
  exact LittleEndian.ofNat_value_bytesOf (show 32 = 8 * 4 from rfl) w

theorem intAt_congr {buf buf' : Buffer} {a a' : ℕ} (h : ∀ j < 4, buf' (a' + j) = buf (a + j)) :
    intAt buf' a' = intAt buf a := by
  unfold intAt
  rw [List.map_congr_left fun j hj => h j (List.mem_range.mp hj)]

namespace Drive

variable (d : Drive)

def readSector (sectorNumber : ℤ) : Option Sector :=
  if 0 ≤ sectorNumber ∧ sectorNumber < NumSectors then some (d sectorNumber.toNat) else none

def writeSector (sectorNumber : ℤ) (data : Sector) : Option Drive :=
  if 0 ≤ sectorNumber ∧ sectorNumber < NumSectors then
    some (Function.update d sectorNumber.toNat data)
  else none

variable {d} {n : ℕ}

theorem readSector_of_lt (hn : n < NumSectors) : d.readSector n = some (d n) := by
  rw [readSector, if_pos ⟨Int.natCast_nonneg n, Int.ofNat_lt.mpr hn⟩, Int.toNat_natCast]

theorem writeSector_of_lt (hn : n < NumSectors) (data : Sector) :
    d.writeSector n data = some (Function.update d n data) := by
  rw [writeSector, if_pos ⟨Int.natCast_nonneg n, Int.ofNat_lt.mpr hn⟩, Int.toNat_natCast]

/-- The sectors of the UNIX file under the disk. -/
def ofFile (file : ByteStore.Store) : Drive := fun n => Disk.sector file n

/-- What the disk answers when it is idle, and what it leaves. -/
theorem request_ofFile (file : ByteStore.Store) (sectorNumber : ℤ) (data : Sector) :
    (Disk.request ⟨false, file⟩ (.read sectorNumber)).bind (·.1) =
        (ofFile file).readSector sectorNumber ∧
      ((Disk.request ⟨false, file⟩ (.write sectorNumber data)).map fun r => ofFile r.2.file) =
        (ofFile file).writeSector sectorNumber data := by
  unfold Disk.request readSector writeSector
  by_cases h : 0 ≤ sectorNumber ∧ sectorNumber < NumSectors
  · obtain ⟨n, rfl⟩ := Int.eq_ofNat_of_zero_le h.1
    have hvalid : (DiskRequest.read n).Valid := h
    have hvalid' : (DiskRequest.write n data).Valid := h
    simp only [h, hvalid, hvalid', and_self, if_true, Bool.false_eq_true, if_false]
    refine ⟨rfl, ?_⟩
    simp only [Option.map_some]
    congr 1
    funext k
    show Disk.sector _ k = Function.update (ofFile file) n data k
    by_cases hk : k = n
    · subst hk
      rw [Function.update_self]
      exact Disk.sector_patch_self file k data
    · rw [Function.update_of_ne hk]
      exact Disk.sector_patch_ne file (fun heq => hk (Int.ofNat_inj.mp heq)) data
  · have hvalid : ¬ (DiskRequest.read sectorNumber).Valid := h
    have hvalid' : ¬ (DiskRequest.write sectorNumber data).Valid := h
    simp only [h, hvalid, hvalid', if_false, Bool.false_eq_true]
    exact ⟨rfl, rfl⟩

end Drive

abbrev NumDirect : ℕ := 30
abbrev MaxFileSize : ℕ := NumDirect * SectorSize

structure FileHeader where
  numBytes : Word
  numSectors : Word
  dataSectors : Fin NumDirect → Word

namespace FileHeader

/-- The words of a header, in memory and on the disk. -/
def word (hdr : FileHeader) (i : ℕ) : Word :=
  if i = 0 then hdr.numBytes
  else if i = 1 then hdr.numSectors
  else if h : i - 2 < NumDirect then hdr.dataSectors ⟨i - 2, h⟩
  else 0

def toSector (hdr : FileHeader) : Sector :=
  sectorOf fun j => LittleEndian.byteOf (hdr.word (j / 4)) (j % 4)

/-- `FileHeader::FetchFrom`, once the sector is read. -/
def ofSector (data : Sector) : FileHeader where
  numBytes := intAt (byteOf data) 0
  numSectors := intAt (byteOf data) 4
  dataSectors i := intAt (byteOf data) (4 * (i + 2))

theorem ofSector_toSector (hdr : FileHeader) : ofSector hdr.toSector = hdr := by
  have hword (i : ℕ) (hi : i < 32) : intAt (byteOf hdr.toSector) (4 * i) = hdr.word i := by
    apply intAt_eq
    intro j hj
    rw [toSector, byteOf_sectorOf _ (show _ < 128 by omega), Nat.mul_add_div (by decide),
      Nat.mul_add_mod, Nat.div_eq_of_lt hj, Nat.mod_eq_of_lt hj, Nat.add_zero]
  have hdata : (ofSector hdr.toSector).dataSectors = hdr.dataSectors := by
    funext i
    have hi : i.val < 30 := i.isLt
    refine (hword (i + 2) (by omega)).trans ?_
    rw [word, if_neg (by omega), if_neg (by omega), dif_pos (show i.val + 2 - 2 < 30 by omega)]
    rfl
  have h0 := hword 0 (by decide)
  have h1 := hword 1 (by decide)
  rw [Nat.mul_zero] at h0
  rw [Nat.mul_one] at h1
  rw [ofSector, h0, h1]
  rw [ofSector, h0, h1] at hdata
  exact congrArg (FileHeader.mk hdr.numBytes hdr.numSectors) hdata

/-- The loop of `Allocate` from `dataSectors[i]` on. -/
def allocateLoop (dataSectors : Fin NumDirect → Word) (freeMap : Bitmap NumSectors) (i : ℕ) :
    (left : ℕ) → Option ((Fin NumDirect → Word) × Bitmap NumSectors)
  | 0 => some (dataSectors, freeMap)
  | left + 1 => do
    let (sector, freeMap) ← freeMap.findAndSet
    if h : i < NumDirect then
      if sector ≥ 0 then
        allocateLoop (Function.update dataSectors ⟨i, h⟩ (BitVec.ofInt 32 sector)) freeMap
          (i + 1) left
      else none
    else none

/-- `divRoundUp(fileSize, SectorSize)`. -/
def sectorsFor (fileSize : Word) : Word :=
  BitVec.ofInt 32 (fileSize.toInt.tdiv SectorSize +
    if fileSize.toInt.tmod SectorSize > 0 then 1 else 0)

/-- There is no result when an assertion fails or an index leaves `dataSectors`. -/
def allocate (hdr : FileHeader) (freeMap : Bitmap NumSectors) (fileSize : Word) :
    Option (Bool × FileHeader × Bitmap NumSectors) := do
  let numSectors := sectorsFor fileSize
  if (← freeMap.numClear) < numSectors.toInt then
    return (false, { hdr with numBytes := fileSize, numSectors }, freeMap)
  else
    let (dataSectors, freeMap) ← allocateLoop hdr.dataSectors freeMap 0 numSectors.toInt.toNat
    return (true, { numBytes := fileSize, numSectors, dataSectors }, freeMap)

/-- `dataSectors[i]`, if there is such an entry. -/
def dataSector (hdr : FileHeader) (i : ℤ) : Option Word :=
  if h : 0 ≤ i ∧ i < NumDirect then some (hdr.dataSectors ⟨i.toNat, by omega⟩) else none

/-- The loop of `Deallocate` from `dataSectors[i]` on. -/
def deallocateLoop (hdr : FileHeader) (freeMap : Bitmap NumSectors) (i : ℕ) :
    (left : ℕ) → Option (Bitmap NumSectors)
  | 0 => some freeMap
  | left + 1 => do
    let sector ← hdr.dataSector i
    if ← freeMap.test sector.toInt then
      deallocateLoop hdr (← freeMap.clear sector.toInt) (i + 1) left
    else none

def deallocate (hdr : FileHeader) (freeMap : Bitmap NumSectors) : Option (Bitmap NumSectors) :=
  deallocateLoop hdr freeMap 0 hdr.numSectors.toInt.toNat

def byteToSector (hdr : FileHeader) (offset : ℤ) : Option Word :=
  hdr.dataSector (offset.tdiv SectorSize)

def fetchFrom (d : Drive) (sector : ℤ) : Option FileHeader := (d.readSector sector).map ofSector

def writeBack (hdr : FileHeader) (d : Drive) (sector : ℤ) : Option Drive :=
  d.writeSector sector hdr.toSector

/-- The sector with the `i`-th piece of the file. -/
def sectorNumber (hdr : FileHeader) (i : ℕ) : ℕ :=
  if h : i < NumDirect then (hdr.dataSectors ⟨i, h⟩).toNat else 0

/-- How often the loops over `dataSectors` run. -/
def count (hdr : FileHeader) : ℕ := hdr.numSectors.toInt.toNat

/-- The bytes the file has. -/
def length (hdr : FileHeader) : ℕ := hdr.numBytes.toInt.toNat

/-- The sectors with the contents of the file. -/
def sectors (hdr : FileHeader) : List ℕ := (List.range hdr.count).map hdr.sectorNumber

/-- The sectors are in the array and on the disk, and they suffice. -/
structure Fits (hdr : FileHeader) : Prop where
  direct : hdr.count ≤ NumDirect
  covers : hdr.length ≤ hdr.count * SectorSize
  inRange : ∀ n ∈ hdr.sectors, n < NumSectors

variable {hdr : FileHeader} {freeMap freeMap' : Bitmap NumSectors} {fileSize : Word}

theorem fetchFrom_of_lt {d : Drive} {n : ℕ} (hn : n < NumSectors) :
    fetchFrom d n = some (ofSector (d n)) := by
  rw [fetchFrom, Drive.readSector_of_lt hn, Option.map_some]

theorem writeBack_of_lt {d : Drive} {n : ℕ} (hn : n < NumSectors) :
    hdr.writeBack d n = some (Function.update d n hdr.toSector) := Drive.writeSector_of_lt hn _

/-- The macro `divRoundUp` on an `int`. -/
theorem divRoundUp_int (x : ℤ) : x.tdiv SectorSize + (if x.tmod SectorSize > 0 then 1 else 0) =
    if 0 ≤ x then (x + 127) / 128 else -(-x / 128) := by
  show x.tdiv 128 + (if x.tmod 128 > 0 then 1 else 0) = _
  by_cases hx : 0 ≤ x
  · rw [Int.tdiv_eq_ediv_of_nonneg hx, Int.tmod_eq_emod_of_nonneg hx, if_pos hx]
    split <;> omega
  · obtain ⟨y, rfl⟩ : ∃ y, x = -y := ⟨-x, by omega⟩
    have hy : 0 ≤ y := by omega
    have hmod : (-y).tmod 128 = -(y % 128) := by
      rw [Int.neg_tmod, Int.tmod_eq_emod_of_nonneg hy]
    rw [Int.neg_tdiv, Int.tdiv_eq_ediv_of_nonneg hy, hmod, if_neg (by omega), if_neg hx]
    omega

theorem toInt_sectorsFor (fileSize : Word) : (sectorsFor fileSize).toInt =
    if 0 ≤ fileSize.toInt then (fileSize.toInt + 127) / 128 else -(-fileSize.toInt / 128) := by
  have hlt := BitVec.toInt_lt (x := fileSize)
  have hle := BitVec.le_toInt fileSize
  rw [sectorsFor, divRoundUp_int, BitVec.toInt_ofInt, Int.bmod_eq_of_le]
  · split <;> omega
  · split <;> omega

/-- What a file needs: nothing when its size is negative. -/
theorem sectorsFor_bounds (fileSize : Word) :
    (fileSize.toInt ≤ 0 → (sectorsFor fileSize).toInt ≤ 0) ∧
      (0 ≤ fileSize.toInt →
        fileSize.toInt ≤ (sectorsFor fileSize).toInt * 128 ∧
          (sectorsFor fileSize).toInt * 128 < fileSize.toInt + 128) := by
  rw [toInt_sectorsFor]
  constructor
  · intro h
    split <;> omega
  · intro h
    rw [if_pos h]
    omega

/-- Sectors are taken from the front of the list of clear ones. -/
theorem allocateLoop_eq {left : ℕ} : ∀ (dataSectors : Fin NumDirect → Word)
    {freeMap : Bitmap NumSectors} {i : ℕ}, left ≤ freeMap.clearList.length → i + left ≤ NumDirect →
      ∃ dataSectors', allocateLoop dataSectors freeMap i left =
          some (dataSectors', (freeMap.clearList.take left).foldl Bitmap.insert freeMap) ∧
        (∀ k : Fin NumDirect, k < i → dataSectors' k = dataSectors k) ∧
        ∀ k, k < left → ∀ hi : i + k < NumDirect,
          freeMap.clearList[k]? = some (dataSectors' ⟨i + k, hi⟩).toNat := by
  induction left with
  | zero =>
    intro dataSectors freeMap i _ _
    exact ⟨dataSectors, rfl, fun _ _ => rfl, fun k hk => absurd hk (Nat.not_lt_zero k)⟩
  | succ left ih =>
    intro dataSectors freeMap i hleft hi
    cases hclear : freeMap.clearList with
    | nil => simp [hclear] at hleft
    | cons sector rest =>
      have hrest := Bitmap.clearList_insert hclear
      have hlt : i < NumDirect := by omega
      have hsector : sector < NumSectors :=
        (Bitmap.mem_clearList.mp (hclear ▸ List.mem_cons_self)).1
      have hlength : left ≤ (freeMap.insert sector).clearList.length := by
        rw [hrest]
        simpa [hclear] using hleft
      obtain ⟨dataSectors', hloop, hbefore, hafter⟩ := ih
        (Function.update dataSectors ⟨i, hlt⟩ (BitVec.ofInt 32 sector)) (i := i + 1) hlength
        (by omega)
      refine ⟨dataSectors', ?_, ?_, ?_⟩
      · rw [allocateLoop, Bitmap.findAndSet_eq, hclear]
        simp only [List.head?_cons, Option.bind_eq_bind, Option.bind_some, dif_pos hlt,
          if_pos (show (sector : ℤ) ≥ 0 from Int.natCast_nonneg sector), hloop, hrest]
        rfl
      · intro k hk
        rw [hbefore k (by omega), Function.update_of_ne]
        exact fun heq => absurd hk (by rw [heq]; exact lt_irrefl i)
      · intro k hk hik
        cases k with
        | zero =>
          rw [List.getElem?_cons_zero, hbefore ⟨i + 0, hik⟩ (Nat.lt_succ_self i)]
          show _ = some (Function.update dataSectors ⟨i, hlt⟩ _ ⟨i, hlt⟩).toNat
          have hsmall : sector < 1024 := hsector
          rw [Function.update_self, BitVec.ofInt_natCast, BitVec.toNat_ofNat,
            Nat.mod_eq_of_lt (by omega)]
        | succ k =>
          have hindex : i + 1 + k = i + (k + 1) := by omega
          have hnext := hafter k (by omega) (by omega)
          simp only [hrest, hindex] at hnext
          exact hnext

/-- The sectors `Allocate` takes. -/
def taken (freeMap : Bitmap NumSectors) (fileSize : Word) : List ℕ :=
  freeMap.clearList.take (sectorsFor fileSize).toInt.toNat

theorem mem_taken {n : ℕ} (h : n ∈ taken freeMap fileSize) :
    n < NumSectors ∧ freeMap.mem n = false := Bitmap.mem_clearList.mp (List.mem_of_mem_take h)

theorem nodup_taken (freeMap : Bitmap NumSectors) (fileSize : Word) :
    (taken freeMap fileSize).Nodup :=
  (Bitmap.clearList_nodup freeMap).sublist (List.take_sublist _ _)

/-- There are enough clear bits. -/
def Enough (freeMap : Bitmap NumSectors) (fileSize : Word) : Prop :=
  (sectorsFor fileSize).toInt ≤ freeMap.clearList.length

instance : Decidable (Enough freeMap fileSize) := inferInstanceAs (Decidable (_ ≤ _))

theorem allocate_few (hdr : FileHeader) (h : ¬ Enough freeMap fileSize) :
    ∃ hdr', hdr.allocate freeMap fileSize = some (false, hdr', freeMap) := by
  refine ⟨{ hdr with numBytes := fileSize, numSectors := sectorsFor fileSize }, ?_⟩
  rw [allocate, Bitmap.numClear_eq, Option.bind_eq_bind, Option.bind_some]
  exact if_pos (Int.not_le.mp h)

/-- The file takes all it needs. -/
theorem allocate_enough (hdr : FileHeader) (h : Enough freeMap fileSize)
    (hsize : fileSize.toInt ≤ MaxFileSize) :
    ∃ hdr', hdr.allocate freeMap fileSize =
        some (true, hdr', (taken freeMap fileSize).foldl Bitmap.insert freeMap) ∧
      hdr'.numBytes = fileSize ∧ hdr'.numSectors = sectorsFor fileSize ∧ hdr'.Fits ∧
        hdr'.sectors = taken freeMap fileSize := by
  obtain ⟨hnegative, hpositive⟩ := sectorsFor_bounds fileSize
  have hsize : fileSize.toInt ≤ 3840 := hsize
  have hdirect : (sectorsFor fileSize).toInt.toNat ≤ 30 := by omega
  have hcovers : fileSize.toInt.toNat ≤ (sectorsFor fileSize).toInt.toNat * 128 := by omega
  have hclear : (sectorsFor fileSize).toInt.toNat ≤ freeMap.clearList.length := by
    unfold Enough at h
    omega
  obtain ⟨dataSectors', hloop, -, hafter⟩ := allocateLoop_eq hdr.dataSectors
    (i := 0) hclear (show 0 + _ ≤ 30 by omega)
  have hsectors :
      sectors ⟨fileSize, sectorsFor fileSize, dataSectors'⟩ = taken freeMap fileSize := by
    have hlength : (taken freeMap fileSize).length = (sectorsFor fileSize).toInt.toNat :=
      List.length_take_of_le hclear
    apply List.ext_getElem
    · rw [sectors, List.length_map, List.length_range, hlength]
      rfl
    · intro k hk hk'
      have hin : k < NumDirect := by
        rw [hlength] at hk'
        exact hk'.trans_le hdirect
      have htaken := hafter k (by omega) (by omega)
      simp only [Nat.zero_add] at htaken
      simp only [sectors, List.getElem_map, List.getElem_range, sectorNumber, dif_pos hin,
        taken, List.getElem_take]
      exact (List.getElem_eq_iff _).mpr htaken |>.symm
  refine ⟨⟨fileSize, sectorsFor fileSize, dataSectors'⟩, ?_, rfl, rfl, ⟨hdirect, hcovers, ?_⟩,
    hsectors⟩
  · rw [allocate, Bitmap.numClear_eq, Option.bind_eq_bind, Option.bind_some]
    refine (if_neg (Int.not_lt.mpr h)).trans ?_
    rw [hloop]
    rfl
  · rw [hsectors]
    exact fun n hn => (mem_taken hn).1

/-- Behind the last entry of `dataSectors` there is nothing to store to. -/
theorem allocateLoop_leaves {left : ℕ} : ∀ {dataSectors : Fin NumDirect → Word}
    {freeMap : Bitmap NumSectors} {i : ℕ}, i ≤ NumDirect → NumDirect < i + left →
      allocateLoop dataSectors freeMap i left = none := by
  induction left with
  | zero =>
    intro dataSectors freeMap i hi hleft
    omega
  | succ left ih =>
    intro dataSectors freeMap i hi hleft
    rw [allocateLoop, Bitmap.findAndSet_eq, Option.bind_eq_bind, Option.bind_some]
    rcases freeMap.clearList.head? with - | sector
    · dsimp only
      split
      · exact if_neg (by decide)
      · rfl
    · dsimp only
      split
      · next hin =>
        split
        · exact ih hin (by omega)
        · rfl
      · rfl

/-- A file that is too large for the header, though not for the disk. -/
theorem allocate_leaves (hdr : FileHeader) (h : Enough freeMap fileSize)
    (hsize : MaxFileSize < fileSize.toInt) : hdr.allocate freeMap fileSize = none := by
  have hpositive := (sectorsFor_bounds fileSize).2
  have hsize : 3840 < fileSize.toInt := hsize
  have hmany : 30 < 0 + (sectorsFor fileSize).toInt.toNat := by omega
  rw [allocate, Bitmap.numClear_eq, Option.bind_eq_bind, Option.bind_some]
  refine (if_neg (Int.not_lt.mpr h)).trans ?_
  rw [allocateLoop_leaves (Nat.zero_le _) hmany]
  rfl

theorem dataSector_eq {i : ℕ} (hi : i < NumDirect) (hn : hdr.sectorNumber i < NumSectors) :
    ∃ w, hdr.dataSector i = some w ∧ w.toInt = hdr.sectorNumber i := by
  have hrange : 0 ≤ (i : ℤ) ∧ (i : ℤ) < NumDirect := ⟨Int.natCast_nonneg i, Int.ofNat_lt.mpr hi⟩
  refine ⟨hdr.dataSectors ⟨i, hi⟩, dif_pos hrange, ?_⟩
  rw [sectorNumber, dif_pos hi] at hn ⊢
  have hn : (hdr.dataSectors ⟨i, hi⟩).toNat < 1024 := hn
  exact BitVec.toInt_eq_toNat_of_lt (by omega)

theorem deallocateLoop_eq {left : ℕ} : ∀ {freeMap : Bitmap NumSectors} {i : ℕ},
    i + left ≤ NumDirect → ((List.range' i left).map hdr.sectorNumber).Nodup →
      (∀ n ∈ (List.range' i left).map hdr.sectorNumber, n < NumSectors ∧ freeMap.mem n = true) →
        hdr.deallocateLoop freeMap i left =
          some (((List.range' i left).map hdr.sectorNumber).foldl Bitmap.erase freeMap) := by
  induction left with
  | zero =>
    intro freeMap i _ _ _
    rfl
  | succ left ih =>
    intro freeMap i hi hnodup hmarked
    rw [List.range'_succ, List.map_cons] at hnodup hmarked ⊢
    obtain ⟨hnotin, hnodup⟩ := List.nodup_cons.mp hnodup
    obtain ⟨hlt, hmem⟩ := hmarked _ List.mem_cons_self
    obtain ⟨w, hw, hint⟩ := dataSector_eq (show i < NumDirect by omega) hlt
    rw [deallocateLoop, hw]
    simp only [Option.bind_eq_bind, Option.bind_some, hint, Bitmap.test_of_lt freeMap hlt, hmem,
      if_true, Bitmap.clear_of_lt freeMap hlt]
    refine ih (by omega) hnodup fun n hn => ?_
    obtain ⟨hnlt, hnmem⟩ := hmarked n (List.mem_cons_of_mem _ hn)
    refine ⟨hnlt, ?_⟩
    have hne : hdr.sectorNumber i ≠ n := fun heq => hnotin (heq ▸ hn)
    rw [Bitmap.mem_erase freeMap hlt hnlt, hnmem, decide_eq_false hne]
    rfl

/-- `Deallocate` clears the bits of the file, which are marked. -/
theorem deallocate_eq (hdirect : hdr.count ≤ NumDirect) (hnodup : hdr.sectors.Nodup)
    (hmarked : ∀ n ∈ hdr.sectors, n < NumSectors ∧ freeMap.mem n = true) :
    hdr.deallocate freeMap = some (hdr.sectors.foldl Bitmap.erase freeMap) := by
  rw [sectors, List.range_eq_range'] at hnodup hmarked ⊢
  exact deallocateLoop_eq (by rwa [Nat.zero_add]) hnodup hmarked

end FileHeader
end Nachos.Filesys

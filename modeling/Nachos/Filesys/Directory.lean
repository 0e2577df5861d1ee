import Nachos.Filesys.DiskFile
import Nachos.Threads.StartProcess

/-! The directory and the map of free sectors (`filesys/directory.cc`, `filesys/pbitmap.cc`), in
memory and in their files. -/
namespace Nachos.Filesys

abbrev FileNameMaxLen : ℕ := 9
abbrev NumDirEntries : ℕ := 10

structure DirectoryEntry where
  inUse : Bool
  sector : Word
  name : Fin (FileNameMaxLen + 1) → UInt8
  /-- The bytes between the members and at the end. -/
  padding : Fin 5 → UInt8

/-- `sizeof(DirectoryEntry)`. -/
abbrev EntrySize : ℕ := 20

abbrev DirectoryFileSize : ℕ := EntrySize * NumDirEntries

namespace DirectoryEntry

/-- The entry in memory. -/
def byte (entry : DirectoryEntry) (k : ℕ) : UInt8 :=
  if k = 0 then if entry.inUse then 1 else 0
  else if h : 1 ≤ k ∧ k < 4 then entry.padding ⟨k - 1, by omega⟩
  else if k < 8 then LittleEndian.byteOf entry.sector (k - 4)
  else if h : 8 ≤ k ∧ k < 18 then entry.name ⟨k - 8, show k - 8 < 10 by omega⟩
  else if h : 18 ≤ k ∧ k < 20 then entry.padding ⟨k - 15, by omega⟩
  else 0

/-- The entry at an address. -/
def ofBytes (buf : Buffer) (a : ℕ) : DirectoryEntry where
  inUse := buf a ≠ 0
  sector := intAt buf (a + 4)
  name i := buf (a + 8 + i)
  padding i := if i < 3 then buf (a + 1 + i) else buf (a + 15 + i)

theorem ofBytes_eq {buf : Buffer} {a : ℕ} {entry : DirectoryEntry}
    (h : ∀ k < EntrySize, buf (a + k) = entry.byte k) : DirectoryEntry.ofBytes buf a = entry := by
  have hinUse : decide (buf a ≠ 0) = entry.inUse := by
    rw [show buf a = entry.byte 0 from h 0 (by decide)]
    cases hin : entry.inUse <;> simp [byte, hin]
  have hsector : intAt buf (a + 4) = entry.sector := by
    apply intAt_eq
    intro j hj
    rw [Nat.add_assoc, h _ (show 4 + j < 20 by omega), byte, if_neg (by omega), dif_neg (by omega),
      if_pos (by omega), Nat.add_sub_cancel_left]
  have hname : (fun i : Fin (FileNameMaxLen + 1) => buf (a + 8 + i)) = entry.name := by
    funext i
    have hi : i.val < 10 := i.isLt
    rw [Nat.add_assoc, h _ (show 8 + i.val < 20 by omega), byte, if_neg (by omega),
      dif_neg (by omega), if_neg (by omega), dif_pos (by omega)]
    congr 1
    exact Fin.ext (Nat.add_sub_cancel_left 8 i.val)
  have hpadding : (fun i : Fin 5 => if i.val < 3 then buf (a + 1 + i) else buf (a + 15 + i)) =
      entry.padding := by
    funext i
    have hi := i.isLt
    split
    · next hlow =>
      rw [Nat.add_assoc, h _ (show 1 + i.val < 20 by omega), byte, if_neg (by omega),
        dif_pos (by omega)]
      congr 1
      exact Fin.ext (Nat.add_sub_cancel_left 1 i.val)
    · next hhigh =>
      rw [Nat.add_assoc, h _ (show 15 + i.val < 20 by omega), byte, if_neg (by omega),
        dif_neg (by omega), if_neg (by omega), dif_neg (by omega), dif_pos (by omega)]
      congr 1
      exact Fin.ext (Nat.add_sub_cancel_left 15 i.val)
  rw [ofBytes, hinUse, hsector, hname]
  exact congrArg (DirectoryEntry.mk _ _ _) hpadding

theorem ofBytes_congr {buf buf' : Buffer} {a : ℕ}
    (h : ∀ k < EntrySize, buf' (a + k) = buf (a + k)) :
    DirectoryEntry.ofBytes buf' a = DirectoryEntry.ofBytes buf a := by
  have hbyte {k : ℕ} (hk : k < 20) : buf' (a + k) = buf (a + k) := h k hk
  have hsector : intAt buf' (a + 4) = intAt buf (a + 4) :=
    intAt_congr fun j hj => by rw [Nat.add_assoc, hbyte (by omega)]
  simp only [ofBytes, hsector, Nat.add_assoc]
  congr 1
  · rw [show buf' a = buf a from h 0 (by decide)]
  · funext i
    have hi : i.val < 10 := i.isLt
    exact hbyte (show 8 + i.val < 20 by omega)
  · funext i
    rw [hbyte (show 1 + i.val < 20 by omega), hbyte (show 15 + i.val < 20 by omega)]

end DirectoryEntry

structure Directory (tableSize : ℕ) where
  table : Fin tableSize → DirectoryEntry

/-- `strncmp(a, b, n) == 0`. -/
def strncmp (a b : Buffer) : (n : ℕ) → Bool
  | 0 => true
  | n + 1 => a 0 = b 0 ∧ (a 0 = 0 ∨ strncmp (fun k => a (k + 1)) (fun k => b (k + 1)) n)

theorem strncmp_of_eq {n : ℕ} : ∀ {a b : Buffer}, (∀ k < n, a k = b k) → strncmp a b n = true := by
  induction n with
  | zero =>
    intro a b _
    rfl
  | succ n ih =>
    intro a b h
    rw [strncmp, decide_eq_true_eq]
    exact ⟨h 0 (Nat.succ_pos n), .inr (ih fun k hk => h (k + 1) (Nat.succ_lt_succ hk))⟩

/-- The characters of a name, and the zeros that `strncpy` puts behind them. -/
def nameBytes (name : CString) : Buffer := fun k => name.val.getD k 0

namespace Directory

variable {tableSize : ℕ}

/-- The constructor. -/
def new (table : Fin tableSize → DirectoryEntry) : Directory tableSize :=
  ⟨fun i => { table i with inUse := false }⟩

/-- `(char *)table`. -/
def bytes (directory : Directory tableSize) : Buffer := fun k =>
  if h : k / EntrySize < tableSize then
    (directory.table ⟨k / EntrySize, h⟩).byte (k % EntrySize)
  else 0

def ofBytes (buf : Buffer) : Directory tableSize :=
  ⟨fun i => DirectoryEntry.ofBytes buf (EntrySize * i)⟩

def fetchFrom (directory : Directory tableSize) (file : OpenFile) (d : Drive) :
    Option (Directory tableSize) :=
  (file.readAt d directory.bytes (EntrySize * tableSize) 0).map fun r => ofBytes r.2

def writeBack (directory : Directory tableSize) (file : OpenFile) (d : Drive) (buf : Buffer) :
    Option Drive :=
  (file.writeAt d directory.bytes buf (EntrySize * tableSize) 0).map (·.2)

/-- The entry of a file, none for -1. -/
def findIndex (directory : Directory tableSize) (name : CString) : Option (Fin tableSize) :=
  (List.finRange tableSize).find? fun i => (directory.table i).inUse ∧
    strncmp (fun k => if h : k < FileNameMaxLen + 1 then (directory.table i).name ⟨k, h⟩ else 0)
      (nameBytes name) FileNameMaxLen

def find (directory : Directory tableSize) (name : CString) : ℤ :=
  (directory.findIndex name).elim (-1) fun i => (directory.table i).sector.toInt

/-- `table[i]` after `Add`; the last character of the name is not stored to. -/
def added (entry : DirectoryEntry) (name : CString) (newSector : ℤ) : DirectoryEntry :=
  { entry with
    inUse := true
    name := fun k => if k.val < FileNameMaxLen then nameBytes name k else entry.name k
    sector := BitVec.ofInt 32 newSector }

def add (directory : Directory tableSize) (name : CString) (newSector : ℤ) :
    Bool × Directory tableSize :=
  if (directory.findIndex name).isSome then (false, directory)
  else
    match (List.finRange tableSize).find? fun i => !(directory.table i).inUse with
    | none => (false, directory)
    | some i => (true,
        ⟨Function.update directory.table i (added (directory.table i) name newSector)⟩)

def remove (directory : Directory tableSize) (name : CString) : Bool × Directory tableSize :=
  match directory.findIndex name with
  | none => (false, directory)
  | some i => (true,
      ⟨Function.update directory.table i { directory.table i with inUse := false }⟩)

theorem ofBytes_eq {directory : Directory tableSize} {buf : Buffer}
    (h : ∀ k < EntrySize * tableSize, buf k = directory.bytes k) : ofBytes buf = directory := by
  refine congrArg Directory.mk (funext fun i => DirectoryEntry.ofBytes_eq fun k hk => ?_)
  have hi := i.isLt
  have hk : k < 20 := hk
  have hdiv : (20 * i.val + k) / 20 = i := by omega
  have hmod : (20 * i.val + k) % 20 = k := by omega
  rw [h _ (show 20 * i.val + k < 20 * tableSize by omega), bytes]
  simp only [show EntrySize = 20 from rfl, hdiv, hmod, dif_pos hi]

theorem ofBytes_congr {buf buf' : Buffer} (h : ∀ k < EntrySize * tableSize, buf' k = buf k) :
    ofBytes buf' = (ofBytes buf : Directory tableSize) := by
  refine congrArg Directory.mk (funext fun i => DirectoryEntry.ofBytes_congr fun k hk => h _ ?_)
  have hi := i.isLt
  have hk : k < 20 := hk
  show 20 * i.val + k < 20 * tableSize
  omega

variable {directory : Directory tableSize} {name : CString} {newSector : ℤ}

theorem inUse_of_findIndex {i : Fin tableSize} (h : directory.findIndex name = some i) :
    (directory.table i).inUse = true := by
  have hfound := List.find?_some h
  simp only [decide_eq_true_eq] at hfound
  exact hfound.1

/-- `Add` fails, or takes an entry that is not in use. -/
theorem add_cases (h : directory.findIndex name = none) (newSector : ℤ) :
    (∀ i, (directory.table i).inUse = true) ∧ directory.add name newSector = (false, directory) ∨
      ∃ i, (directory.table i).inUse = false ∧ directory.add name newSector = (true,
        ⟨Function.update directory.table i (added (directory.table i) name newSector)⟩) := by
  unfold add
  rw [h, if_neg (by simp)]
  split
  · next hnone =>
    refine .inl ⟨fun i => ?_, rfl⟩
    simpa using List.find?_eq_none.mp hnone i (List.mem_finRange i)
  · next i hfound =>
    have hfree := List.find?_some hfound
    exact .inr ⟨i, by simpa using hfree, rfl⟩

/-- A name that has been added is found. -/
theorem findIndex_added (h : directory.findIndex name = none) (i : Fin tableSize) (newSector : ℤ) :
    Directory.findIndex
      ⟨Function.update directory.table i (added (directory.table i) name newSector)⟩ name =
        some i := by
  set table := Function.update directory.table i (added (directory.table i) name newSector)
    with htable
  cases hfind : Directory.findIndex ⟨table⟩ name with
  | none =>
    have hnot := List.find?_eq_none.mp hfind i (List.mem_finRange i)
    rw [htable] at hnot
    simp only [Function.update_self, added, true_and, decide_eq_true_eq] at hnot
    refine absurd (strncmp_of_eq fun k hk => ?_) hnot
    have hk : k < 9 := hk
    rw [dif_pos (show k < FileNameMaxLen + 1 from show k < 10 by omega)]
    exact if_pos hk
  | some j =>
    by_cases hj : j = i
    · rw [hj]
    · have hfound := List.find?_some hfind
      have hnot := List.find?_eq_none.mp h j (List.mem_finRange j)
      simp only [htable, Function.update_of_ne hj] at hfound
      exact absurd hfound hnot

end Directory

namespace PersistentBitmap

/-- `numWords * sizeof(unsigned)`. -/
abbrev MapSize : ℕ := divRoundUp NumSectors BitsInWord * 4

/-- `(char *)map`. -/
def bytes (freeMap : Bitmap NumSectors) : Buffer := fun k =>
  LittleEndian.byteOf (freeMap.map[k / 4]?.getD 0) (k % 4)

def ofBytes (buf : Buffer) : Bitmap NumSectors := ⟨Vector.ofFn fun i => intAt buf (4 * i)⟩

/-- The constructor that reads the map from its file. -/
def new (file : OpenFile) (d : Drive) : Option (Bitmap NumSectors) := do
  let freeMap ← Bitmap.new NumSectors
  return ofBytes (← file.readAt d (bytes freeMap) MapSize 0).2

def writeBack (freeMap : Bitmap NumSectors) (file : OpenFile) (d : Drive) (buf : Buffer) :
    Option Drive :=
  (file.writeAt d (bytes freeMap) buf MapSize 0).map (·.2)

theorem ofBytes_eq {freeMap : Bitmap NumSectors} {buf : Buffer}
    (h : ∀ k < MapSize, buf k = bytes freeMap k) : ofBytes buf = freeMap := by
  have hmap : Vector.ofFn (fun i => intAt buf (4 * i.val)) = freeMap.map := by
    apply Vector.ext
    intro i hi
    have hi32 : i < 32 := hi
    rw [Vector.getElem_ofFn]
    apply intAt_eq
    intro j hj
    have hdiv : (4 * i + j) / 4 = i := by omega
    have hmod : (4 * i + j) % 4 = j := by omega
    rw [h _ (show 4 * i + j < 128 by omega), bytes, hdiv, hmod, Vector.getElem?_eq_getElem hi]
    rfl
  exact congrArg Bitmap.mk hmap

theorem ofBytes_congr {buf buf' : Buffer} (h : ∀ k < MapSize, buf' k = buf k) :
    ofBytes buf' = ofBytes buf := by
  refine congrArg Bitmap.mk (congrArg Vector.ofFn (funext fun i => intAt_congr fun j hj => h _ ?_))
  have hi : i.val < 32 := i.isLt
  show 4 * i.val + j < 128
  omega

end PersistentBitmap

variable {d d' : Drive} {file : OpenFile}

/-- A request for the whole of a file. -/
theorem OpenFile.request_whole (h : file.hdr.Fits) {n : ℕ} (hn : 0 < n)
    (hlength : file.hdr.length = n) : file.request n 0 = some (n : ℤ) := by
  have hsmall := h.length_le
  have hint : file.hdr.length = file.hdr.numBytes.toInt.toNat := rfl
  rw [OpenFile.request_eq file le_rfl (by omega)]
  congr 1
  omega

theorem OpenFile.readAt_whole (h : file.hdr.Fits) {n : ℕ} (hn : 0 < n)
    (hlength : file.hdr.length = n) (into : Buffer) :
    ∃ buf, file.readAt d into n 0 = some ((n : ℤ), buf) ∧ ∀ k < n, buf k = byteAt d file.hdr k := by
  refine ⟨_, OpenFile.readAt_eq (p := 0) h into rfl hn (by omega)
    (OpenFile.request_whole h hn hlength), fun k hk => ?_⟩
  rw [if_pos hk, Nat.zero_add]

theorem OpenFile.writeAt_whole (h : file.hdr.Fits) (hnodup : file.hdr.sectors.Nodup) {n : ℕ}
    (hn : 0 < n) (hlength : file.hdr.length = n) (source buf : Buffer) :
    ∃ d', file.writeAt d source buf n 0 = some ((n : ℤ), d') ∧
      (∀ s ∉ file.hdr.sectors, d' s = d s) ∧ ∀ k < n, byteAt d' file.hdr k = source k := by
  obtain ⟨d', hd', hwritten⟩ := OpenFile.writeAt_eq (d := d) (p := 0) h hnodup source buf rfl hn
    (by omega) (OpenFile.request_whole h hn hlength)
  refine ⟨d', hd', hwritten.outside, fun k hk => ?_⟩
  rw [hwritten.bytes k (by omega), if_pos ⟨Nat.zero_le k, by omega⟩, Nat.sub_zero]

/-- The directory that a file holds. -/
def directoryIn (d : Drive) (hdr : FileHeader) : Directory NumDirEntries :=
  Directory.ofBytes (byteAt d hdr)

theorem Directory.fetchFrom_eq (h : file.hdr.Fits)
    (hlength : file.hdr.length = DirectoryFileSize) (directory : Directory NumDirEntries) :
    directory.fetchFrom file d = some (directoryIn d file.hdr) := by
  obtain ⟨buf, hbuf, hbytes⟩ := OpenFile.readAt_whole (d := d) h (by decide) hlength directory.bytes
  rw [Directory.fetchFrom]
  refine (congrArg (Option.map _) hbuf).trans ?_
  exact congrArg some (Directory.ofBytes_congr hbytes)

theorem Directory.writeBack_eq (h : file.hdr.Fits) (hnodup : file.hdr.sectors.Nodup)
    (hlength : file.hdr.length = DirectoryFileSize) (directory : Directory NumDirEntries)
    (buf : Buffer) :
    ∃ d', directory.writeBack file d buf = some d' ∧ (∀ s ∉ file.hdr.sectors, d' s = d s) ∧
      directoryIn d' file.hdr = directory := by
  obtain ⟨d', hd', hother, hbytes⟩ := OpenFile.writeAt_whole (d := d) h hnodup (by decide) hlength
    directory.bytes buf
  exact ⟨d', congrArg (Option.map _) hd', hother, Directory.ofBytes_eq hbytes⟩

/-- The map that a file holds. -/
def freeMapIn (d : Drive) (hdr : FileHeader) : Bitmap NumSectors :=
  PersistentBitmap.ofBytes (byteAt d hdr)

theorem PersistentBitmap.new_eq (h : file.hdr.Fits)
    (hlength : file.hdr.length = PersistentBitmap.MapSize) :
    PersistentBitmap.new file d = some (freeMapIn d file.hdr) := by
  obtain ⟨empty, hempty, -⟩ := Bitmap.new_spec (show 0 < NumSectors by decide)
  obtain ⟨buf, hbuf, hbytes⟩ := OpenFile.readAt_whole (d := d) h (by decide) hlength
    (PersistentBitmap.bytes empty)
  rw [PersistentBitmap.new, hempty]
  simp only [Option.bind_eq_bind, Option.bind_some]
  refine (congrArg (Option.bind · _) hbuf).trans ?_
  exact congrArg some (PersistentBitmap.ofBytes_congr hbytes)

theorem PersistentBitmap.writeBack_eq (h : file.hdr.Fits) (hnodup : file.hdr.sectors.Nodup)
    (hlength : file.hdr.length = PersistentBitmap.MapSize) (freeMap : Bitmap NumSectors)
    (buf : Buffer) : ∃ d', PersistentBitmap.writeBack freeMap file d buf = some d' ∧
      (∀ s ∉ file.hdr.sectors, d' s = d s) ∧ freeMapIn d' file.hdr = freeMap := by
  obtain ⟨d', hd', hother, hbytes⟩ := OpenFile.writeAt_whole (d := d) h hnodup (by decide) hlength
    (PersistentBitmap.bytes freeMap) buf
  exact ⟨d', congrArg (Option.map _) hd', hother, PersistentBitmap.ofBytes_eq hbytes⟩

end Nachos.Filesys

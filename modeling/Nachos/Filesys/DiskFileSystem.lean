import Nachos.Filesys.Directory
import Nachos.Library.Ownership

/-! The file system on the disk (`filesys/filesys.cc`, without `FILESYS_STUB`), as one thread uses
it. There is no result where an assertion fails. -/
namespace Nachos.Filesys

abbrev FreeMapSector : ℕ := 0
abbrev DirectorySector : ℕ := 1

/-- `NumSectors / BitsInByte`. -/
abbrev FreeMapFileSize : ℕ := NumSectors / 8

/-- What is in memory that has just been allocated. -/
structure Fresh where
  table : Fin NumDirEntries → DirectoryEntry
  hdr : FileHeader
  mapHdr : FileHeader
  directoryBuf : Buffer
  freeMapBuf : Buffer

structure FileSystem where
  disk : Drive
  freeMapFile : OpenFile
  directoryFile : OpenFile

namespace FileSystem

/-- The constructor with `format` set. -/
def format (disk : Drive) (fresh : Fresh) : Option FileSystem := do
  let freeMap ← Bitmap.new NumSectors
  let directory := Directory.new fresh.table
  let freeMap ← freeMap.mark FreeMapSector
  let freeMap ← freeMap.mark DirectorySector
  let (mapFits, mapHdr, freeMap) ← fresh.mapHdr.allocate freeMap FreeMapFileSize
  if ¬ mapFits then none
  else
    let (dirFits, dirHdr, freeMap) ← fresh.hdr.allocate freeMap DirectoryFileSize
    if ¬ dirFits then none
    else
      let disk ← mapHdr.writeBack disk FreeMapSector
      let disk ← dirHdr.writeBack disk DirectorySector
      let freeMapFile ← OpenFile.new disk FreeMapSector
      let directoryFile ← OpenFile.new disk DirectorySector
      let disk ← PersistentBitmap.writeBack freeMap freeMapFile disk fresh.freeMapBuf
      let disk ← directory.writeBack directoryFile disk fresh.directoryBuf
      return { disk, freeMapFile, directoryFile }

/-- The constructor without `format`. -/
def mount (disk : Drive) : Option FileSystem := do
  let freeMapFile ← OpenFile.new disk FreeMapSector
  let directoryFile ← OpenFile.new disk DirectorySector
  return { disk, freeMapFile, directoryFile }

variable (fs : FileSystem) (name : CString) (fresh : Fresh)

/-- `Create`, once the header has a sector and the name an entry. -/
def allocateAndFlush (directory : Directory NumDirEntries) (freeMap : Bitmap NumSectors)
    (sector : ℤ) (initialSize : Word) : Option (Bool × FileSystem) := do
  let (allocated, hdr, freeMap) ← fresh.hdr.allocate freeMap initialSize
  if ¬ allocated then return (false, fs)
  else
    let disk ← hdr.writeBack fs.disk sector
    let disk ← directory.writeBack fs.directoryFile disk fresh.directoryBuf
    let disk ← PersistentBitmap.writeBack freeMap fs.freeMapFile disk fresh.freeMapBuf
    return (true, { fs with disk })

def create (initialSize : Word) : Option (Bool × FileSystem) := do
  let directory ← (Directory.new fresh.table).fetchFrom fs.directoryFile fs.disk
  if directory.find name ≠ -1 then return (false, fs)
  else
    let freeMap ← PersistentBitmap.new fs.freeMapFile fs.disk
    let (sector, freeMap) ← freeMap.findAndSet
    if sector = -1 then return (false, fs)
    else
      let (added, directory) := directory.add name sector
      if ¬ added then return (false, fs)
      else fs.allocateAndFlush fresh directory freeMap sector initialSize

/-- `FileSystem::Open`, with the sector of the header. -/
def openFile : Option (Option (ℤ × OpenFile)) := do
  let directory ← (Directory.new fresh.table).fetchFrom fs.directoryFile fs.disk
  let sector := directory.find name
  if sector ≥ 0 then return some (sector, ← OpenFile.new fs.disk sector)
  else return none

def remove : Option (Bool × FileSystem) := do
  let directory ← (Directory.new fresh.table).fetchFrom fs.directoryFile fs.disk
  let sector := directory.find name
  if sector = -1 then return (false, fs)
  else
    let fileHdr ← FileHeader.fetchFrom fs.disk sector
    let freeMap ← PersistentBitmap.new fs.freeMapFile fs.disk
    let freeMap ← fileHdr.deallocate freeMap
    let freeMap ← freeMap.clear sector
    let (_, directory) := directory.remove name
    let disk ← PersistentBitmap.writeBack freeMap fs.freeMapFile fs.disk fresh.freeMapBuf
    let disk ← directory.writeBack fs.directoryFile disk fresh.directoryBuf
    return (true, { fs with disk })

end FileSystem

/-- The header in a sector. -/
def headerAt (d : Drive) (n : ℕ) : FileHeader := FileHeader.ofSector (d n)

/-- The directory and the free map on the disk. -/
def directoryOf (d : Drive) : Directory NumDirEntries := directoryIn d (headerAt d DirectorySector)

def freeMapOf (d : Drive) : Bitmap NumSectors := freeMapIn d (headerAt d FreeMapSector)

theorem OpenFile.new_of_lt {d : Drive} {n : ℕ} (hn : n < NumSectors) :
    OpenFile.new d n = some ⟨headerAt d n, 0⟩ := by
  rw [OpenFile.new, FileHeader.fetchFrom_of_lt hn, Option.map_some]
  rfl

/-- The sectors of a file, its header first. -/
def fileSectors (d : Drive) (n : ℕ) : List ℕ := n :: (headerAt d n).sectors

/-- The files on the disk. -/
inductive Holder where
  | freeMap
  | directory
  | entry (i : Fin NumDirEntries)
  deriving DecidableEq

/-- Where the header of a file is, if there is such a file. -/
def headerSector (d : Drive) : Holder → Option ℕ
  | .freeMap => some FreeMapSector
  | .directory => some DirectorySector
  | .entry i =>
    if ((directoryOf d).table i).inUse then some ((directoryOf d).table i).sector.toNat else none

def parts (d : Drive) (holder : Holder) : List ℕ := (headerSector d holder).elim [] (fileSectors d)

/-- What holds of a disk between two calls. -/
structure DiskOk (d : Drive) : Prop where
  owned : Ownership.Owned (parts d) fun n => n < NumSectors ∧ (freeMapOf d).mem n = true
  fits : ∀ holder n, headerSector d holder = some n → (headerAt d n).Fits
  freeMapSize : (headerAt d FreeMapSector).length = PersistentBitmap.MapSize
  directorySize : (headerAt d DirectorySector).length = DirectoryFileSize

variable {d d' : Drive} {holder : Holder} {i : Fin NumDirEntries} {n : ℕ} {more : List ℕ}
  {directory : Directory NumDirEntries} {freeMap : Bitmap NumSectors}

theorem parts_of_headerSector (h : headerSector d holder = some n) :
    parts d holder = fileSectors d n := by
  rw [parts, h]
  rfl

theorem headerSector_mem (h : headerSector d holder = some n) : n ∈ parts d holder := by
  rw [parts_of_headerSector h]
  exact List.mem_cons_self

theorem headerSector_freeMap : headerSector d .freeMap = some FreeMapSector := rfl

theorem headerSector_directory : headerSector d .directory = some DirectorySector := rfl

theorem headerSector_entry :
    headerSector d (.entry i) = some n ↔
      ((directoryOf d).table i).inUse = true ∧ ((directoryOf d).table i).sector.toNat = n := by
  rw [headerSector]
  split
  · next hin => simp [hin]
  · next hout => simp [hout]

namespace DiskOk

theorem lt (h : DiskOk d) (hn : n ∈ parts d holder) : n < NumSectors :=
  (h.owned.marked_of_mem hn).1

theorem mem_freeMap (h : DiskOk d) (hn : n ∈ parts d holder) : (freeMapOf d).mem n = true :=
  (h.owned.marked_of_mem hn).2

theorem nodup_fileSectors (h : DiskOk d) (hn : headerSector d holder = some n) :
    (fileSectors d n).Nodup := parts_of_headerSector hn ▸ h.owned.nodup holder

/-- No header is in a sector with data. -/
theorem header_not_mem_sectors (h : DiskOk d) {holder' : Holder} {n' : ℕ}
    (hn : headerSector d holder = some n) (hn' : headerSector d holder' = some n') :
    n ∉ (headerAt d n').sectors := by
  by_cases heq : holder = holder'
  · subst heq
    rw [hn] at hn'
    cases hn'
    exact (List.nodup_cons.mp (h.nodup_fileSectors hn)).1
  · intro hmem
    refine h.owned.disjoint holder holder' heq n (headerSector_mem hn) ?_
    rw [parts_of_headerSector hn']
    exact List.mem_cons_of_mem n' hmem

theorem data_not_mem_sectors (h : DiskOk d) {holder' : Holder} {n' m : ℕ}
    (hne : holder ≠ holder') (hm : m ∈ parts d holder) (hn' : headerSector d holder' = some n') :
    m ∉ (headerAt d n').sectors := by
  intro hmem
  refine h.owned.disjoint holder holder' hne m hm ?_
  rw [parts_of_headerSector hn']
  exact List.mem_cons_of_mem n' hmem

end DiskOk

/-- What `Create` and `Remove` change on the disk: the contents of the directory and of the free
map, and the sectors in `more`. -/
structure Rewritten (d d' : Drive) (more : List ℕ) (directory : Directory NumDirEntries)
    (freeMap : Bitmap NumSectors) : Prop where
  same : ∀ n, n ∉ more → n ∉ (headerAt d DirectorySector).sectors →
    n ∉ (headerAt d FreeMapSector).sectors → d' n = d n
  directory : directoryIn d' (headerAt d DirectorySector) = directory
  freeMap : freeMapIn d' (headerAt d FreeMapSector) = freeMap
  fresh : ∀ n ∈ more, ∀ holder, n ∉ parts d holder

namespace Rewritten

theorem header_same (h : Rewritten d d' more directory freeMap) (hd : DiskOk d)
    (hn : headerSector d holder = some n) : d' n = d n :=
  h.same n (fun hmore => h.fresh n hmore holder (headerSector_mem hn))
    (hd.header_not_mem_sectors hn headerSector_directory)
    (hd.header_not_mem_sectors hn headerSector_freeMap)

theorem entry_same (h : Rewritten d d' more directory freeMap) (hd : DiskOk d) {m : ℕ}
    (hm : m ∈ parts d (.entry i)) : d' m = d m :=
  h.same m (fun hmore => h.fresh m hmore _ hm)
    (hd.data_not_mem_sectors (by simp) hm headerSector_directory)
    (hd.data_not_mem_sectors (by simp) hm headerSector_freeMap)

theorem headerAt_eq (h : Rewritten d d' more directory freeMap) (hd : DiskOk d)
    (hn : headerSector d holder = some n) : headerAt d' n = headerAt d n :=
  congrArg FileHeader.ofSector (h.header_same hd hn)

theorem directoryOf_eq (h : Rewritten d d' more directory freeMap) (hd : DiskOk d) :
    directoryOf d' = directory := by
  rw [directoryOf, h.headerAt_eq hd headerSector_directory]
  exact h.directory

theorem freeMapOf_eq (h : Rewritten d d' more directory freeMap) (hd : DiskOk d) :
    freeMapOf d' = freeMap := by
  rw [freeMapOf, h.headerAt_eq hd headerSector_freeMap]
  exact h.freeMap

variable (h : Rewritten d d' more directory freeMap) (hd : DiskOk d)

include h hd

theorem headerSector_other (hother : ∀ j, j ≠ i → directory.table j = (directoryOf d).table j)
    (hne : holder ≠ .entry i) : headerSector d' holder = headerSector d holder := by
  cases holder with
  | freeMap => rfl
  | directory => rfl
  | entry j =>
    rw [headerSector, headerSector, h.directoryOf_eq hd,
      hother j fun heq => hne (congrArg Holder.entry heq)]

theorem parts_other (hother : ∀ j, j ≠ i → directory.table j = (directoryOf d).table j)
    (hne : holder ≠ .entry i) : parts d' holder = parts d holder := by
  unfold parts
  rw [h.headerSector_other hd hother hne]
  cases hn : headerSector d holder with
  | none => rw [Option.elim_none, Option.elim_none]
  | some n => rw [Option.elim_some, Option.elim_some, fileSectors, fileSectors, h.headerAt_eq hd hn]

/-- The other files keep their sectors. -/
theorem parts_eq (hother : ∀ j, j ≠ i → directory.table j = (directoryOf d).table j) :
    parts d' = Function.update (parts d) (.entry i) (parts d' (.entry i)) := by
  funext holder
  by_cases hholder : holder = .entry i
  · rw [hholder, Function.update_self]
  · rw [Function.update_of_ne hholder, h.parts_other hd hother hholder]

end Rewritten

theorem directoryIn_congr {hdr : FileHeader} (h : hdr.Fits)
    (hsize : hdr.length = DirectoryFileSize) (hsame : ∀ n ∈ hdr.sectors, d' n = d n) :
    directoryIn d' hdr = directoryIn d hdr :=
  Directory.ofBytes_congr fun _ hk => byteAt_congr h hsame (hsize ▸ hk)

theorem freeMapIn_congr {hdr : FileHeader} (h : hdr.Fits)
    (hsize : hdr.length = PersistentBitmap.MapSize) (hsame : ∀ n ∈ hdr.sectors, d' n = d n) :
    freeMapIn d' hdr = freeMapIn d hdr :=
  PersistentBitmap.ofBytes_congr fun _ hk => byteAt_congr h hsame (hsize ▸ hk)

/-- The files that are left open. -/
structure SystemFiles (mapHdr dirHdr : FileHeader) : Prop where
  mapFits : mapHdr.Fits
  dirFits : dirHdr.Fits
  mapSize : mapHdr.length = PersistentBitmap.MapSize
  dirSize : dirHdr.length = DirectoryFileSize
  mapNodup : mapHdr.sectors.Nodup
  dirNodup : dirHdr.sectors.Nodup
  disjoint : ∀ n ∈ mapHdr.sectors, n ∉ dirHdr.sectors

section

variable {mapFile dirFile : OpenFile} (h : SystemFiles mapFile.hdr dirFile.hdr) (d : Drive)
  (directory : Directory NumDirEntries) (freeMap : Bitmap NumSectors) (dirBuf mapBuf : Buffer)

include h

theorem writeBack_directory_freeMap : ∃ d₁ d₂, directory.writeBack dirFile d dirBuf = some d₁ ∧
    PersistentBitmap.writeBack freeMap mapFile d₁ mapBuf = some d₂ ∧
      (∀ n, n ∉ dirFile.hdr.sectors → n ∉ mapFile.hdr.sectors → d₂ n = d n) ∧
        directoryIn d₂ dirFile.hdr = directory ∧ freeMapIn d₂ mapFile.hdr = freeMap := by
  obtain ⟨d₁, hd₁, hother₁, hdirectory⟩ :=
    Directory.writeBack_eq (d := d) h.dirFits h.dirNodup h.dirSize directory dirBuf
  obtain ⟨d₂, hd₂, hother₂, hfreeMap⟩ :=
    PersistentBitmap.writeBack_eq (d := d₁) h.mapFits h.mapNodup h.mapSize freeMap mapBuf
  refine ⟨d₁, d₂, hd₁, hd₂, fun n hn hn' => (hother₂ n hn').trans (hother₁ n hn), ?_, hfreeMap⟩
  rw [← hdirectory]
  exact directoryIn_congr h.dirFits h.dirSize fun n hn => hother₂ n fun hn' => h.disjoint n hn' hn

theorem writeBack_freeMap_directory : ∃ d₁ d₂,
    PersistentBitmap.writeBack freeMap mapFile d mapBuf = some d₁ ∧
      directory.writeBack dirFile d₁ dirBuf = some d₂ ∧
      (∀ n, n ∉ dirFile.hdr.sectors → n ∉ mapFile.hdr.sectors → d₂ n = d n) ∧
        directoryIn d₂ dirFile.hdr = directory ∧ freeMapIn d₂ mapFile.hdr = freeMap := by
  obtain ⟨d₁, hd₁, hother₁, hfreeMap⟩ :=
    PersistentBitmap.writeBack_eq (d := d) h.mapFits h.mapNodup h.mapSize freeMap mapBuf
  obtain ⟨d₂, hd₂, hother₂, hdirectory⟩ :=
    Directory.writeBack_eq (d := d₁) h.dirFits h.dirNodup h.dirSize directory dirBuf
  refine ⟨d₁, d₂, hd₁, hd₂, fun n hn hn' => (hother₂ n hn).trans (hother₁ n hn'), hdirectory, ?_⟩
  rw [← hfreeMap]
  exact freeMapIn_congr h.mapFits h.mapSize fun n hn => hother₂ n fun hn' => h.disjoint n hn hn'

end

theorem DiskOk.systemFiles (h : DiskOk d) :
    SystemFiles (headerAt d FreeMapSector) (headerAt d DirectorySector) where
  mapFits := h.fits .freeMap _ rfl
  dirFits := h.fits .directory _ rfl
  mapSize := h.freeMapSize
  dirSize := h.directorySize
  mapNodup :=
    (List.nodup_cons.mp (h.nodup_fileSectors headerSector_freeMap)).2
  dirNodup :=
    (List.nodup_cons.mp (h.nodup_fileSectors headerSector_directory)).2
  disjoint n hn := h.data_not_mem_sectors (show Holder.freeMap ≠ .directory by simp)
    (List.mem_cons_of_mem _ hn) rfl

/-- What holds between two calls, with the two files that are left open. -/
structure FileSystem.Ok (fs : FileSystem) : Prop where
  disk : DiskOk fs.disk
  freeMapFile : fs.freeMapFile.hdr = headerAt fs.disk FreeMapSector
  directoryFile : fs.directoryFile.hdr = headerAt fs.disk DirectorySector

namespace FileSystem.Ok

variable {fs : FileSystem} (h : fs.Ok)

include h

theorem systemFiles : SystemFiles fs.freeMapFile.hdr fs.directoryFile.hdr := by
  rw [h.freeMapFile, h.directoryFile]
  exact h.disk.systemFiles

theorem fetchFrom (directory : Directory NumDirEntries) :
    directory.fetchFrom fs.directoryFile fs.disk = some (directoryOf fs.disk) := by
  rw [Directory.fetchFrom_eq h.systemFiles.dirFits h.systemFiles.dirSize, h.directoryFile]
  rfl

theorem newFreeMap : PersistentBitmap.new fs.freeMapFile fs.disk = some (freeMapOf fs.disk) := by
  rw [PersistentBitmap.new_eq h.systemFiles.mapFits h.systemFiles.mapSize, h.freeMapFile]
  rfl

end FileSystem.Ok

end Nachos.Filesys

import Nachos.Filesys.DiskFileSystem

/-! What `Create`, `Remove` and the constructor do to the files of the file system. -/
namespace Nachos.Filesys

variable {d d' : Drive} {holder : Holder} {i : Fin NumDirEntries} {n : ℕ} {more : List ℕ}
  {directory : Directory NumDirEntries} {freeMap : Bitmap NumSectors}

/-- What `Create` has done when it returns TRUE. -/
structure Created (d d' : Drive) (name : CString) (fileSize : Word) (i : Fin NumDirEntries)
    (sector : ℕ) (directory : Directory NumDirEntries) (freeMap : Bitmap NumSectors) : Prop where
  rewritten : Rewritten d d' [sector] directory freeMap
  found : directory.findIndex name = some i
  unused : ((directoryOf d).table i).inUse = false
  other : ∀ j, j ≠ i → directory.table j = (directoryOf d).table j
  used : (directory.table i).inUse = true ∧ (directory.table i).sector.toNat = sector
  fits : (headerAt d' sector).Fits
  numBytes : (headerAt d' sector).numBytes = fileSize
  numSectors : (headerAt d' sector).numSectors = FileHeader.sectorsFor fileSize
  nodup : (fileSectors d' sector).Nodup
  free : ∀ n ∈ fileSectors d' sector, n < NumSectors ∧ (freeMapOf d).mem n = false
  marked : ∀ n < NumSectors,
    freeMap.mem n = (decide (n ∈ fileSectors d' sector) || (freeMapOf d).mem n)

/-- What `Remove` has done when it returns TRUE. -/
structure Removed (d d' : Drive) (i : Fin NumDirEntries) (directory : Directory NumDirEntries)
    (freeMap : Bitmap NumSectors) : Prop where
  rewritten : Rewritten d d' [] directory freeMap
  other : ∀ j, j ≠ i → directory.table j = (directoryOf d).table j
  unused : (directory.table i).inUse = false
  marked : ∀ n < NumSectors,
    freeMap.mem n = ((freeMapOf d).mem n && !decide (n ∈ parts d (.entry i)))

theorem Created.diskOk {name : CString} {fileSize : Word} {sector : ℕ}
    (h : Created d d' name fileSize i sector directory freeMap) (hd : DiskOk d) :
    DiskOk d' := by
  have hparts := h.rewritten.parts_eq hd h.other
  have hnone : parts d (.entry i) = [] := by
    rw [parts, headerSector, h.unused]
    rfl
  have hentry : headerSector d' (.entry i) = some sector := by
    rw [headerSector_entry, h.rewritten.directoryOf_eq hd]
    exact h.used
  have hfree : ∀ n ∈ fileSectors d' sector,
      ¬ (n < NumSectors ∧ (freeMapOf d).mem n = true) := by
    rintro n hn ⟨-, hmem⟩
    rw [(h.free n hn).2] at hmem
    cases hmem
  have hgrow := hd.owned.grow (.entry i) h.nodup hfree
  rw [hnone, List.nil_append, ← parts_of_headerSector hentry, ← hparts] at hgrow
  constructor
  · refine hgrow.congr (fun _ => rfl) fun n => ?_
    rw [h.rewritten.freeMapOf_eq hd, parts_of_headerSector hentry]
    constructor
    · rintro ⟨hn, hmem⟩
      rw [h.marked n hn, Bool.or_eq_true, decide_eq_true_eq] at hmem
      exact hmem.elim .inr fun hmem => .inl ⟨hn, hmem⟩
    · rintro (⟨hn, hmem⟩ | hmem)
      · exact ⟨hn, by rw [h.marked n hn, hmem, Bool.or_true]⟩
      · exact ⟨(h.free n hmem).1, by rw [h.marked n (h.free n hmem).1, decide_eq_true hmem]; rfl⟩
  · intro holder n hn
    by_cases heq : holder = .entry i
    · subst heq
      rw [hentry] at hn
      cases hn
      exact h.fits
    · rw [h.rewritten.headerSector_other hd h.other heq] at hn
      rw [h.rewritten.headerAt_eq hd hn]
      exact hd.fits holder n hn
  · rw [h.rewritten.headerAt_eq hd headerSector_freeMap]
    exact hd.freeMapSize
  · rw [h.rewritten.headerAt_eq hd headerSector_directory]
    exact hd.directorySize

theorem Removed.diskOk (h : Removed d d' i directory freeMap) (hd : DiskOk d) : DiskOk d' := by
  have hparts := h.rewritten.parts_eq hd h.other
  have hnone : headerSector d' (.entry i) = none := by
    rw [headerSector, h.rewritten.directoryOf_eq hd, h.unused]
    rfl
  have hempty : parts d' (.entry i) = [] := by
    rw [parts, hnone]
    rfl
  have hdrop := hd.owned.drop (.entry i)
  rw [← hempty, ← hparts] at hdrop
  constructor
  · refine hdrop.congr (fun _ => rfl) fun n => ?_
    rw [h.rewritten.freeMapOf_eq hd]
    constructor
    · rintro ⟨hn, hmem⟩
      rw [h.marked n hn, Bool.and_eq_true, Bool.not_eq_true', decide_eq_false_iff_not] at hmem
      exact ⟨⟨hn, hmem.1⟩, hmem.2⟩
    · rintro ⟨⟨hn, hmem⟩, hnot⟩
      exact ⟨hn, by rw [h.marked n hn, hmem, decide_eq_false hnot]; rfl⟩
  · intro holder n hn
    have hne : holder ≠ .entry i := by
      rintro rfl
      rw [hnone] at hn
      cases hn
    rw [h.rewritten.headerSector_other hd h.other hne] at hn
    rw [h.rewritten.headerAt_eq hd hn]
    exact hd.fits holder n hn
  · rw [h.rewritten.headerAt_eq hd headerSector_freeMap]
    exact hd.freeMapSize
  · rw [h.rewritten.headerAt_eq hd headerSector_directory]
    exact hd.directorySize

namespace FileSystem

variable {fs : FileSystem} {name : CString} {fresh : Fresh} {initialSize : Word}

/-- The four ways in which `Create` finds that it cannot add the file. -/
def Refused (d : Drive) (name : CString) (initialSize : Word) : Prop :=
  (directoryOf d).find name ≠ -1 ∨ (freeMapOf d).clearList = [] ∨
    (∀ i, ((directoryOf d).table i).inUse = true) ∨
      ((freeMapOf d).clearList.length : ℤ) ≤ (FileHeader.sectorsFor initialSize).toInt

/-- A name that is found has its header on the disk. -/
theorem find_eq_neg_one_iff (hd : DiskOk d) :
    (directoryOf d).find name = -1 ↔ (directoryOf d).findIndex name = none := by
  rw [Directory.find]
  cases hfind : (directoryOf d).findIndex name with
  | none => simp
  | some i =>
    have hn : headerSector d (.entry i) = some ((directoryOf d).table i).sector.toNat :=
      headerSector_entry.mpr ⟨Directory.inUse_of_findIndex hfind, rfl⟩
    have hlt : ((directoryOf d).table i).sector.toNat < 1024 := hd.lt (headerSector_mem hn)
    simp only [Option.elim_some, reduceCtorEq, iff_false]
    rw [BitVec.toInt_eq_toNat_of_lt (by omega)]
    omega

/-- `Create` up to the allocation of the file. -/
theorem create_cases (h : fs.Ok) :
    (((directoryOf fs.disk).find name ≠ -1 ∨ (freeMapOf fs.disk).clearList = [] ∨
        ∀ i, ((directoryOf fs.disk).table i).inUse = true) ∧
      fs.create name fresh initialSize = some (false, fs)) ∨
    ∃ sector rest i, (directoryOf fs.disk).find name = -1 ∧
      (freeMapOf fs.disk).clearList = sector :: rest ∧
      ((directoryOf fs.disk).table i).inUse = false ∧
      fs.create name fresh initialSize = fs.allocateAndFlush fresh
        ⟨Function.update (directoryOf fs.disk).table i
          (Directory.added ((directoryOf fs.disk).table i) name sector)⟩
        ((freeMapOf fs.disk).insert sector) sector initialSize := by
  have hcreate : fs.create name fresh initialSize = fs.create name fresh initialSize := rfl
  conv_rhs at hcreate => rw [create, h.fetchFrom, Option.bind_eq_bind, Option.bind_some]
  by_cases hname : (directoryOf fs.disk).find name = -1
  · rw [if_neg (not_not.mpr hname), h.newFreeMap, Option.bind_eq_bind, Option.bind_some] at hcreate
    have hfind := Bitmap.findAndSet_eq (freeMapOf fs.disk)
    cases hclear : (freeMapOf fs.disk).clearList with
    | nil =>
      rw [hclear] at hfind
      rw [hfind] at hcreate
      exact .inl ⟨.inr (.inl rfl), hcreate⟩
    | cons sector rest =>
      rw [hclear] at hfind
      rw [hfind, Option.bind_eq_bind, Option.bind_some] at hcreate
      dsimp only [List.head?_cons] at hcreate
      rw [if_neg (show (sector : ℤ) ≠ -1 by omega)] at hcreate
      rcases Directory.add_cases ((find_eq_neg_one_iff h.disk).mp hname) sector with
        ⟨hfull, hadd⟩ | ⟨i, hunused, hadd⟩
      · rw [hadd] at hcreate
        exact .inl ⟨.inr (.inr hfull), hcreate⟩
      · rw [hadd] at hcreate
        exact .inr ⟨sector, rest, i, hname, rfl, hunused, hcreate⟩
  · rw [if_pos hname] at hcreate
    exact .inl ⟨.inl hname, hcreate⟩

/-- The flush of a new file, with all of its sectors. -/
theorem allocateAndFlush_eq (fresh : Fresh) (h : fs.Ok) {sector : ℕ} {rest : List ℕ}
    {i : Fin NumDirEntries} (hname : (directoryOf fs.disk).findIndex name = none)
    (hclear : (freeMapOf fs.disk).clearList = sector :: rest)
    (hunused : ((directoryOf fs.disk).table i).inUse = false)
    (henough : FileHeader.Enough ((freeMapOf fs.disk).insert sector) initialSize)
    (hsize : initialSize.toInt ≤ MaxFileSize) :
    ∃ d' directory freeMap, fs.allocateAndFlush fresh
        ⟨Function.update (directoryOf fs.disk).table i
          (Directory.added ((directoryOf fs.disk).table i) name sector)⟩
        ((freeMapOf fs.disk).insert sector) sector initialSize =
          some (true, { fs with disk := d' }) ∧
      Created fs.disk d' name initialSize i sector directory freeMap := by
  have hsector : sector < NumSectors ∧ (freeMapOf fs.disk).mem sector = false :=
    Bitmap.mem_clearList.mp (hclear ▸ List.mem_cons_self)
  obtain ⟨hdr, hallocate, hbytes, hneeded, hfits, hsectors⟩ :=
    FileHeader.allocate_enough fresh.hdr henough hsize
  obtain ⟨d₁, d₂, hd₁, hd₂, hsame, hdirectory, hfreeMap⟩ := writeBack_directory_freeMap
    h.systemFiles (Function.update fs.disk sector hdr.toSector)
    ⟨Function.update (directoryOf fs.disk).table i
      (Directory.added ((directoryOf fs.disk).table i) name sector)⟩
    ((FileHeader.taken ((freeMapOf fs.disk).insert sector) initialSize).foldl Bitmap.insert
      ((freeMapOf fs.disk).insert sector)) fresh.directoryBuf fresh.freeMapBuf
  have hflush : fs.allocateAndFlush fresh
      ⟨Function.update (directoryOf fs.disk).table i
        (Directory.added ((directoryOf fs.disk).table i) name sector)⟩
      ((freeMapOf fs.disk).insert sector) sector initialSize =
        some (true, { fs with disk := d₂ }) := by
    rw [allocateAndFlush, hallocate, Option.bind_eq_bind, Option.bind_some]
    dsimp only
    rw [if_neg (by simp), FileHeader.writeBack_of_lt hsector.1, Option.bind_eq_bind,
      Option.bind_some, hd₁, Option.bind_some, hd₂, Option.bind_some]
    rfl
  rw [h.freeMapFile, h.directoryFile] at hsame
  rw [h.directoryFile] at hdirectory
  rw [h.freeMapFile] at hfreeMap
  have hfree (holder : Holder) : sector ∉ parts fs.disk holder :=
    h.disk.owned.not_mem_of_not_marked (fun hmarked => by simp [hsector.2] at hmarked) holder
  have hheader : headerAt d₂ sector = hdr := by
    have hdir : sector ∉ (headerAt fs.disk DirectorySector).sectors :=
      fun hmem => hfree .directory (List.mem_cons_of_mem _ hmem)
    have hmap : sector ∉ (headerAt fs.disk FreeMapSector).sectors :=
      fun hmem => hfree .freeMap (List.mem_cons_of_mem _ hmem)
    rw [headerAt, hsame sector hdir hmap, Function.update_self, FileHeader.ofSector_toSector]
  have hfile : fileSectors d₂ sector =
      sector :: FileHeader.taken ((freeMapOf fs.disk).insert sector) initialSize := by
    rw [fileSectors, hheader, hsectors]
  have htaken {n : ℕ} (hn : n ∈ FileHeader.taken ((freeMapOf fs.disk).insert sector) initialSize) :
      n ≠ sector ∧ n < NumSectors ∧ (freeMapOf fs.disk).mem n = false := by
    obtain ⟨hlt, hmem⟩ := FileHeader.mem_taken hn
    rw [Bitmap.mem_insert _ hsector.1 hlt, Bool.or_eq_false_iff, decide_eq_false_iff_not] at hmem
    exact ⟨Ne.symm hmem.1, hlt, hmem.2⟩
  refine ⟨d₂, _, _, hflush, ⟨⟨?_, hdirectory, hfreeMap, ?_⟩,
    Directory.findIndex_added hname i sector, hunused, ?_, ?_, ?_, ?_, ?_, ?_, ?_, ?_⟩⟩
  · intro n hn hdir hmap
    rw [hsame n hdir hmap, Function.update_of_ne (fun heq => hn (List.mem_singleton.mpr heq))]
  · intro n hn
    rw [List.mem_singleton.mp hn]
    exact hfree
  · intro j hj
    exact Function.update_of_ne hj _ _
  · have hsmall : sector < 1024 := hsector.1
    simp only [Function.update_self, Directory.added, true_and]
    rw [BitVec.ofInt_natCast, BitVec.toNat_ofNat, Nat.mod_eq_of_lt (by omega)]
  · rw [hheader]
    exact hfits
  · rw [hheader, hbytes]
  · rw [hheader, hneeded]
  · rw [hfile, List.nodup_cons]
    exact ⟨fun hmem => (htaken hmem).1 rfl, FileHeader.nodup_taken _ _⟩
  · intro n hn
    rw [hfile, List.mem_cons] at hn
    rcases hn with rfl | hn
    · exact hsector
    · exact (htaken hn).2
  · intro n hn
    have hmem := Bitmap.mem_foldl_insert (fun k hk => (htaken hk).2.1) hn
      ((freeMapOf fs.disk).insert sector)
    rw [Bitmap.mem_insert _ hsector.1 hn, ← Bool.or_assoc] at hmem
    refine hmem.trans (congrArg (· || (freeMapOf fs.disk).mem n) ?_)
    rw [hfile, Bool.eq_iff_iff, Bool.or_eq_true, decide_eq_true_eq, decide_eq_true_eq,
      decide_eq_true_eq, List.mem_cons, or_comm, eq_comm]

theorem allocateAndFlush_few {directory : Directory NumDirEntries} {freeMap : Bitmap NumSectors}
    {sector : ℤ} (hfew : ¬ FileHeader.Enough freeMap initialSize) :
    fs.allocateAndFlush fresh directory freeMap sector initialSize = some (false, fs) := by
  obtain ⟨hdr, hallocate⟩ := FileHeader.allocate_few fresh.hdr hfew
  rw [allocateAndFlush, hallocate, Option.bind_eq_bind, Option.bind_some]
  rfl

theorem allocateAndFlush_leaves {directory : Directory NumDirEntries} {freeMap : Bitmap NumSectors}
    {sector : ℤ} (henough : FileHeader.Enough freeMap initialSize)
    (hsize : MaxFileSize < initialSize.toInt) :
    fs.allocateAndFlush fresh directory freeMap sector initialSize = none := by
  rw [allocateAndFlush, FileHeader.allocate_leaves fresh.hdr henough hsize]
  rfl

/-- One clear bit is for the header. -/
theorem enough_insert_iff {freeMap : Bitmap NumSectors} {sector : ℕ} {rest : List ℕ}
    (hclear : freeMap.clearList = sector :: rest) :
    FileHeader.Enough (freeMap.insert sector) initialSize ↔
      (FileHeader.sectorsFor initialSize).toInt < freeMap.clearList.length := by
  rw [FileHeader.Enough, Bitmap.clearList_insert hclear, hclear, List.length_cons]
  omega

theorem create_refused (h : fs.Ok) (hrefused : Refused fs.disk name initialSize) :
    fs.create name fresh initialSize = some (false, fs) := by
  rcases create_cases h with ⟨-, hcreate⟩ | ⟨sector, rest, i, hname, hclear, hunused, hcreate⟩
  · exact hcreate
  rw [hcreate]
  apply allocateAndFlush_few
  rw [enough_insert_iff hclear]
  rcases hrefused with hfound | hnone | hfull | hfew
  · exact absurd hname hfound
  · rw [hclear] at hnone
    cases hnone
  · rw [hfull i] at hunused
    cases hunused
  · exact not_lt.mpr hfew

theorem create_goes (h : fs.Ok) (hgoes : ¬ Refused fs.disk name initialSize) :
    ∃ sector rest i, (directoryOf fs.disk).findIndex name = none ∧
      (freeMapOf fs.disk).clearList = sector :: rest ∧
      ((directoryOf fs.disk).table i).inUse = false ∧
      FileHeader.Enough ((freeMapOf fs.disk).insert sector) initialSize ∧
      fs.create name fresh initialSize = fs.allocateAndFlush fresh
        ⟨Function.update (directoryOf fs.disk).table i
          (Directory.added ((directoryOf fs.disk).table i) name sector)⟩
        ((freeMapOf fs.disk).insert sector) sector initialSize := by
  rcases create_cases h with ⟨hwhy, -⟩ | ⟨sector, rest, i, hname, hclear, hunused, hcreate⟩
  · exact absurd (hwhy.elim .inl fun hwhy => hwhy.elim (.inr ∘ .inl) (.inr ∘ .inr ∘ .inl)) hgoes
  refine ⟨sector, rest, i, (find_eq_neg_one_iff h.disk).mp hname, hclear, hunused, ?_, hcreate⟩
  rw [enough_insert_iff hclear, ← not_le]
  exact fun hfew => hgoes (.inr (.inr (.inr hfew)))

theorem create_adds (fresh : Fresh) (h : fs.Ok) (hgoes : ¬ Refused fs.disk name initialSize)
    (hsize : initialSize.toInt ≤ MaxFileSize) :
    ∃ d' i sector directory freeMap,
      fs.create name fresh initialSize = some (true, { fs with disk := d' }) ∧
        Created fs.disk d' name initialSize i sector directory freeMap := by
  obtain ⟨sector, rest, i, hname, hclear, hunused, henough, hcreate⟩ := create_goes h hgoes
  obtain ⟨d', directory, freeMap, hflush, hcreated⟩ :=
    allocateAndFlush_eq fresh h hname hclear hunused henough hsize
  exact ⟨d', i, sector, directory, freeMap, hcreate.trans hflush, hcreated⟩

theorem create_leaves (h : fs.Ok) (hgoes : ¬ Refused fs.disk name initialSize)
    (hsize : MaxFileSize < initialSize.toInt) : fs.create name fresh initialSize = none := by
  obtain ⟨sector, rest, i, -, hclear, hunused, henough, hcreate⟩ := create_goes h hgoes
  exact hcreate.trans (allocateAndFlush_leaves henough hsize)

/-- The bits that `Remove` leaves. -/
theorem mem_cleared (freeMap : Bitmap NumSectors) {is : List ℕ} {n m : ℕ} (hn : n < NumSectors)
    (his : ∀ k ∈ is, k < NumSectors) (hm : m < NumSectors) :
    ((is.foldl Bitmap.erase freeMap).erase n).mem m =
      (freeMap.mem m && !decide (m ∈ n :: is)) := by
  have hcons : decide (m ∈ n :: is) = (decide (m ∈ is) || decide (n = m)) := by
    rw [Bool.eq_iff_iff, Bool.or_eq_true, decide_eq_true_eq, decide_eq_true_eq, decide_eq_true_eq,
      List.mem_cons, or_comm, eq_comm]
  rw [Bitmap.mem_erase _ hn hm, Bitmap.mem_foldl_erase his hm, hcons, Bool.not_or, Bool.and_assoc]

/-- `Remove` finds nothing, or takes the file out of the directory and its sectors from the map. -/
theorem remove_cases (fresh : Fresh) (h : fs.Ok) :
    (directoryOf fs.disk).findIndex name = none ∧ fs.remove name fresh = some (false, fs) ∨
      ∃ d' i directory freeMap, (directoryOf fs.disk).findIndex name = some i ∧
        fs.remove name fresh = some (true, { fs with disk := d' }) ∧
          Removed fs.disk d' i directory freeMap := by
  have hremove : fs.remove name fresh = fs.remove name fresh := rfl
  conv_rhs at hremove => rw [remove, h.fetchFrom, Option.bind_eq_bind, Option.bind_some]
  cases hfind : (directoryOf fs.disk).findIndex name with
  | none =>
    have hname := (find_eq_neg_one_iff h.disk).mpr hfind
    rw [if_pos hname] at hremove
    exact .inl ⟨rfl, hremove⟩
  | some i =>
    have hinUse := Directory.inUse_of_findIndex hfind
    have hfound : (directoryOf fs.disk).find name =
        ((directoryOf fs.disk).table i).sector.toInt := by
      rw [Directory.find, hfind, Option.elim_some]
    set n := ((directoryOf fs.disk).table i).sector.toNat with hn
    have hheader : headerSector fs.disk (.entry i) = some n := headerSector_entry.mpr ⟨hinUse, rfl⟩
    have hlt : n < 1024 := h.disk.lt (headerSector_mem hheader)
    have hint : ((directoryOf fs.disk).table i).sector.toInt = n :=
      BitVec.toInt_eq_toNat_of_lt (by omega)
    have hmem {m : ℕ} (hm : m ∈ parts fs.disk (.entry i)) :
        m < NumSectors ∧ (freeMapOf fs.disk).mem m = true :=
      ⟨h.disk.lt hm, h.disk.mem_freeMap hm⟩
    have hparts := parts_of_headerSector hheader
    have hdeallocate : (headerAt fs.disk n).deallocate (freeMapOf fs.disk) =
        some ((headerAt fs.disk n).sectors.foldl Bitmap.erase (freeMapOf fs.disk)) :=
      FileHeader.deallocate_eq (h.disk.fits _ n hheader).direct
        (List.nodup_cons.mp (h.disk.nodup_fileSectors hheader)).2
        fun m hm => hmem (hparts ▸ List.mem_cons_of_mem n hm)
    have hdirectory : (directoryOf fs.disk).remove name = (true, ⟨Function.update
        (directoryOf fs.disk).table i { (directoryOf fs.disk).table i with inUse := false }⟩) := by
      rw [Directory.remove, hfind]
    obtain ⟨d₁, d₂, hd₁, hd₂, hsame, hdirectoryIn, hfreeMapIn⟩ := writeBack_freeMap_directory
      h.systemFiles fs.disk ⟨Function.update (directoryOf fs.disk).table i
        { (directoryOf fs.disk).table i with inUse := false }⟩
      (((headerAt fs.disk n).sectors.foldl Bitmap.erase (freeMapOf fs.disk)).erase n)
      fresh.directoryBuf fresh.freeMapBuf
    rw [hfound, hint, if_neg (by omega), FileHeader.fetchFrom_of_lt hlt, Option.bind_eq_bind,
      Option.bind_some, h.newFreeMap, Option.bind_eq_bind, Option.bind_some, ← headerAt,
      hdeallocate, Option.bind_some, Bitmap.clear_of_lt _ hlt, Option.bind_some,
      hdirectory] at hremove
    dsimp only at hremove
    rw [hd₁, Option.bind_eq_bind, Option.bind_some, hd₂, Option.bind_some] at hremove
    rw [h.freeMapFile, h.directoryFile] at hsame
    rw [h.directoryFile] at hdirectoryIn
    rw [h.freeMapFile] at hfreeMapIn
    refine .inr ⟨d₂, i, _, _, rfl, hremove, ⟨?_, hdirectoryIn, hfreeMapIn, ?_⟩, ?_, ?_, ?_⟩
    · exact fun m _ hdir hmap => hsame m hdir hmap
    · intro m hm
      cases hm
    · intro j hj
      exact Function.update_of_ne hj _ _
    · exact congrArg DirectoryEntry.inUse (Function.update_self i _ (directoryOf fs.disk).table)
    · intro m hm
      rw [hparts]
      exact mem_cleared (freeMapOf fs.disk) hlt
        (fun k hk => (hmem (hparts ▸ List.mem_cons_of_mem n hk)).1) hm

end FileSystem

/-- Nothing is marked in a new map. -/
theorem new_clearList : ∃ freeMap : Bitmap NumSectors, Bitmap.new NumSectors = some freeMap ∧
    freeMap.clearList = List.range' 0 1024 := by
  obtain ⟨freeMap, hnew, hclear⟩ := Bitmap.new_spec (show 0 < NumSectors by decide)
  refine ⟨freeMap, hnew, ?_⟩
  rw [Bitmap.clearList, List.filter_eq_self.mpr fun n hn => by
    rw [hclear n (List.mem_range.mp hn)]
    rfl]
  exact List.range_eq_range'

/-- The map and the two headers that the constructor makes. -/
theorem format_allocates (mapHdr dirHdr : FileHeader) :
    ∃ (empty freeMap₁ freeMap₂ : Bitmap NumSectors) (mapHdr' dirHdr' : FileHeader),
      Bitmap.new NumSectors = some empty ∧
      ((empty.insert 0).insert 1).clearList = List.range' 2 1022 ∧
      mapHdr.allocate ((empty.insert 0).insert 1) FreeMapFileSize = some (true, mapHdr', freeMap₁) ∧
      dirHdr.allocate freeMap₁ DirectoryFileSize = some (true, dirHdr', freeMap₂) ∧
      freeMap₂.clearList = List.range' 5 1019 ∧
      (mapHdr'.Fits ∧ mapHdr'.sectors = [2] ∧ mapHdr'.length = PersistentBitmap.MapSize) ∧
      dirHdr'.Fits ∧ dirHdr'.sectors = [3, 4] ∧ dirHdr'.length = DirectoryFileSize := by
  obtain ⟨empty, hnew, hclear⟩ := new_clearList
  have h₀ : (empty.insert 0).clearList = List.range' 1 1023 := Bitmap.clearList_insert hclear
  have h₁ : ((empty.insert 0).insert 1).clearList = List.range' 2 1022 := Bitmap.clearList_insert h₀
  have h₂ := Bitmap.clearList_insert (h₁.trans (show _ = 2 :: List.range' 3 1021 from rfl))
  have h₃ := Bitmap.clearList_insert (h₂.trans (show _ = 3 :: List.range' 4 1020 from rfl))
  have h₄ := Bitmap.clearList_insert (h₃.trans (show _ = 4 :: List.range' 5 1019 from rfl))
  have hmap : FileHeader.taken ((empty.insert 0).insert 1) FreeMapFileSize = [2] := by
    rw [FileHeader.taken, h₁]
    rfl
  have hdir : FileHeader.taken (((empty.insert 0).insert 1).insert 2) DirectoryFileSize =
      [3, 4] := by
    rw [FileHeader.taken, h₂]
    rfl
  have hone : FileHeader.Enough ((empty.insert 0).insert 1) FreeMapFileSize := by
    rw [FileHeader.Enough, h₁, List.length_range']
    decide
  have htwo : FileHeader.Enough (((empty.insert 0).insert 1).insert 2) DirectoryFileSize := by
    rw [FileHeader.Enough, h₂, List.length_range']
    decide
  obtain ⟨mapHdr', hmapHdr, hmapBytes, -, hmapFits, hmapSectors⟩ :=
    mapHdr.allocate_enough hone (by decide)
  obtain ⟨dirHdr', hdirHdr, hdirBytes, -, hdirFits, hdirSectors⟩ :=
    dirHdr.allocate_enough htwo (by decide)
  rw [hmap] at hmapHdr hmapSectors
  rw [hdir] at hdirHdr hdirSectors
  refine ⟨empty, _, _, mapHdr', dirHdr', hnew, h₁, hmapHdr, hdirHdr, h₄,
    ⟨hmapFits, hmapSectors, ?_⟩, hdirFits, hdirSectors, ?_⟩
  · rw [FileHeader.length, hmapBytes]
    rfl
  · rw [FileHeader.length, hdirBytes]
    rfl

/-- Only the two files that are left open have sectors. -/
theorem diskOk_of_clear
    (hmap : (headerAt d FreeMapSector).Fits ∧ (headerAt d FreeMapSector).sectors = [2] ∧
      (headerAt d FreeMapSector).length = PersistentBitmap.MapSize)
    (hdir : (headerAt d DirectorySector).Fits ∧ (headerAt d DirectorySector).sectors = [3, 4] ∧
      (headerAt d DirectorySector).length = DirectoryFileSize)
    (hunused : ∀ i, ((directoryOf d).table i).inUse = false)
    (hclear : (freeMapOf d).clearList = List.range' 5 1019) : DiskOk d := by
  have hnone (i : Fin NumDirEntries) : headerSector d (.entry i) = none := by
    rw [headerSector, hunused]
    rfl
  have hparts : parts d = Function.update (Function.update (fun _ => []) .freeMap [0, 2])
      .directory [1, 3, 4] := by
    funext holder
    cases holder with
    | freeMap =>
      show fileSectors d FreeMapSector = _
      rw [fileSectors, hmap.2.1]
      rfl
    | directory =>
      show fileSectors d DirectorySector = _
      rw [fileSectors, hdir.2.1]
      rfl
    | entry i =>
      rw [parts, hnone]
      rfl
  have hmem {n : ℕ} (hn : n < 1024) : (freeMapOf d).mem n = true ↔ n < 5 := by
    have hlist : n ∈ (freeMapOf d).clearList ↔ n ∈ List.range' 5 1019 := by rw [hclear]
    rw [Bitmap.mem_clearList, List.mem_range'_1] at hlist
    cases hbit : (freeMapOf d).mem n with
    | false =>
      have := hlist.mp ⟨hn, hbit⟩
      simp only [Bool.false_eq_true, false_iff]
      omega
    | true =>
      rw [hbit] at hlist
      simp only [true_iff]
      by_contra hge
      exact absurd (hlist.mpr ⟨by omega, by omega⟩).2 (by simp)
  have hempty : Ownership.Owned (fun _ : Holder => []) fun _ : ℕ => False :=
    Ownership.owned_empty fun _ => id
  have howned := (hempty.grow .freeMap (show [0, 2].Nodup by decide) fun _ _ => id).grow .directory
    (show [1, 3, 4].Nodup by decide) (by decide)
  constructor
  · refine howned.congr (fun i => ?_) fun n => ?_
    · rw [hparts]
      rfl
    · simp only [false_or, List.mem_cons, List.not_mem_nil, or_false]
      constructor
      · rintro ⟨hn, hbit⟩
        have := (hmem hn).mp hbit
        omega
      · intro hn
        exact ⟨show n < 1024 by omega, (hmem (by omega)).mpr (by omega)⟩
  · intro holder n hn
    cases holder with
    | freeMap =>
      cases hn
      exact hmap.1
    | directory =>
      cases hn
      exact hdir.1
    | entry i =>
      rw [hnone] at hn
      cases hn
  · exact hmap.2.2
  · exact hdir.2.2

namespace FileSystem

/-- A disk that has just been formatted. -/
structure Formatted (fs : FileSystem) : Prop where
  ok : fs.Ok
  unused : ∀ i, ((directoryOf fs.disk).table i).inUse = false
  clear : (freeMapOf fs.disk).clearList = List.range' 5 1019

theorem format_eq (disk : Drive) (fresh : Fresh) :
    ∃ fs, format disk fresh = some fs ∧ fs.Formatted := by
  obtain ⟨empty, freeMap₁, freeMap₂, mapHdr, dirHdr, hnew, -, hmapHdr, hdirHdr, hclear,
    ⟨hmapFits, hmapSectors, hmapSize⟩, hdirFits, hdirSectors, hdirSize⟩ :=
      format_allocates fresh.mapHdr fresh.hdr
  have hsystem : SystemFiles (OpenFile.mk mapHdr 0).hdr (OpenFile.mk dirHdr 0).hdr := by
    refine ⟨hmapFits, hdirFits, hmapSize, hdirSize, ?_, ?_, ?_⟩
    · rw [hmapSectors]
      decide
    · rw [hdirSectors]
      decide
    · rw [hmapSectors, hdirSectors]
      decide
  obtain ⟨d₁, d₂, hd₁, hd₂, hsame, hdirectory, hfreeMap⟩ := writeBack_freeMap_directory hsystem
    (Function.update (Function.update disk 0 mapHdr.toSector) 1 dirHdr.toSector)
    (Directory.new fresh.table) freeMap₂ fresh.directoryBuf fresh.freeMapBuf
  have hmapAt : headerAt d₂ FreeMapSector = mapHdr := by
    rw [headerAt, hsame 0 (by rw [hdirSectors]; decide) (by rw [hmapSectors]; decide),
      Function.update_of_ne (by decide), Function.update_self, FileHeader.ofSector_toSector]
  have hdirAt : headerAt d₂ DirectorySector = dirHdr := by
    rw [headerAt, hsame 1 (by rw [hdirSectors]; decide) (by rw [hmapSectors]; decide),
      Function.update_self, FileHeader.ofSector_toSector]
  have hdirectoryOf : directoryOf d₂ = Directory.new fresh.table := by
    rw [directoryOf, hdirAt]
    exact hdirectory
  have hfreeMapOf : freeMapOf d₂ = freeMap₂ := by
    rw [freeMapOf, hmapAt]
    exact hfreeMap
  have hunused (i : Fin NumDirEntries) : ((directoryOf d₂).table i).inUse = false := by
    rw [hdirectoryOf]
    rfl
  refine ⟨⟨d₂, ⟨mapHdr, 0⟩, ⟨dirHdr, 0⟩⟩, ?_, ⟨⟨?_, hmapAt.symm, hdirAt.symm⟩, hunused, ?_⟩⟩
  · have hwrite₀ : mapHdr.writeBack disk FreeMapSector =
        some (Function.update disk 0 mapHdr.toSector) := FileHeader.writeBack_of_lt (by decide)
    have hwrite₁ : dirHdr.writeBack (Function.update disk 0 mapHdr.toSector) DirectorySector =
        some (Function.update (Function.update disk 0 mapHdr.toSector) 1 dirHdr.toSector) :=
      FileHeader.writeBack_of_lt (by decide)
    have hopen₀ := OpenFile.new_of_lt
      (d := Function.update (Function.update disk 0 mapHdr.toSector) 1 dirHdr.toSector)
      (show FreeMapSector < NumSectors by decide)
    have hopen₁ := OpenFile.new_of_lt
      (d := Function.update (Function.update disk 0 mapHdr.toSector) 1 dirHdr.toSector)
      (show DirectorySector < NumSectors by decide)
    rw [headerAt, Function.update_of_ne (by decide), Function.update_self,
      FileHeader.ofSector_toSector] at hopen₀
    rw [headerAt, Function.update_self, FileHeader.ofSector_toSector] at hopen₁
    rw [format, hnew, Option.bind_eq_bind, Option.bind_some, Bitmap.mark_of_lt _ (by decide),
      Option.bind_eq_bind, Option.bind_some, Bitmap.mark_of_lt _ (by decide), Option.bind_some,
      hmapHdr, Option.bind_some]
    dsimp only
    rw [if_neg (by simp), hdirHdr, Option.bind_eq_bind, Option.bind_some]
    dsimp only
    rw [if_neg (by simp), hwrite₀, Option.bind_eq_bind, Option.bind_some, hwrite₁,
      Option.bind_some, hopen₀, Option.bind_some, hopen₁, Option.bind_some, hd₁, Option.bind_some,
      hd₂, Option.bind_some]
    rfl
  · refine diskOk_of_clear ?_ ?_ hunused (hfreeMapOf ▸ hclear)
    · rw [hmapAt]
      exact ⟨hmapFits, hmapSectors, hmapSize⟩
    · rw [hdirAt]
      exact ⟨hdirFits, hdirSectors, hdirSize⟩
  · show (freeMapOf d₂).clearList = _
    rw [hfreeMapOf, hclear]

end FileSystem

end Nachos.Filesys

import Nachos.Filesys.FileCapacity

/-! The account of the free sectors. What is not free belongs to the files, so `Create` finds room
exactly where the sizes of the files leave it. -/
namespace Nachos.Filesys

variable {d d' d₀ : Drive} {i : Fin NumDirEntries}

/-- The holders of sectors, each once. -/
def Holder.all : List Holder := .freeMap :: .directory :: (List.finRange NumDirEntries).map .entry

theorem Holder.nodup_all : Holder.all.Nodup := by decide

theorem Holder.mem_all (holder : Holder) : holder ∈ Holder.all := by
  cases holder with
  | freeMap => exact List.mem_cons_self
  | directory => exact List.mem_cons_of_mem _ List.mem_cons_self
  | entry i =>
    exact List.mem_cons_of_mem _
      (List.mem_cons_of_mem _ (List.mem_map_of_mem (List.mem_finRange i)))

/-- The sectors that a file of a length takes, with its header. -/
def sectorsOfLength (length : ℕ) : ℕ := 1 + divRoundUp length SectorSize

/-- What the file of an entry takes, if there is one. -/
def spaceOf (d : Drive) (i : Fin NumDirEntries) : ℕ :=
  (headerSector d (.entry i)).elim 0 fun n => sectorsOfLength (headerAt d n).length

/-- What the files with a name take. -/
def spaceUsed (d : Drive) : ℕ := ∑ i, spaceOf d i

/-- The two files that are left open are what they have been, and each header has the number of
sectors that `Allocate` computes. -/
structure Sized (d₀ d : Drive) : Prop where
  system : ∀ holder n, (∀ i, holder ≠ .entry i) → headerSector d₀ holder = some n →
    headerAt d n = headerAt d₀ n
  entries : ∀ i n, headerSector d (.entry i) = some n →
    (headerAt d n).numSectors = FileHeader.sectorsFor (headerAt d n).numBytes

theorem toNat_sectorsFor (fileSize : Word) :
    (FileHeader.sectorsFor fileSize).toInt.toNat =
      divRoundUp fileSize.toInt.toNat SectorSize := by
  by_cases hsize : 0 ≤ fileSize.toInt
  · rw [toInt_sectorsFor_eq hsize, Int.toNat_natCast]
  · have hnone := (FileHeader.sectorsFor_bounds fileSize).1 (by omega)
    rw [Int.toNat_of_nonpos hnone, Int.toNat_of_nonpos (by omega)]
    rfl

theorem FileHeader.length_sectors {hdr : FileHeader}
    (h : hdr.numSectors = FileHeader.sectorsFor hdr.numBytes) :
    hdr.sectors.length = divRoundUp hdr.length SectorSize := by
  rw [FileHeader.sectors, List.length_map, List.length_range, FileHeader.count, h,
    FileHeader.length, toNat_sectorsFor]

/-- Every sector is free, or in one of the files. -/
theorem DiskOk.clear_add_parts (h : DiskOk d) :
    (freeMapOf d).clearList.length + (Holder.all.map fun holder => (parts d holder).length).sum =
      NumSectors := by
  have hmarked := h.owned.length_filter Holder.nodup_all Holder.mem_all
    (List.nodup_range (n := NumSectors)) (p := fun n => (freeMapOf d).mem n) fun n => by
      rw [List.mem_range]
  have hsplit := List.length_eq_length_filter_add (l := List.range NumSectors)
    fun n => (freeMapOf d).mem n
  rw [List.length_range] at hsplit
  rw [← hmarked, Bitmap.clearList]
  omega

theorem length_parts_entry (h : Sized d₀ d) (i : Fin NumDirEntries) :
    (parts d (.entry i)).length = spaceOf d i := by
  rw [parts, spaceOf]
  cases hn : headerSector d (.entry i) with
  | none => rfl
  | some n =>
    rw [Option.elim_some, Option.elim_some, fileSectors, List.length_cons,
      FileHeader.length_sectors (h.entries i n hn), sectorsOfLength, Nat.add_comm]

theorem parts_system (h : Sized d₀ d) {holder : Holder} (hsystem : ∀ i, holder ≠ .entry i) :
    parts d holder = parts d₀ holder := by
  cases holder with
  | freeMap =>
    show fileSectors d FreeMapSector = fileSectors d₀ FreeMapSector
    rw [fileSectors, fileSectors, h.system .freeMap _ hsystem rfl]
  | directory =>
    show fileSectors d DirectorySector = fileSectors d₀ DirectorySector
    rw [fileSectors, fileSectors, h.system .directory _ hsystem rfl]
  | entry i => exact absurd rfl (hsystem i)

theorem clear_add_spaceUsed (h : Sized d₀ d) (hd : DiskOk d) :
    (freeMapOf d).clearList.length + spaceUsed d + (parts d₀ .freeMap).length +
      (parts d₀ .directory).length = NumSectors := by
  have hall := hd.clear_add_parts
  have hentries : ((List.finRange NumDirEntries).map fun i => (parts d (.entry i)).length).sum =
      spaceUsed d := by
    rw [List.map_congr_left fun i _ => length_parts_entry h i, spaceUsed, Fin.sum_univ_def]
  have hmap : parts d .freeMap = parts d₀ .freeMap := parts_system h (by simp)
  have hdirectory : parts d .directory = parts d₀ .directory := parts_system h (by simp)
  rw [Holder.all, List.map_cons, List.map_cons, List.sum_cons, List.sum_cons, List.map_map,
    Function.comp_def, hentries, hmap, hdirectory] at hall
  omega

theorem headerSector_system {holder : Holder} (hsystem : ∀ i, holder ≠ .entry i) :
    headerSector d holder = headerSector d₀ holder := by
  cases holder with
  | freeMap => rfl
  | directory => rfl
  | entry i => exact absurd rfl (hsystem i)

namespace Sized

variable {directory : Directory NumDirEntries} {freeMap : Bitmap NumSectors} {more : List ℕ}

theorem rewritten (h : Sized d₀ d) (hd : DiskOk d) (hr : Rewritten d d' more directory freeMap)
    (hother : ∀ j, j ≠ i → directory.table j = (directoryOf d).table j)
    (hentry : ∀ n, headerSector d' (.entry i) = some n →
      (headerAt d' n).numSectors = FileHeader.sectorsFor (headerAt d' n).numBytes) :
    Sized d₀ d' where
  system holder n hsystem hn := by
    have hn' : headerSector d holder = some n := (headerSector_system hsystem).trans hn
    rw [hr.headerAt_eq hd hn', h.system holder n hsystem hn]
  entries j n hn := by
    by_cases hj : j = i
    · subst hj
      exact hentry n hn
    · have hne : Holder.entry j ≠ .entry i := fun heq => hj (Holder.entry.inj heq)
      rw [hr.headerSector_other hd hother hne] at hn
      rw [hr.headerAt_eq hd hn]
      exact h.entries j n hn

theorem created (h : Sized d₀ d) (hd : DiskOk d) {name : CString} {fileSize : Word} {sector : ℕ}
    (hc : Created d d' name fileSize i sector directory freeMap) : Sized d₀ d' := by
  refine h.rewritten hd hc.rewritten hc.other fun n hn => ?_
  rw [headerSector_entry, hc.rewritten.directoryOf_eq hd, hc.used.2] at hn
  rw [← hn.2, hc.numSectors, hc.numBytes]

theorem removed (h : Sized d₀ d) (hd : DiskOk d) (hr : Removed d d' i directory freeMap) :
    Sized d₀ d' := by
  refine h.rewritten hd hr.rewritten hr.other fun n hn => ?_
  rw [headerSector_entry, hr.rewritten.directoryOf_eq hd, hr.unused] at hn
  cases hn.1

theorem written (h : Sized d₀ d) (hw : DataOnly d d') : Sized d₀ d' where
  system holder n hsystem hn := by
    have hn' : headerSector d holder = some n := (headerSector_system hsystem).trans hn
    rw [hw.headerAt holder n hn', h.system holder n hsystem hn]
  entries i n hn := by
    rw [hw.headerSector] at hn
    rw [hw.headerAt _ n hn]
    exact h.entries i n hn

end Sized

namespace DiskState

variable {s s' : DiskState} {l : DiskCall}

/-- What a call does to the disk. -/
inductive Does (s : DiskState) (d' : Drive) : DiskCall → Prop
  | nothing {l : DiskCall} (h : d' = s.fs.disk) : Does s d' l
  | created {name : CString} {initialSize : Word} {fresh : Fresh} {i : Fin NumDirEntries}
      {sector : ℕ} {directory : Directory NumDirEntries} {freeMap : Bitmap NumSectors}
      (hname : (directoryOf s.fs.disk).findIndex name = none)
      (h : Created s.fs.disk d' name initialSize i sector directory freeMap) :
      Does s d' (.create name initialSize fresh)
  | removed {name : CString} {fresh : Fresh} {i : Fin NumDirEntries}
      {directory : Directory NumDirEntries} {freeMap : Bitmap NumSectors}
      (hfind : (directoryOf s.fs.disk).findIndex name = some i)
      (h : Removed s.fs.disk d' i directory freeMap) : Does s d' (.remove name fresh)
  | written {l : DiskCall} {k n : ℕ} {file : OpenFile} {source : Buffer} {p m : ℕ}
      (hl : l.target = some k) (hf : s.opened[k]? = some (some n, file))
      (h : Written file.hdr s.fs.disk d' source p m) : Does s d' l

/-- A transfer to an open file that has a name. -/
theorem Inv.does_writeAt (h : s.Inv) (hnamed : l.WritesNamed s) {k : ℕ} {sector : Option ℕ}
    {file : OpenFile} (hl : l.target = some k) (hf : s.opened[k]? = some (sector, file))
    {source buf : Buffer} {numBytes position r : ℤ}
    (hwrite : file.writeAt s.fs.disk source buf numBytes position = some (r, d')) :
    Does s d' l := by
  obtain ⟨n, rfl⟩ : ∃ n, sector = some n := Option.ne_none_iff_exists'.mp (hnamed k _ hl hf)
  obtain ⟨-, -, -, hfits, hnodup⟩ := h.openHeader (List.mem_of_getElem? hf) rfl
  rcases OpenFile.writeAt_cases (d := s.fs.disk) hfits hnodup source buf numBytes position with
    hnone | hzero | ⟨p, m, d'', hsome, hwritten⟩
  · rw [hnone] at hwrite
    cases hwrite
  · rw [hzero] at hwrite
    cases hwrite
    exact .nothing rfl
  · rw [hsome] at hwrite
    cases hwrite
    exact .written hl hf hwritten

theorem Inv.does (h : s.Inv) (hnamed : l.WritesNamed s) (hstep : s.step l = some s') :
    Does s s'.fs.disk l := by
  cases l with
  | create name initialSize fresh =>
    simp only [DiskState.step, Option.bind_eq_bind, Option.bind_eq_some_iff] at hstep
    obtain ⟨⟨r, fs'⟩, hcreate, heq⟩ := hstep
    cases heq
    rcases FileSystem.create_result h.ok hcreate with
      ⟨-, rfl⟩ | ⟨rfl, i, sector, directory, freeMap, -, hcreated⟩
    · exact .nothing rfl
    · refine .created ((FileSystem.find_eq_neg_one_iff h.ok.disk).mp ?_) hcreated
      by_contra hfound
      rw [FileSystem.create_refused h.ok (.inl hfound)] at hcreate
      cases hcreate
  | remove name fresh =>
    simp only [DiskState.step, h.ok.fetchFrom, Option.bind_eq_bind, Option.bind_some,
      Option.bind_eq_some_iff] at hstep
    obtain ⟨⟨r, fs'⟩, hremove, heq⟩ := hstep
    cases heq
    rcases FileSystem.remove_cases fresh h.ok with
      ⟨-, hfalse⟩ | ⟨d', i, directory, freeMap, hfind, htrue, hremoved⟩
    · rw [hfalse] at hremove
      cases hremove
      exact .nothing rfl
    · rw [htrue] at hremove
      cases hremove
      exact .removed hfind hremoved
  | openFile name fresh =>
    simp only [DiskState.step, Option.bind_eq_bind, Option.bind_eq_some_iff] at hstep
    obtain ⟨r, -, heq⟩ := hstep
    cases r with
    | none =>
      cases heq
      exact .nothing rfl
    | some r =>
      cases heq
      exact .nothing rfl
  | seek k position =>
    simp only [DiskState.step, Option.bind_eq_bind, Option.bind_eq_some_iff] at hstep
    obtain ⟨f, -, heq⟩ := hstep
    cases heq
    exact .nothing rfl
  | write k source buf numBytes =>
    simp only [DiskState.step, OpenFile.write, Option.bind_eq_bind, Option.bind_eq_some_iff]
      at hstep
    obtain ⟨f, hf, ⟨r, file', d'⟩, ⟨⟨r', d''⟩, hwrite, hpair⟩, heq⟩ := hstep
    cases hpair
    cases heq
    exact h.does_writeAt hnamed rfl hf hwrite
  | writeAt k source buf numBytes position =>
    simp only [DiskState.step, Option.bind_eq_bind, Option.bind_eq_some_iff] at hstep
    obtain ⟨f, hf, ⟨r, d'⟩, hwrite, heq⟩ := hstep
    cases heq
    exact h.does_writeAt hnamed rfl hf hwrite
  | mount =>
    simp only [DiskState.step, FileSystem.mount,
      OpenFile.new_of_lt (show FreeMapSector < NumSectors by decide),
      OpenFile.new_of_lt (show DirectorySector < NumSectors by decide)] at hstep
    cases hstep
    exact .nothing rfl

theorem Inv.dataOnly (h : s.Inv) {k n : ℕ} {file : OpenFile}
    (hf : s.opened[k]? = some (some n, file)) {source : Buffer} {p m : ℕ}
    (hw : Written file.hdr s.fs.disk d' source p m) : DataOnly s.fs.disk d' := by
  obtain ⟨i, hsector, hhdr⟩ := h.linked _ (List.mem_of_getElem? hf) n rfl
  exact h.ok.disk.dataOnly hsector (hhdr ▸ hw.outside)

theorem sized_step (h : s.Inv) (hsized : Sized d₀ s.fs.disk) (hnamed : l.WritesNamed s)
    (hstep : s.step l = some s') : Sized d₀ s'.fs.disk := by
  cases h.does hnamed hstep with
  | nothing hsame => exact hsame ▸ hsized
  | created _ hc => exact hsized.created h.ok.disk hc
  | removed _ hr => exact hsized.removed h.ok.disk hr
  | written _ hf hw => exact hsized.written (h.dataOnly hf hw)

end DiskState

namespace FileSystem

variable {fs : FileSystem} {name : CString} {fresh : Fresh} {initialSize : Word}

theorem Formatted.sized (h : fs.Formatted) : Sized fs.disk fs.disk where
  system _ _ _ _ := rfl
  entries i n hn := by
    rw [headerSector_entry, h.unused] at hn
    cases hn.1

theorem Formatted.spaceUsed (h : fs.Formatted) : spaceUsed fs.disk = 0 := by
  refine Finset.sum_eq_zero fun i _ => ?_
  rw [spaceOf, headerSector, h.unused]
  rfl

/-- The formatted disk gives two sectors to the map and three to the directory. -/
theorem Formatted.system_parts (h : fs.Formatted) :
    (parts fs.disk .freeMap).length + (parts fs.disk .directory).length = 5 := by
  have hall := clear_add_spaceUsed h.sized h.ok.disk
  rw [h.clear, h.spaceUsed, List.length_range', Nat.add_assoc] at hall
  exact Nat.add_left_cancel hall

theorem Formatted.space (h : fs.Formatted) (hsized : Sized fs.disk d) (hd : DiskOk d) :
    (freeMapOf d).clearList.length + Filesys.spaceUsed d = 1019 := by
  have hall := clear_add_spaceUsed hsized hd
  rw [Nat.add_assoc, h.system_parts] at hall
  exact Nat.add_right_cancel (m := 5) hall

/-- There is room for a file. -/
def HasRoom (d : Drive) (name : CString) (initialSize : Word) : Prop :=
  (directoryOf d).find name = -1 ∧ (∃ i, ((directoryOf d).table i).inUse = false) ∧
    spaceUsed d + sectorsOfLength initialSize.toInt.toNat ≤ 1019

theorem refused_iff (hspace : (freeMapOf d).clearList.length + spaceUsed d = 1019) :
    Refused d name initialSize ↔ ¬ HasRoom d name initialSize := by
  have hneeded := toNat_sectorsFor initialSize
  have hentries : (∀ i, ((directoryOf d).table i).inUse = true) ↔
      ¬ ∃ i, ((directoryOf d).table i).inUse = false := by simp
  have hfew : ((freeMapOf d).clearList = [] ∨
      ((freeMapOf d).clearList.length : ℤ) ≤ (FileHeader.sectorsFor initialSize).toInt) ↔
        ¬ spaceUsed d + sectorsOfLength initialSize.toInt.toNat ≤ 1019 := by
    rw [← List.length_eq_zero_iff, sectorsOfLength, ← hneeded]
    omega
  rw [Refused, HasRoom, hentries, not_and_or, not_and_or, ← hfew]
  exact or_congr_right or_left_comm

end FileSystem

section

variable {disk : Drive} {fresh : Fresh} {fs : FileSystem} {s : DiskState}

end

end Nachos.Filesys

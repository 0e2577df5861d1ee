import Nachos.Filesys.CreateRemove
import Nachos.Library.Runs

/-! Histories of the file system: who owns which sector, and what the size of a new file may be. -/
namespace Nachos.Filesys

/-- The file system, and the files that are open, each with the sector of its header as long as
it has not been removed. -/
structure DiskState where
  fs : FileSystem
  opened : List (Option ℕ × OpenFile)

inductive DiskCall where
  | create (name : CString) (initialSize : Word) (fresh : Fresh)
  | remove (name : CString) (fresh : Fresh)
  | openFile (name : CString) (fresh : Fresh)
  | seek (k : ℕ) (position : Word)
  | write (k : ℕ) (source buf : Buffer) (numBytes : Word)
  | writeAt (k : ℕ) (source buf : Buffer) (numBytes position : Word)
  /-- Nachos starts again on the disk as it is. -/
  | mount

/-- The open file that a call writes to. -/
def DiskCall.target : DiskCall → Option ℕ
  | .write k _ _ _ | .writeAt k _ _ _ _ => some k
  | _ => none

namespace DiskState

/-- An open file once the file with its header in `sector` has been removed. It can still be
used. -/
def forget (sector : ℤ) (f : Option ℕ × OpenFile) : Option ℕ × OpenFile :=
  if f.1.map Nat.cast = some sector then (none, f.2) else f

/-- There is no next state when an assertion fails. -/
def step (s : DiskState) : DiskCall → Option DiskState
  | .create name initialSize fresh => do
    let (_, fs) ← s.fs.create name fresh initialSize
    return { s with fs }
  | .remove name fresh => do
    let directory ← (Directory.new fresh.table).fetchFrom s.fs.directoryFile s.fs.disk
    let (_, fs) ← s.fs.remove name fresh
    return { fs, opened := s.opened.map (forget (directory.find name)) }
  | .openFile name fresh => do
    match ← s.fs.openFile name fresh with
    | none => return s
    | some (sector, file) => return { s with opened := s.opened ++ [(some sector.toNat, file)] }
  | .seek k position => do
    let (sector, file) ← s.opened[k]?
    return { s with opened := s.opened.set k (sector, file.seek position) }
  | .write k source buf numBytes => do
    let (sector, file) ← s.opened[k]?
    let (_, file, disk) ← file.write s.fs.disk source buf numBytes.toInt
    return { fs := { s.fs with disk }, opened := s.opened.set k (sector, file) }
  | .writeAt k source buf numBytes position => do
    let (_, file) ← s.opened[k]?
    let (_, disk) ← file.writeAt s.fs.disk source buf numBytes.toInt position.toInt
    return { s with fs := { s.fs with disk } }
  | .mount => (FileSystem.mount s.fs.disk).map fun fs => { fs, opened := [] }

/-- The header in memory is the one on the disk, which a name in the directory leads to. -/
def Linked (d : Drive) (f : Option ℕ × OpenFile) : Prop :=
  ∀ n, f.1 = some n → ∃ i, headerSector d (.entry i) = some n ∧ f.2.hdr = headerAt d n

structure Inv (s : DiskState) : Prop where
  ok : s.fs.Ok
  linked : ∀ f ∈ s.opened, Linked s.fs.disk f

end DiskState

/-- The call does not write through an open file that has been removed. -/
def DiskCall.WritesNamed (l : DiskCall) (s : DiskState) : Prop :=
  ∀ k f, l.target = some k → s.opened[k]? = some f → f.1 ≠ none

theorem DiskCall.writesNamed {l : DiskCall} (h : l.target = none) (s : DiskState) :
    l.WritesNamed s := by
  intro k f hk
  rw [h] at hk
  cases hk

/-- What a write to a file with a name leaves as it was. -/
structure DataOnly (d d' : Drive) : Prop where
  headerSector : ∀ holder, headerSector d' holder = headerSector d holder
  headerAt : ∀ holder n, Filesys.headerSector d holder = some n → headerAt d' n = headerAt d n
  freeMap : freeMapOf d' = freeMapOf d

variable {d d' : Drive} {i : Fin NumDirEntries} {n : ℕ}

theorem DataOnly.diskOk (h : DataOnly d d') (hd : DiskOk d) : DiskOk d' := by
  have hparts (holder : Holder) : parts d' holder = parts d holder := by
    unfold parts
    rw [h.headerSector]
    cases hn : Filesys.headerSector d holder with
    | none => rw [Option.elim_none, Option.elim_none]
    | some n =>
      rw [Option.elim_some, Option.elim_some, fileSectors, fileSectors, h.headerAt holder n hn]
  constructor
  · refine hd.owned.congr hparts fun n => ?_
    rw [h.freeMap]
  · intro holder n hn
    rw [h.headerSector] at hn
    rw [h.headerAt holder n hn]
    exact hd.fits holder n hn
  · rw [h.headerAt .freeMap _ rfl]
    exact hd.freeMapSize
  · rw [h.headerAt .directory _ rfl]
    exact hd.directorySize

/-- The sectors of a file with a name hold neither headers nor the directory nor the free map. -/
theorem DiskOk.dataOnly (hd : DiskOk d) (hn : headerSector d (.entry i) = some n)
    (hsame : ∀ m ∉ (headerAt d n).sectors, d' m = d m) : DataOnly d d' := by
  have hheader {holder : Holder} {m : ℕ} (hm : headerSector d holder = some m) :
      headerAt d' m = headerAt d m :=
    congrArg FileHeader.ofSector (hsame m (hd.header_not_mem_sectors hm hn))
  have hdata {holder : Holder} {m k : ℕ} (hne : holder ≠ .entry i)
      (hm : headerSector d holder = some m) (hk : k ∈ (headerAt d m).sectors) : d' k = d k := by
    refine hsame k (hd.data_not_mem_sectors hne ?_ hn)
    rw [parts_of_headerSector hm]
    exact List.mem_cons_of_mem m hk
  have hmap : headerSector d .freeMap = some FreeMapSector := rfl
  have hdir : headerSector d .directory = some DirectorySector := rfl
  have hdirectory : directoryOf d' = directoryOf d := by
    rw [directoryOf, hheader hdir]
    exact directoryIn_congr (hd.fits _ _ hdir) hd.directorySize fun k hk => hdata (by simp) hdir hk
  refine ⟨fun holder => ?_, fun holder m hm => hheader hm, ?_⟩
  · cases holder with
    | freeMap => rfl
    | directory => rfl
    | entry j => rw [headerSector, headerSector, hdirectory]
  · rw [freeMapOf, hheader hmap]
    exact freeMapIn_congr (hd.fits _ _ hmap) hd.freeMapSize fun k hk => hdata (by simp) hmap hk

namespace FileSystem

variable {fs fs' : FileSystem} {name : CString} {fresh : Fresh} {initialSize : Word}

theorem Ok.rewritten (h : fs.Ok) {more : List ℕ} {directory : Directory NumDirEntries}
    {freeMap : Bitmap NumSectors} (hr : Rewritten fs.disk d' more directory freeMap)
    (hd : DiskOk d') : Ok { fs with disk := d' } :=
  ⟨hd, h.freeMapFile.trans
      (hr.headerAt_eq h.disk headerSector_freeMap).symm,
    h.directoryFile.trans
      (hr.headerAt_eq h.disk headerSector_directory).symm⟩

/-- The outcomes of `Create`. -/
theorem create_result (h : fs.Ok) {r : Bool}
    (hcreate : fs.create name fresh initialSize = some (r, fs')) :
    r = false ∧ fs' = fs ∨
      r = true ∧ ∃ i sector directory freeMap, fs' = { fs with disk := fs'.disk } ∧
        Created fs.disk fs'.disk name initialSize i sector directory freeMap := by
  by_cases hrefused : Refused fs.disk name initialSize
  · rw [create_refused h hrefused] at hcreate
    cases hcreate
    exact .inl ⟨rfl, rfl⟩
  · by_cases hsize : initialSize.toInt ≤ MaxFileSize
    · obtain ⟨d', i, sector, directory, freeMap, hadds, hcreated⟩ :=
        create_adds fresh h hrefused hsize
      rw [hadds] at hcreate
      cases hcreate
      exact .inr ⟨rfl, i, sector, directory, freeMap, rfl, hcreated⟩
    · rw [create_leaves h hrefused (not_le.mp hsize)] at hcreate
      cases hcreate

end FileSystem

namespace DiskState

variable {s s' : DiskState}

/-- An open file stays what it is while its entry does. -/
theorem Linked.rewritten {f : Option ℕ × OpenFile} {more : List ℕ}
    {directory : Directory NumDirEntries} {freeMap : Bitmap NumSectors}
    (hr : Rewritten d d' more directory freeMap) (hd : DiskOk d)
    (hother : ∀ j, j ≠ i → directory.table j = (directoryOf d).table j)
    (hlinked : Linked d f) (hne : ∀ n, f.1 = some n → headerSector d (.entry i) ≠ some n) :
    Linked d' f := by
  intro n hn
  obtain ⟨j, hj, hhdr⟩ := hlinked n hn
  have hji : Holder.entry j ≠ .entry i := by
    intro heq
    rw [heq] at hj
    exact hne n hn hj
  refine ⟨j, (hr.headerSector_other hd hother hji).trans hj, hhdr.trans ?_⟩
  exact (hr.headerAt_eq hd hj).symm

theorem Linked.dataOnly {f : Option ℕ × OpenFile} (h : DataOnly d d') (hlinked : Linked d f) :
    Linked d' f := by
  intro n hn
  obtain ⟨j, hj, hhdr⟩ := hlinked n hn
  exact ⟨j, (h.headerSector _).trans hj, hhdr.trans (h.headerAt _ _ hj).symm⟩

theorem forget_of_ne {sector : ℤ} {f : Option ℕ × OpenFile} (h : f.1.map Nat.cast ≠ some sector) :
    forget sector f = f := if_neg h

/-- There is no file with its header in sector -1. -/
@[simp] theorem map_forget_neg_one (opened : List (Option ℕ × OpenFile)) :
    opened.map (forget (-1)) = opened := by
  refine List.map_id'' (fun f => forget_of_ne ?_) _
  cases f.1 <;> simp

namespace Inv

variable (h : s.Inv)

include h

theorem create {name : CString} {initialSize : Word} {fresh : Fresh}
    (hstep : s.step (.create name initialSize fresh) = some s') : s'.Inv := by
  simp only [step, Option.bind_eq_bind, Option.bind_eq_some_iff] at hstep
  obtain ⟨⟨r, fs'⟩, hcreate, heq⟩ := hstep
  cases heq
  rcases FileSystem.create_result h.ok hcreate with
    ⟨-, rfl⟩ | ⟨-, i, sector, directory, freeMap, hfs, hcreated⟩
  · exact h
  · have hok := h.ok.rewritten hcreated.rewritten (hcreated.diskOk h.ok.disk)
    rw [← hfs] at hok
    refine ⟨hok, fun f hf =>
      (h.linked f hf).rewritten hcreated.rewritten h.ok.disk hcreated.other fun n _ => ?_⟩
    rw [headerSector, hcreated.unused]
    simp

theorem remove {name : CString} {fresh : Fresh} (hstep : s.step (.remove name fresh) = some s') :
    s'.Inv := by
  simp only [step, h.ok.fetchFrom, Option.bind_eq_bind, Option.bind_some, Option.bind_eq_some_iff]
    at hstep
  obtain ⟨⟨r, fs'⟩, hremove, heq⟩ := hstep
  cases heq
  rcases FileSystem.remove_cases fresh h.ok with
    ⟨hnone, hfalse⟩ | ⟨d', i, directory, freeMap, hfind, htrue, hremoved⟩
  · rw [hfalse] at hremove
    cases hremove
    rw [(FileSystem.find_eq_neg_one_iff h.ok.disk).mpr hnone, map_forget_neg_one]
    exact h
  · rw [htrue] at hremove
    cases hremove
    refine ⟨h.ok.rewritten hremoved.rewritten (hremoved.diskOk h.ok.disk), fun f hf => ?_⟩
    obtain ⟨g, hg, rfl⟩ := List.mem_map.mp hf
    unfold forget
    split
    · -- the file has no name any more
      exact nofun
    · next hne =>
      refine (h.linked g hg).rewritten hremoved.rewritten h.ok.disk hremoved.other
        fun n hn hsector => hne ?_
      obtain ⟨hinUse, heq⟩ := headerSector_entry.mp hsector
      have hlt : n < 1024 := h.ok.disk.lt (headerSector_mem hsector)
      rw [hn, Directory.find, hfind, Option.elim_some, ← heq]
      exact congrArg some (BitVec.toInt_eq_toNat_of_lt (by omega)).symm

theorem openFile {name : CString} {fresh : Fresh}
    (hstep : s.step (.openFile name fresh) = some s') : s'.Inv := by
  simp only [step, FileSystem.openFile, h.ok.fetchFrom, Option.bind_eq_bind, Option.bind_some]
    at hstep
  cases hfind : (directoryOf s.fs.disk).findIndex name with
  | none =>
    rw [Directory.find, hfind, Option.elim_none, if_neg (by decide)] at hstep
    cases hstep
    exact h
  | some i =>
    have hsector : headerSector s.fs.disk (.entry i) =
        some ((directoryOf s.fs.disk).table i).sector.toNat :=
      headerSector_entry.mpr ⟨Directory.inUse_of_findIndex hfind, rfl⟩
    have hlt : ((directoryOf s.fs.disk).table i).sector.toNat < 1024 :=
      h.ok.disk.lt (headerSector_mem hsector)
    have hint : ((directoryOf s.fs.disk).table i).sector.toInt =
        ((directoryOf s.fs.disk).table i).sector.toNat := BitVec.toInt_eq_toNat_of_lt (by omega)
    rw [Directory.find, hfind, Option.elim_some, hint, if_pos (Int.natCast_nonneg _),
      OpenFile.new_of_lt hlt] at hstep
    cases hstep
    refine ⟨h.ok, fun f hf => ?_⟩
    rcases List.mem_append.mp hf with hf | hf
    · exact h.linked f hf
    · rw [List.mem_singleton.mp hf]
      rintro n ⟨⟩
      exact ⟨i, hsector, rfl⟩

theorem seek {k : ℕ} {position : Word} (hstep : s.step (.seek k position) = some s') : s'.Inv := by
  simp only [step, Option.bind_eq_bind, Option.bind_eq_some_iff] at hstep
  obtain ⟨⟨sector, file⟩, hfile, heq⟩ := hstep
  cases heq
  refine ⟨h.ok, fun f hf => ?_⟩
  rcases List.mem_or_eq_of_mem_set hf with hf | rfl
  · exact h.linked f hf
  · exact h.linked (sector, file) (List.mem_of_getElem? hfile)

/-- The header of an open file that has a name. -/
theorem openHeader {f : Option ℕ × OpenFile} {n : ℕ} (hf : f ∈ s.opened) (hn : f.1 = some n) :
    ∃ i, headerSector s.fs.disk (.entry i) = some n ∧ f.2.hdr = headerAt s.fs.disk n ∧
      f.2.hdr.Fits ∧ f.2.hdr.sectors.Nodup := by
  obtain ⟨i, hsector, hhdr⟩ := h.linked f hf n hn
  refine ⟨i, hsector, hhdr, ?_, ?_⟩
  · rw [hhdr]
    exact h.ok.disk.fits _ _ hsector
  · rw [hhdr]
    exact (List.nodup_cons.mp (h.ok.disk.nodup_fileSectors hsector)).2

/-- A transfer to an open file that has a name. -/
theorem written {f : Option ℕ × OpenFile} (hf : f ∈ s.opened) (hnamed : f.1 ≠ none)
    {source buf : Buffer} {numBytes position r : ℤ} {d' : Drive}
    (hwrite : f.2.writeAt s.fs.disk source buf numBytes position = some (r, d')) :
    DiskState.Inv { s with fs := { s.fs with disk := d' } } := by
  obtain ⟨n, hn⟩ := Option.ne_none_iff_exists'.mp hnamed
  obtain ⟨i, hsector, hhdr, hfits, hnodup⟩ := h.openHeader hf hn
  have hdata : DataOnly s.fs.disk d' := by
    refine h.ok.disk.dataOnly hsector ?_
    rw [← hhdr]
    rcases OpenFile.writeAt_cases (d := s.fs.disk) hfits hnodup source buf numBytes position with
      hnone | hzero | ⟨p, m, d'', hsome, hwritten⟩
    · rw [hnone] at hwrite
      cases hwrite
    · rw [hzero] at hwrite
      cases hwrite
      exact fun _ _ => rfl
    · rw [hsome] at hwrite
      cases hwrite
      exact hwritten.outside
  exact ⟨⟨hdata.diskOk h.ok.disk, h.ok.freeMapFile.trans (hdata.headerAt .freeMap _ rfl).symm,
    h.ok.directoryFile.trans (hdata.headerAt .directory _ rfl).symm⟩,
    fun g hg => (h.linked g hg).dataOnly hdata⟩

theorem write {k : ℕ} {source buf : Buffer} {numBytes : Word}
    (hnamed : (DiskCall.write k source buf numBytes).WritesNamed s)
    (hstep : s.step (.write k source buf numBytes) = some s') : s'.Inv := by
  simp only [step, OpenFile.write, Option.bind_eq_bind, Option.bind_eq_some_iff] at hstep
  obtain ⟨⟨sector, file⟩, hfile, ⟨r, file', d'⟩, ⟨⟨r', d''⟩, hwrite, hpair⟩, heq⟩ := hstep
  cases hpair
  cases heq
  have hinv := h.written (List.mem_of_getElem? hfile) (hnamed k _ rfl hfile) hwrite
  refine ⟨hinv.ok, fun f hf => ?_⟩
  rcases List.mem_or_eq_of_mem_set hf with hf | rfl
  · exact hinv.linked f hf
  · exact hinv.linked (sector, file) (List.mem_of_getElem? hfile)

theorem writeAt {k : ℕ} {source buf : Buffer} {numBytes position : Word}
    (hnamed : (DiskCall.writeAt k source buf numBytes position).WritesNamed s)
    (hstep : s.step (.writeAt k source buf numBytes position) = some s') : s'.Inv := by
  simp only [step, Option.bind_eq_bind, Option.bind_eq_some_iff] at hstep
  obtain ⟨⟨sector, file⟩, hfile, ⟨r, d'⟩, hwrite, heq⟩ := hstep
  cases heq
  exact h.written (List.mem_of_getElem? hfile) (hnamed k _ rfl hfile) hwrite

theorem mount (hstep : s.step .mount = some s') : s'.Inv := by
  rw [step, FileSystem.mount, OpenFile.new_of_lt (show FreeMapSector < NumSectors by decide),
    OpenFile.new_of_lt (show DirectorySector < NumSectors by decide)] at hstep
  cases hstep
  exact ⟨⟨h.ok.disk, rfl, rfl⟩, fun f hf => by cases hf⟩

theorem step {l : DiskCall} (hnamed : l.WritesNamed s) (hstep : s.step l = some s') :
    s'.Inv := by
  cases l with
  | create name initialSize fresh => exact h.create hstep
  | remove name fresh => exact h.remove hstep
  | openFile name fresh => exact h.openFile hstep
  | seek k position => exact h.seek hstep
  | write k source buf numBytes => exact h.write hnamed hstep
  | writeAt k source buf numBytes position => exact h.writeAt hnamed hstep
  | mount => exact h.mount hstep

end Inv

end DiskState

/-- The sizes that a header has room for. -/
def InCapacity (initialSize : Word) : Prop :=
  0 ≤ initialSize.toInt ∧ initialSize.toInt ≤ MaxFileSize

def DiskCall.InCapacity : DiskCall → Prop
  | .create _ initialSize _ => Filesys.InCapacity initialSize
  | _ => True

namespace FileSystem

variable {fs : FileSystem} {name : CString} {fresh : Fresh} {initialSize : Word}

end FileSystem

section

variable {disk : Drive} {fresh : Fresh} {fs : FileSystem} {s : DiskState}
  {allow : DiskState → DiskCall → Prop}

theorem DiskState.inv_reach (hformat : FileSystem.format disk fresh = some fs)
    (hnamed : ∀ t l, allow t l → l.WritesNamed t)
    (hr : Runs.Reach DiskState.step allow ⟨fs, []⟩ s) : s.Inv := by
  obtain ⟨fs₀, hfs₀, hformatted⟩ := FileSystem.format_eq disk fresh
  obtain rfl : fs₀ = fs := Option.some.inj (hfs₀.symm.trans hformat)
  refine hr.invariant ⟨hformatted.ok, fun f hf => by cases hf⟩ ?_
  intro t l u ht hl hstep
  exact ht.step (hnamed t l hl) hstep

end

namespace BlankDisk

def disk : Drive := fun _ => sectorOf fun _ => 0

def fresh : Fresh where
  table _ := ⟨false, 0, fun _ => 0, fun _ => 0⟩
  hdr := ⟨0, 0, fun _ => 0⟩
  mapHdr := ⟨0, 0, fun _ => 0⟩
  directoryBuf _ := 0
  freeMapBuf _ := 0

def name : CString := ⟨[102], by decide⟩

end BlankDisk

end Nachos.Filesys

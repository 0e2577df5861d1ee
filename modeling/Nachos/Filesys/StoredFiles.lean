import Nachos.Filesys.DirectoryMap
import Nachos.Filesys.FileTransfers
import Nachos.Filesys.FreeSpace
import Nachos.Library.FileStore

/-! What the file system on the disk is for: it keeps files under the first characters of their
names, through any history of calls and restarts. -/
namespace Nachos.Filesys

open FileStore

def FileHeader.fileLength (hdr : FileHeader) : Word := hdr.numBytes

/-- `OpenFile::Length`. -/
def OpenFile.fileLength (file : OpenFile) : Word := file.hdr.fileLength

/-- The calls of a program. An open file is called by its place among those that are open, and
`into`, `buf` and `fresh` are what memory holds. -/
inductive FileCall where
  | create (name : CString) (initialSize : Word) (fresh : Fresh)
  | remove (name : CString) (fresh : Fresh)
  | openFile (name : CString) (fresh : Fresh)
  | close (k : ℕ)
  | seek (k : ℕ) (position : Word)
  | length (k : ℕ)
  | read (k : ℕ) (into : Buffer) (numBytes : Word)
  | readAt (k : ℕ) (into : Buffer) (numBytes position : Word)
  | write (k : ℕ) (source buf : Buffer) (numBytes : Word)
  | writeAt (k : ℕ) (source buf : Buffer) (numBytes position : Word)
  | mount

/-- What the call is about. -/
def FileCall.op : FileCall → Op (List UInt8) UInt8
  | .create name initialSize _ => .create (keyOf name) initialSize.toInt
  | .remove name _ => .remove (keyOf name)
  | .openFile name _ => .openFile (keyOf name)
  | .close k => .close k
  | .seek k position => .seek k position.toInt
  | .length k => .length k
  | .read k _ numBytes => .read k numBytes.toInt
  | .readAt k _ numBytes position => .readAt k numBytes.toInt position.toInt
  | .write k source _ numBytes => .write k source numBytes.toInt
  | .writeAt k source _ numBytes position => .writeAt k source numBytes.toInt position.toInt
  | .mount => .restart

/-- The open file that a call writes to. -/
def FileCall.target : FileCall → Option ℕ
  | .write k _ _ _ | .writeAt k _ _ _ _ => some k
  | _ => none

/-- The first bytes of a buffer. -/
def arrived (into : Buffer) (n : ℤ) : List UInt8 := (List.range n.toNat).map into

/-- The calls, with what they return. -/
def DiskState.serve (s : DiskState) : FileCall → Option (Answer UInt8 × DiskState)
  | .create name initialSize fresh => do
    let (ok, fs) ← s.fs.create name fresh initialSize
    return (.done ok, { s with fs })
  | .remove name fresh => do
    let directory ← (Directory.new fresh.table).fetchFrom s.fs.directoryFile s.fs.disk
    let (ok, fs) ← s.fs.remove name fresh
    return (.done ok, { fs, opened := s.opened.map (forget (directory.find name)) })
  | .openFile name fresh => do
    match ← s.fs.openFile name fresh with
    | none => return (.done false, s)
    | some (sector, file) =>
      return (.done true, { s with opened := s.opened ++ [(some sector.toNat, file)] })
  | .close k => do
    let _ ← s.opened[k]?
    return (.nothing, { s with opened := s.opened.eraseIdx k })
  | .seek k position => do
    let (sector, file) ← s.opened[k]?
    return (.nothing, { s with opened := s.opened.set k (sector, file.seek position) })
  | .length k => do
    let (_, file) ← s.opened[k]?
    return (.number file.fileLength.toInt, s)
  | .read k into numBytes => do
    let (sector, file) ← s.opened[k]?
    let (result, into, file) ← file.read s.fs.disk into numBytes.toInt
    return (.moved result (arrived into result), { s with opened := s.opened.set k (sector, file) })
  | .readAt k into numBytes position => do
    let (_, file) ← s.opened[k]?
    let (result, into) ← file.readAt s.fs.disk into numBytes.toInt position.toInt
    return (.moved result (arrived into result), s)
  | .write k source buf numBytes => do
    let (sector, file) ← s.opened[k]?
    let (result, file, disk) ← file.write s.fs.disk source buf numBytes.toInt
    return (.moved result [],
      { fs := { s.fs with disk }, opened := s.opened.set k (sector, file) })
  | .writeAt k source buf numBytes position => do
    let (_, file) ← s.opened[k]?
    let (result, disk) ← file.writeAt s.fs.disk source buf numBytes.toInt position.toInt
    return (.moved result [], { s with fs := { s.fs with disk } })
  | .mount => do
    let fs ← FileSystem.mount s.fs.disk
    return (.nothing, { fs, opened := [] })

/-- The room on a disk, and in a header. -/
def limits : Limits where
  files := NumDirEntries
  space := 1019
  need size := sectorsOfLength size.toNat
  size := MaxFileSize
  reach := 2 ^ 31

/-- The file behind a header is the one in the store. -/
structure Holding (d : Drive) (hdr : FileHeader) (data : Data UInt8) : Prop where
  size : hdr.numBytes.toInt = data.length
  bytes : ∀ k b, data[k]? = some (some b) → byteAt d hdr k = b

variable {d d' : Drive} {hdr : FileHeader} {data : Data UInt8} {file : OpenFile}

namespace Holding

theorem length (h : Holding d hdr data) : hdr.length = data.length := by
  rw [FileHeader.length, h.size, Int.toNat_natCast]

theorem lt (h : Holding d hdr data) {k : ℕ} {o : Option UInt8} (hk : data[k]? = some o) :
    k < hdr.length := h.length ▸ (List.getElem?_eq_some_iff.mp hk).1

theorem congr (h : Holding d hdr data) (hfits : hdr.Fits) (hsame : ∀ n ∈ hdr.sectors, d' n = d n) :
    Holding d' hdr data where
  size := h.size
  bytes k b hk := (byteAt_congr hfits hsame (h.lt hk)).trans (h.bytes k b hk)

/-- A write to the file. -/
theorem written (h : Holding d hdr data) {source : Buffer} {p n : ℕ}
    (hw : Written hdr d d' source p n) : Holding d' hdr (overwrite source p n data) where
  size := by rw [h.size, overwrite, List.length_mapIdx]
  bytes k b hk := by
    rw [overwrite, List.getElem?_mapIdx, Option.map_eq_some_iff] at hk
    obtain ⟨old, hold, hk⟩ := hk
    rw [hw.bytes k (h.lt hold)]
    split at hk
    · next hin =>
      rw [if_pos hin]
      exact Option.some.inj hk
    · next hout =>
      rw [if_neg hout]
      exact h.bytes k b (hk ▸ hold)

/-- What a read brings is what is known. -/
theorem known (h : Holding d hdr data) (into : Buffer) {numBytes position : ℤ}
    (hposition : 0 < (clip data.length numBytes position).toNat → 0 ≤ position) :
    List.Forall₂ Known
      (slice data position.toNat (clip data.length numBytes position).toNat)
      (arrived (fun k => if k < (clip data.length numBytes position).toNat then
        byteAt d hdr (position.toNat + k) else into k) (clip data.length numBytes position)) := by
  have hinside : 0 < (clip data.length numBytes position).toNat →
      position.toNat + (clip data.length numBytes position).toNat ≤ data.length := by
    unfold clip at hposition ⊢
    omega
  have hlength : (slice data position.toNat (clip data.length numBytes position).toNat).length =
      (clip data.length numBytes position).toNat := by
    rw [slice, List.length_take, List.length_drop]
    omega
  refine List.forall₂_iff_get.mpr ⟨?_, fun k hk hk' b hb => ?_⟩
  · rw [hlength, arrived, List.length_map, List.length_range]
  · rw [hlength] at hk
    simp only [arrived, List.get_eq_getElem, List.getElem_map, List.getElem_range, if_pos hk]
    refine h.bytes _ b ?_
    simp only [slice, List.get_eq_getElem, List.getElem_take, List.getElem_drop] at hb
    rw [List.getElem?_eq_getElem (by omega), hb]

end Holding

/-! A transfer that may be asked for -/

section

variable {numBytes position : ℤ}

theorem clip_numBytes (hdr : FileHeader) (numBytes position : ℤ) :
    clip hdr.numBytes.toInt numBytes position = hdr.clipped numBytes position := rfl

/-- Only a request inside the range has something to transfer. -/
theorem asks_cases (h : limits.Asks hdr.numBytes.toInt numBytes position) :
    hdr.clipped numBytes position = 0 ∧ (numBytes ≤ 0 ∨ position ≥ hdr.numBytes.toInt) ∨
      0 ≤ position ∧ position + numBytes < 2 ^ 31 := by
  rcases h with h | h | h
  · refine .inl ⟨?_, .inl h⟩
    unfold FileHeader.clipped
    omega
  · refine .inl ⟨?_, .inr h⟩
    unfold FileHeader.clipped
    omega
  · exact .inr h

theorem nonneg_of_asks (h : limits.Asks hdr.numBytes.toInt numBytes position)
    (hsome : 0 < (hdr.clipped numBytes position).toNat) : 0 ≤ position := by
  rcases asks_cases h with ⟨hzero, -⟩ | ⟨hposition, -⟩
  · rw [hzero] at hsome
    cases hsome
  · exact hposition

theorem readAt_asks (hfits : file.hdr.Fits) (into : Buffer)
    (h : limits.Asks file.hdr.numBytes.toInt numBytes position) :
    file.readAt d into numBytes position = some (file.hdr.clipped numBytes position, fun k =>
      if k < (file.hdr.clipped numBytes position).toNat then
        byteAt d file.hdr (position.toNat + k) else into k) := by
  rcases asks_cases h with ⟨hzero, hwhy⟩ | ⟨hposition, hsum⟩
  · rw [OpenFile.readAt, OpenFile.request, if_pos hwhy, hzero]
    rfl
  · exact OpenFile.readAt_clipped hfits into hposition hsum

theorem writeAt_asks (hfits : file.hdr.Fits) (hnodup : file.hdr.sectors.Nodup)
    (source buf : Buffer) (h : limits.Asks file.hdr.numBytes.toInt numBytes position) :
    ∃ d', file.writeAt d source buf numBytes position =
        some (file.hdr.clipped numBytes position, d') ∧
      Written file.hdr d d' source position.toNat (file.hdr.clipped numBytes position).toNat := by
  rcases asks_cases h with ⟨hzero, hwhy⟩ | ⟨hposition, hsum⟩
  · refine ⟨d, ?_, ?_⟩
    · rw [OpenFile.writeAt, OpenFile.request, if_pos hwhy, hzero]
      rfl
    · rw [hzero]
      exact .refl source _
  · exact OpenFile.writeAt_clipped hfits hnodup source buf hposition hsum

/-- `seekPosition += result`, where the position does not overflow. -/
theorem toInt_moved_asks
    (h : limits.Asks file.hdr.numBytes.toInt numBytes file.seekPosition.toInt) :
    (file.moved (file.hdr.clipped numBytes file.seekPosition.toInt)).seekPosition.toInt =
      file.seekPosition.toInt + file.hdr.clipped numBytes file.seekPosition.toInt := by
  rcases asks_cases h with ⟨hzero, -⟩ | ⟨hposition, hsum⟩
  · rw [hzero, OpenFile.moved_zero, add_zero]
  · have hbounds := file.hdr.clipped_bounds numBytes file.seekPosition.toInt
    have hlt := BitVec.toInt_lt (x := file.seekPosition)
    exact OpenFile.toInt_moved hposition hbounds.1 (by omega)

end

namespace DiskState

variable {s s' : DiskState} {c : FileCall} {answer : Answer UInt8}

/-- The state after a call is that after one of the calls that change it. -/
theorem serve_cases (h : s.serve c = some (answer, s')) :
    (∃ l : DiskCall, l.target = c.target ∧ s.step l = some s') ∨ s' = s ∨
      ∃ k, s' = { s with opened := s.opened.eraseIdx k } := by
  cases c with
  | create name initialSize fresh =>
    simp only [serve, Option.bind_eq_bind, Option.bind_eq_some_iff] at h
    obtain ⟨⟨ok, fs⟩, hcreate, heq⟩ := h
    cases heq
    refine .inl ⟨.create name initialSize fresh, rfl, ?_⟩
    rw [DiskState.step, hcreate]
    rfl
  | remove name fresh =>
    simp only [serve, Option.bind_eq_bind, Option.bind_eq_some_iff] at h
    obtain ⟨directory, hdirectory, ⟨ok, fs⟩, hremove, heq⟩ := h
    cases heq
    refine .inl ⟨.remove name fresh, rfl, ?_⟩
    rw [DiskState.step, hdirectory, Option.bind_eq_bind, Option.bind_some, hremove]
    rfl
  | openFile name fresh =>
    simp only [serve, Option.bind_eq_bind, Option.bind_eq_some_iff] at h
    obtain ⟨found, hopen, heq⟩ := h
    refine .inl ⟨.openFile name fresh, rfl, ?_⟩
    rw [DiskState.step, hopen]
    cases found with
    | none =>
      cases heq
      rfl
    | some found =>
      cases heq
      rfl
  | close k =>
    simp only [serve, Option.bind_eq_bind, Option.bind_eq_some_iff] at h
    obtain ⟨f, -, heq⟩ := h
    cases heq
    exact .inr (.inr ⟨k, rfl⟩)
  | seek k position =>
    simp only [serve, Option.bind_eq_bind, Option.bind_eq_some_iff] at h
    obtain ⟨f, hf, heq⟩ := h
    cases heq
    refine .inl ⟨.seek k position, rfl, ?_⟩
    rw [DiskState.step, hf]
    rfl
  | length k =>
    simp only [serve, Option.bind_eq_bind, Option.bind_eq_some_iff] at h
    obtain ⟨f, -, heq⟩ := h
    cases heq
    exact .inr (.inl rfl)
  | read k into numBytes =>
    simp only [serve, OpenFile.read, Option.bind_eq_bind, Option.bind_eq_some_iff] at h
    obtain ⟨f, hf, ⟨result, into', file⟩, ⟨⟨result', into''⟩, -, hfile⟩, heq⟩ := h
    cases hfile
    cases heq
    -- the position is the only thing that a read changes
    refine .inl ⟨.seek k (f.2.seekPosition + BitVec.ofInt 32 result'), rfl, ?_⟩
    rw [DiskState.step, hf]
    rfl
  | readAt k into numBytes position =>
    simp only [serve, Option.bind_eq_bind, Option.bind_eq_some_iff] at h
    obtain ⟨f, -, ⟨result, into'⟩, -, heq⟩ := h
    cases heq
    exact .inr (.inl rfl)
  | write k source buf numBytes =>
    simp only [serve, Option.bind_eq_bind, Option.bind_eq_some_iff] at h
    obtain ⟨f, hf, ⟨result, file, disk⟩, hwrite, heq⟩ := h
    cases heq
    refine .inl ⟨.write k source buf numBytes, rfl, ?_⟩
    simp only [DiskState.step, hf, Option.bind_eq_bind, Option.bind_some, hwrite]
    rfl
  | writeAt k source buf numBytes position =>
    simp only [serve, Option.bind_eq_bind, Option.bind_eq_some_iff] at h
    obtain ⟨f, hf, ⟨result, disk⟩, hwrite, heq⟩ := h
    cases heq
    refine .inl ⟨.writeAt k source buf numBytes position, rfl, ?_⟩
    simp only [DiskState.step, hf, Option.bind_eq_bind, Option.bind_some, hwrite]
    rfl
  | mount =>
    simp only [serve, Option.bind_eq_bind, Option.bind_eq_some_iff] at h
    obtain ⟨fs, hmount, heq⟩ := h
    cases heq
    refine .inl ⟨.mount, rfl, ?_⟩
    rw [DiskState.step, hmount]
    rfl

/-- The calls that do not write to a file. -/
theorem Inv.serve {d₀ : Drive} (h : s.Inv) (hsized : Sized d₀ s.fs.disk) (hc : c.target = none)
    (hserve : s.serve c = some (answer, s')) : s'.Inv ∧ Sized d₀ s'.fs.disk := by
  rcases serve_cases hserve with ⟨l, hl, hstep⟩ | rfl | ⟨k, rfl⟩
  · have hnamed := DiskCall.writesNamed (hl.trans hc) s
    exact ⟨h.step hnamed hstep, sized_step h hsized hnamed hstep⟩
  · exact ⟨h, hsized⟩
  · exact ⟨⟨h.ok, fun f hf => h.linked f (List.mem_of_mem_eraseIdx hf)⟩, hsized⟩

end DiskState

/-- A file of the store is behind the header in this sector. -/
def Located (d : Drive) (sector : Word) (data : Data UInt8) : Prop :=
  Holding d (headerAt d sector.toNat) data

/-- A handle of the store, and a file that is open. Nothing is said of one that was removed. -/
def Attached (m : NameMap) (handle : Option (List UInt8) × ℤ) (f : Option ℕ × OpenFile) : Prop :=
  ∀ name, handle.1 = some name →
    (∃ sector, (name, sector) ∈ m ∧ f.1 = some sector.toNat) ∧ f.2.seekPosition.toInt = handle.2

/-- The disk has the files of the store, and they are open as the handles say. -/
structure Keeps (d₀ : Drive) (m : NameMap) (store : Store (List UInt8) UInt8) (s : DiskState) :
    Prop where
  inv : s.Inv
  sized : Sized d₀ s.fs.disk
  directory : Directory.Stands m (directoryOf s.fs.disk)
  files : Laid (Located s.fs.disk) m store.files
  handles : List.Forall₂ (Attached m) store.handles s.opened

/-- The entry with a name and a sector. -/
theorem headerSector_of_slot {i : Fin NumDirEntries} {x : List UInt8 × Word}
    (h : ((directoryOf d).table i).slot = some x) :
    headerSector d (.entry i) = some x.2.toNat := by
  rw [DirectoryEntry.slot] at h
  split at h
  · next hin =>
    cases h
    exact headerSector_entry.mpr ⟨hin, rfl⟩
  · cases h

theorem spaceOf_eq (d : Drive) (i : Fin NumDirEntries) :
    spaceOf d i = ((directoryOf d).table i).slot.elim 0 fun x =>
      sectorsOfLength (headerAt d x.2.toNat).length := by
  rw [spaceOf, headerSector, DirectoryEntry.slot]
  split
  · rw [Option.elim_some, Option.elim_some]
  · rw [Option.elim_none, Option.elim_none]

namespace Keeps

variable {d₀ : Drive} {m : NameMap} {store : Store (List UInt8) UInt8} {s : DiskState}
  {name : CString} {x y : List UInt8 × Word} (h : Keeps d₀ m store s)

include h

theorem names_eq : store.names = m.map Prod.fst := h.files.names.symm

theorem mem_names_iff (name : CString) :
    keyOf name ∈ store.names ↔ ((directoryOf s.fs.disk).findIndex name).isSome := by
  rw [h.names_eq]
  exact h.directory.mem_iff name

theorem entry (hx : x ∈ m) : ∃ i, ((directoryOf s.fs.disk).table i).slot = some x ∧
    headerSector s.fs.disk (.entry i) = some x.2.toNat := by
  obtain ⟨i, hi⟩ := Slots.mem_contents.mp (h.directory.perm.mem_iff.mpr hx)
  exact ⟨i, hi, headerSector_of_slot hi⟩

/-- The headers of two files are in different sectors. -/
theorem sector_inj (hx : x ∈ m) (hy : y ∈ m) (heq : x.2.toNat = y.2.toNat) : x = y := by
  obtain ⟨i, hi, hsector⟩ := h.entry hx
  obtain ⟨j, hj, hsector'⟩ := h.entry hy
  by_cases hij : i = j
  · subst hij
    exact Option.some.inj (hi.symm.trans hj)
  · have hne : Holder.entry i ≠ .entry j := fun heq => hij (Holder.entry.inj heq)
    have hmem := headerSector_mem hsector'
    rw [← heq] at hmem
    exact absurd hmem (h.inv.ok.disk.owned.disjoint _ _ hne _ (headerSector_mem hsector))

theorem lt (hx : x ∈ m) : x.2.toNat < 1024 := by
  obtain ⟨i, -, hsector⟩ := h.entry hx
  exact h.inv.ok.disk.lt (headerSector_mem hsector)

theorem find_eq {w : Word} (hx : (keyOf name, w) ∈ m) :
    (directoryOf s.fs.disk).find name = w.toNat := by
  have hlt : w.toNat < 1024 := h.lt hx
  have hlookup : m.lookup (keyOf name) = some w :=
    (NameMap.lookup_eq_some_iff h.directory.names).mpr hx
  rw [h.directory.find_eq name, hlookup, Option.elim_some]
  exact BitVec.toInt_eq_toNat_of_lt (by omega)

theorem exists_place (hname : keyOf name ∈ store.names) : ∃ w, (keyOf name, w) ∈ m := by
  rw [h.names_eq] at hname
  obtain ⟨x, hx, heq⟩ := List.mem_map.mp hname
  exact ⟨x.2, heq ▸ hx⟩

/-- The files take the space that the store says. -/
theorem used_eq : store.used limits = spaceUsed s.fs.disk := by
  have hfiles := h.files.sum_eq (f := fun w => sectorsOfLength (headerAt s.fs.disk w.toNat).length)
    (g := fun data => limits.need data.length) fun w data hw => by
      rw [Holding.length hw]
      rfl
  have hperm := h.directory.perm.map fun x =>
    sectorsOfLength (headerAt s.fs.disk x.2.toNat).length
  rw [Store.used, ← hfiles, ← hperm.sum_eq, Directory.contents, Slots.sum_contents, spaceUsed]
  exact Finset.sum_congr rfl fun i _ => (spaceOf_eq s.fs.disk i).symm

theorem full_iff (hroom : (freeMapOf s.fs.disk).clearList.length + spaceUsed s.fs.disk = 1019)
    (initialSize : Word) : keyOf name ∈ store.names ∨ store.Full limits initialSize.toInt ↔
      FileSystem.Refused s.fs.disk name initialSize := by
  have hnames : keyOf name ∈ store.names ↔ ¬ (directoryOf s.fs.disk).find name = -1 := by
    rw [h.mem_names_iff, FileSystem.find_eq_neg_one_iff h.inv.ok.disk, Option.isSome_iff_ne_none]
  have hentries : store.files.length = limits.files ↔
      ¬ ∃ i, ((directoryOf s.fs.disk).table i).inUse = false := by
    rw [← List.Forall₂.length_eq h.files, limits, h.directory.full_iff]
    simp
  rw [FileSystem.refused_iff hroom, FileSystem.HasRoom, not_and_or, not_and_or, ← hnames,
    ← hentries, not_le, Store.Full, h.used_eq]
  rfl

/-- The other files keep their bytes when the sectors of their entries do. -/
theorem located {data : Data UInt8} (hdata : Located s.fs.disk x.2 data)
    {i : Fin NumDirEntries} (hi : ((directoryOf s.fs.disk).table i).slot = some x)
    (hsame : ∀ n ∈ parts s.fs.disk (.entry i), d' n = s.fs.disk n) : Located d' x.2 data := by
  have hsector := headerSector_of_slot hi
  have hheader : headerAt d' x.2.toNat = headerAt s.fs.disk x.2.toNat :=
    congrArg FileHeader.ofSector (hsame _ (headerSector_mem hsector))
  rw [Located, hheader]
  refine Holding.congr hdata (h.inv.ok.disk.fits _ _ hsector) fun n hn => hsame n ?_
  rw [parts_of_headerSector hsector]
  exact List.mem_cons_of_mem _ hn

end Keeps

/-- A directory with one more entry in use. -/
theorem Directory.Stands.fill {m : NameMap} {directory directory' : Directory NumDirEntries}
    (h : Directory.Stands m directory) {i : Fin NumDirEntries} {x : List UInt8 × Word}
    (hnew : x.1 ∉ m.map Prod.fst) (hunused : (directory.table i).inUse = false)
    (hx : (directory'.table i).slot = some x)
    (hother : ∀ j, j ≠ i → directory'.table j = directory.table j) :
    Directory.Stands (x :: m) directory' where
  names := List.nodup_cons.mpr ⟨hnew, h.names⟩
  perm := by
    refine (Slots.contents_fill (i := i) (x := x) ?_ hx fun j hj => ?_).trans (h.perm.cons x)
    · rw [DirectoryEntry.slot, hunused]
      rfl
    · rw [hother j hj]

/-- A directory with one entry less in use. -/
theorem Directory.Stands.empty {m : NameMap} {directory directory' : Directory NumDirEntries}
    (h : Directory.Stands m directory) {i : Fin NumDirEntries} {x : List UInt8 × Word}
    (hx : (directory.table i).slot = some x) (hunused : (directory'.table i).inUse = false)
    (hother : ∀ j, j ≠ i → directory'.table j = directory.table j) :
    Directory.Stands (m.filter fun y => y.1 ≠ x.1) directory' where
  names := h.names.sublist (List.filter_sublist.map Prod.fst)
  perm := by
    have hfill : directory.contents.Perm (x :: directory'.contents) := by
      refine Slots.contents_fill (i := i) ?_ hx fun j hj => ?_
      · rw [DirectoryEntry.slot, hunused]
        rfl
      · rw [hother j hj]
    have hperm := hfill.symm.trans h.perm
    have hnames := (List.nodup_cons.mp ((hperm.map Prod.fst).nodup_iff.mpr h.names)).1
    have hfilter := hperm.filter fun y => y.1 ≠ x.1
    rw [List.filter_cons_of_neg (by simp), List.filter_eq_self.mpr fun y hy => ?_] at hfilter
    · exact hfilter
    · exact decide_eq_true fun heq => hnames (heq ▸ List.mem_map_of_mem hy)

end Nachos.Filesys

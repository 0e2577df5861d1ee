import Nachos.Filesys.StoredFiles

/-! Every call of the file system does on the disk what it does in a store of named files. -/
namespace Nachos.Filesys

open FileStore

/-- A call that the store allows has an answer that agrees, and the disk keeps the new store. -/
def Served (d₀ : Drive) (s : DiskState) (c : FileCall)
    (r : Answer (Option UInt8) × Store (List UInt8) UInt8) : Prop :=
  ∃ answer s' m, s.serve c = some (answer, s') ∧ r.1.Agrees answer ∧ Keeps d₀ m r.2 s'

variable {d' : Drive} {fs₀ : FileSystem} {m : NameMap} {store : Store (List UInt8) UInt8}
  {s : DiskState} {r : Answer (Option UInt8) × Store (List UInt8) UInt8}

namespace FileSystem

variable {fs : FileSystem} {name : CString} {fresh : Fresh} (h : fs.Ok)

include h

theorem openFile_found {n : ℕ} (hfind : (directoryOf fs.disk).find name = n)
    (hn : n < NumSectors) :
    fs.openFile name fresh = some (some ((n : ℤ), ⟨headerAt fs.disk n, 0⟩)) := by
  rw [openFile, h.fetchFrom, Option.bind_eq_bind, Option.bind_some, hfind,
    if_pos (Int.natCast_nonneg n), OpenFile.new_of_lt hn]
  rfl

theorem openFile_none (hfind : (directoryOf fs.disk).find name = -1) :
    fs.openFile name fresh = some none := by
  rw [openFile, h.fetchFrom, Option.bind_eq_bind, Option.bind_some, hfind, if_neg (by decide)]
  rfl

end FileSystem

namespace Keeps

variable (h : Keeps fs₀.disk m store s)

include h

/-- The names and the handles of the store, with a file more. -/
theorem grown {name : CString} {initialSize : Word} {fresh : Fresh} {i : Fin NumDirEntries}
    {sector : ℕ} {directory : Directory NumDirEntries} {freeMap : Bitmap NumSectors}
    (hadds : s.fs.create name fresh initialSize = some (true, { s.fs with disk := d' }))
    (hcreated : Created s.fs.disk d' name initialSize i sector directory freeMap)
    (hname : keyOf name ∉ store.names) (hsize : 0 ≤ initialSize.toInt) :
    ∃ m, Keeps fs₀.disk m (store.add (keyOf name) hname
      (List.replicate initialSize.toInt.toNat none)) { s with fs := { s.fs with disk := d' } } := by
  have hserve : s.serve (.create name initialSize fresh) =
      some (.done true, { s with fs := { s.fs with disk := d' } }) := by
    rw [DiskState.serve, hadds]
    rfl
  obtain ⟨hinv, hsized⟩ := h.inv.serve h.sized rfl hserve
  have hdirectory := hcreated.rewritten.directoryOf_eq h.inv.ok.disk
  have hslot : (directory.table i).slot = some (keyOf name, (directory.table i).sector) :=
    Directory.slot_of_findIndex hcreated.found
  have hsector := hcreated.used.2
  refine ⟨(keyOf name, (directory.table i).sector) :: m, hinv, hsized, ?_, .cons ⟨rfl, ?_⟩ ?_, ?_⟩
  · show Directory.Stands _ (directoryOf d')
    rw [hdirectory]
    exact h.directory.fill (h.names_eq ▸ hname) hcreated.unused hslot hcreated.other
  · show Holding d' (headerAt d' (directory.table i).sector.toNat) _
    rw [hsector]
    refine ⟨?_, fun k b hk => ?_⟩
    · rw [hcreated.numBytes, List.length_replicate, Int.toNat_of_nonneg hsize]
    · rw [List.getElem?_replicate] at hk
      split at hk <;> cases hk
  · refine h.files.mono fun x hx data hdata => ?_
    obtain ⟨j, hj, -⟩ := h.entry hx
    exact h.located hdata hj fun n hn => hcreated.rewritten.entry_same h.inv.ok.disk hn
  · refine h.handles.imp fun handle f hattached name hhandle => ?_
    obtain ⟨⟨w, hw, hf⟩, hposition⟩ := hattached name hhandle
    exact ⟨⟨w, List.mem_cons_of_mem _ hw, hf⟩, hposition⟩

theorem create (hformatted : fs₀.Formatted) {name : CString} {initialSize : Word} {fresh : Fresh}
    (hstep : step limits store (FileCall.op (.create name initialSize fresh)) = some r) :
    Served fs₀.disk s (.create name initialSize fresh) r := by
  have hfull : _ ↔ FileSystem.Refused s.fs.disk name initialSize :=
    h.full_iff (hformatted.space h.sized h.inv.ok.disk) initialSize
  rw [FileCall.op, step] at hstep
  split at hstep
  · next hrefused =>
    cases hstep
    refine ⟨.done false, s, m, ?_, .done false, h⟩
    rw [DiskState.serve, FileSystem.create_refused h.inv.ok (hfull.mp hrefused)]
    rfl
  · next hgoes =>
    split at hstep
    · next hsize =>
      cases hstep
      obtain ⟨d', i, sector, directory, freeMap, hadds, hcreated⟩ :=
        FileSystem.create_adds fresh h.inv.ok (fun hrefused => hgoes (hfull.mpr hrefused)) hsize.2
      obtain ⟨m', hkeeps⟩ := h.grown hadds hcreated (fun hname => hgoes (.inl hname)) hsize.1
      refine ⟨.done true, _, m', ?_, .done true, hkeeps⟩
      rw [DiskState.serve, hadds]
      rfl
    · cases hstep

/-- The handles on a file are the ones with the sector that its name leads to. -/
theorem handles_forget {name : CString} (hname : keyOf name ∈ store.names) :
    List.Forall₂ (Attached (m.filter fun x => x.1 ≠ keyOf name)) (store.drop (keyOf name)).handles
      (s.opened.map (DiskState.forget ((directoryOf s.fs.disk).find name))) := by
  obtain ⟨w, hw⟩ := h.exists_place hname
  refine List.forall₂_map_left_iff.mpr (List.forall₂_map_right_iff.mpr ?_)
  refine h.handles.imp fun handle f hattached key hkey => ?_
  split at hkey
  · cases hkey
  · next hne =>
    obtain ⟨⟨w', hw', hf⟩, hposition⟩ := hattached key hkey
    have hother : key ≠ keyOf name := fun heq => hne (heq ▸ hkey)
    rw [if_neg hne, DiskState.forget_of_ne]
    · exact ⟨⟨w', List.mem_filter.mpr ⟨hw', decide_eq_true hother⟩, hf⟩, hposition⟩
    · rw [h.find_eq hw, hf]
      intro hsector
      have hsame : w'.toNat = w.toNat := Int.ofNat_inj.mp (Option.some.inj hsector)
      exact hother (congrArg Prod.fst (h.sector_inj hw' hw hsame))

theorem remove {name : CString} {fresh : Fresh}
    (hstep : step limits store (FileCall.op (.remove name fresh)) = some r) :
    Served fs₀.disk s (.remove name fresh) r := by
  have hname := h.mem_names_iff name
  rw [FileCall.op, step] at hstep
  rcases FileSystem.remove_cases fresh h.inv.ok with
    ⟨hfind, hfalse⟩ | ⟨d', i, directory, freeMap, hfind, htrue, hremoved⟩
  · rw [hfind] at hname
    rw [if_neg (by rw [hname]; simp)] at hstep
    cases hstep
    refine ⟨.done false, s, m, ?_, .done false, h⟩
    rw [DiskState.serve, h.inv.ok.fetchFrom, Option.bind_eq_bind, Option.bind_some, hfalse,
      Option.bind_eq_bind, Option.bind_some,
      (FileSystem.find_eq_neg_one_iff h.inv.ok.disk).mpr hfind, DiskState.map_forget_neg_one]
    rfl
  · rw [hfind] at hname
    have hin := hname.mpr rfl
    rw [if_pos hin] at hstep
    cases hstep
    have hserve : s.serve (.remove name fresh) = some (.done true,
        ⟨{ s.fs with disk := d' },
          s.opened.map (DiskState.forget ((directoryOf s.fs.disk).find name))⟩) := by
      rw [DiskState.serve, h.inv.ok.fetchFrom, Option.bind_eq_bind, Option.bind_some, htrue]
      rfl
    obtain ⟨hinv, hsized⟩ := h.inv.serve h.sized rfl hserve
    refine ⟨.done true, _, m.filter fun x => x.1 ≠ keyOf name, hserve, .done true,
      hinv, hsized, ?_, ?_, h.handles_forget hin⟩
    · show Directory.Stands _ (directoryOf d')
      rw [hremoved.rewritten.directoryOf_eq h.inv.ok.disk]
      exact h.directory.empty (Directory.slot_of_findIndex hfind) hremoved.unused hremoved.other
    · refine (h.files.filter (keyOf name)).mono fun x hx data hdata => ?_
      obtain ⟨j, hj, -⟩ := h.entry (List.mem_of_mem_filter hx)
      exact h.located hdata hj fun n hn => hremoved.rewritten.entry_same h.inv.ok.disk hn

theorem openFile {name : CString} {fresh : Fresh}
    (hstep : step limits store (FileCall.op (.openFile name fresh)) = some r) :
    Served fs₀.disk s (.openFile name fresh) r := by
  have hfind : (directoryOf s.fs.disk).find name = -1 ↔ _ :=
    FileSystem.find_eq_neg_one_iff h.inv.ok.disk
  rw [FileCall.op, step] at hstep
  split at hstep
  · next hname =>
    cases hstep
    obtain ⟨w, hw⟩ := h.exists_place hname
    have hlt : w.toNat < NumSectors := h.lt hw
    have hserve : s.serve (.openFile name fresh) = some (.done true,
        { s with opened := s.opened ++ [(some w.toNat, ⟨headerAt s.fs.disk w.toNat, 0⟩)] }) := by
      rw [DiskState.serve, FileSystem.openFile_found h.inv.ok (h.find_eq hw) hlt]
      rfl
    obtain ⟨hinv, hsized⟩ := h.inv.serve h.sized rfl hserve
    refine ⟨.done true, _, m, hserve, .done true, hinv, hsized, h.directory, h.files, ?_⟩
    refine List.rel_append h.handles (.cons ?_ .nil)
    rintro _ ⟨⟩
    exact ⟨⟨w, hw, rfl⟩, rfl⟩
  · next hname =>
    cases hstep
    refine ⟨.done false, s, m, ?_, .done false, h⟩
    have hnone : (directoryOf s.fs.disk).find name = -1 := by
      rw [hfind]
      rw [h.mem_names_iff] at hname
      simpa using hname
    rw [DiskState.serve, FileSystem.openFile_none h.inv.ok hnone]
    rfl

theorem mount (hstep : step limits store (FileCall.op .mount) = some r) :
    Served fs₀.disk s .mount r := by
  cases hstep
  have hmount : FileSystem.mount s.fs.disk = some ⟨s.fs.disk, ⟨headerAt s.fs.disk FreeMapSector, 0⟩,
      ⟨headerAt s.fs.disk DirectorySector, 0⟩⟩ := by
    rw [FileSystem.mount, OpenFile.new_of_lt (show FreeMapSector < NumSectors by decide),
      OpenFile.new_of_lt (show DirectorySector < NumSectors by decide)]
    rfl
  have hserve : s.serve .mount = some (.nothing, ⟨⟨s.fs.disk, ⟨headerAt s.fs.disk FreeMapSector, 0⟩,
      ⟨headerAt s.fs.disk DirectorySector, 0⟩⟩, []⟩) := by
    rw [DiskState.serve, hmount]
    rfl
  obtain ⟨hinv, hsized⟩ := h.inv.serve h.sized rfl hserve
  exact ⟨.nothing, _, m, hserve, .nothing, hinv, hsized, h.directory, h.files, .nil⟩

end Keeps

/-- An open file, with its header in sector `n`, behind a handle of the store. -/
structure Handled (d : Drive) (m : NameMap) (name : List UInt8) (position : ℤ) (data : Data UInt8)
    (n : ℕ) (file : OpenFile) : Prop where
  place : ∃ w, (name, w) ∈ m ∧ w.toNat = n
  position : file.seekPosition.toInt = position
  header : file.hdr = headerAt d n
  holding : Holding d file.hdr data
  fits : file.hdr.Fits
  nodup : file.hdr.sectors.Nodup

theorem DiskOk.directoryOf_written {d d' : Drive} {i : Fin NumDirEntries} {n : ℕ} (hd : DiskOk d)
    (hn : headerSector d (.entry i) = some n) (hsame : ∀ k ∉ (headerAt d n).sectors, d' k = d k) :
    directoryOf d' = directoryOf d := by
  have hheader : headerAt d' DirectorySector = headerAt d DirectorySector :=
    (hd.dataOnly hn hsame).headerAt .directory _ rfl
  rw [directoryOf, hheader]
  refine directoryIn_congr (hd.fits .directory _ rfl) hd.directorySize fun k hk => hsame k ?_
  refine hd.data_not_mem_sectors (show Holder.directory ≠ .entry i by simp) ?_ hn
  rw [parts_of_headerSector headerSector_directory]
  exact List.mem_cons_of_mem _ hk

namespace Keeps

variable {k n : ℕ} {name : List UInt8} {position : ℤ} {data : Data UInt8} {file : OpenFile}
  (h : Keeps fs₀.disk m store s)

include h

theorem opened (hk : store.opened k = some (name, position, data)) :
    store.handles[k]? = some (some name, position) ∧
      ∃ n file, s.opened[k]? = some (some n, file) ∧
        Handled s.fs.disk m name position data n file := by
  simp only [Store.opened, Option.bind_eq_bind, Option.bind_eq_some_iff] at hk
  obtain ⟨⟨_, _⟩, hhandle, _, rfl, data₁, hdata, heq⟩ := hk
  cases heq
  refine ⟨hhandle, ?_⟩
  obtain ⟨⟨_, file⟩, hf, hattached⟩ := forall₂_getElem? h.handles hhandle
  obtain ⟨⟨w, hw, rfl⟩, hposition⟩ := hattached name rfl
  obtain ⟨data₂, hdata₂, hlocated⟩ := h.files.data_eq hw
  obtain rfl : data₂ = data := Option.some.inj (hdata₂.symm.trans hdata)
  obtain ⟨i, -, hheader, hfits, hnodup⟩ := h.inv.openHeader (List.mem_of_getElem? hf) rfl
  refine ⟨w.toNat, file, hf, ⟨w, hw, rfl⟩, hposition, hheader, ?_, hfits, hnodup⟩
  rw [hheader]
  exact hlocated

/-- The position of an open file. -/
theorem moved (hf : s.opened[k]? = some (some n, file)) (hplace : ∃ w, (name, w) ∈ m ∧ w.toNat = n)
    (hhandle : store.handles[k]? = some (some name, position)) (w : Word) :
    Keeps fs₀.disk m (store.move k w.toInt)
      { s with opened := s.opened.set k (some n, file.seek w) } := by
  have hserve : s.serve (.seek k w) =
      some (.nothing, { s with opened := s.opened.set k (some n, file.seek w) }) := by
    rw [DiskState.serve, hf]
    rfl
  obtain ⟨hinv, hsized⟩ := h.inv.serve h.sized rfl hserve
  refine ⟨hinv, hsized, h.directory, h.files, forall₂_modify h.handles fun handle hk => ?_⟩
  rw [hhandle] at hk
  cases hk
  rintro _ ⟨⟩
  obtain ⟨w', hw', rfl⟩ := hplace
  exact ⟨⟨w', hw', rfl⟩, rfl⟩

/-- The bytes of an open file. -/
theorem written (hf : s.opened[k]? = some (some n, file))
    (hfile : Handled s.fs.disk m name position data n file)
    {source buf : Buffer} {numBytes offset r : ℤ} {p q : ℕ}
    (hwrite : file.writeAt s.fs.disk source buf numBytes offset = some (r, d'))
    (hw : Written file.hdr s.fs.disk d' source p q) :
    Keeps fs₀.disk m (store.put name (overwrite source p q))
      { s with fs := { s.fs with disk := d' } } := by
  have hmem := List.mem_of_getElem? hf
  obtain ⟨w, hw', hsector⟩ := hfile.place
  obtain ⟨i, hi, hentry⟩ := h.entry hw'
  have hentry : headerSector s.fs.disk (.entry i) = some n := hentry.trans (congrArg some hsector)
  have houtside : ∀ j ∉ (headerAt s.fs.disk n).sectors, d' j = s.fs.disk j :=
    hfile.header ▸ hw.outside
  have hdata := h.inv.ok.disk.dataOnly hentry houtside
  refine ⟨h.inv.written hmem (Option.some_ne_none n) hwrite, h.sized.written hdata, ?_, ?_,
    h.handles⟩
  · show Directory.Stands m (directoryOf d')
    rw [h.inv.ok.disk.directoryOf_written hentry houtside]
    exact h.directory
  refine h.files.change (fun x hx hname data' hlocated => ?_) fun x hx hname data' hlocated => ?_
  · -- the file that is written
    have hpair : x = (name, w) := List.inj_on_of_nodup_map h.directory.names hx hw' hname
    subst hpair
    have hheader : headerAt d' w.toNat = file.hdr := by
      rw [hsector, hfile.header]
      exact hdata.headerAt _ _ hentry
    rw [Located, hheader]
    rw [Located, hsector, ← hfile.header] at hlocated
    exact hlocated.written hw
  · obtain ⟨j, hj, -⟩ := h.entry hx
    refine h.located hlocated hj fun n' hn' => houtside n' ?_
    refine h.inv.ok.disk.data_not_mem_sectors (fun heq => hname ?_) hn' hentry
    obtain rfl := Holder.entry.inj heq
    exact congrArg Prod.fst (Option.some.inj (hj.symm.trans hi))

theorem close (hstep : step limits store (FileCall.op (.close k)) = some r) :
    Served fs₀.disk s (.close k) r := by
  rw [FileCall.op, step, Option.map_eq_some_iff] at hstep
  obtain ⟨handle, hk, rfl⟩ := hstep
  obtain ⟨f, hf, -⟩ := forall₂_getElem? h.handles hk
  have hserve : s.serve (.close k) = some (.nothing, { s with opened := s.opened.eraseIdx k }) := by
    rw [DiskState.serve, hf]
    rfl
  obtain ⟨hinv, hsized⟩ := h.inv.serve h.sized rfl hserve
  exact ⟨_, _, m, hserve, .nothing, hinv, hsized, h.directory, h.files, forall₂_eraseIdx h.handles⟩

theorem seek {w : Word} (hstep : step limits store (FileCall.op (.seek k w)) = some r) :
    Served fs₀.disk s (.seek k w) r := by
  rw [FileCall.op, step, Option.map_eq_some_iff] at hstep
  obtain ⟨⟨name, position, data⟩, hk, rfl⟩ := hstep
  obtain ⟨hhandle, n, file, hf, hfile⟩ := h.opened hk
  refine ⟨_, _, m, ?_, .nothing, h.moved hf hfile.place hhandle w⟩
  rw [DiskState.serve, hf]
  rfl

theorem length (hstep : step limits store (FileCall.op (.length k)) = some r) :
    Served fs₀.disk s (.length k) r := by
  rw [FileCall.op, step, Option.map_eq_some_iff] at hstep
  obtain ⟨⟨name, position, data⟩, hk, rfl⟩ := hstep
  obtain ⟨-, n, file, hf, hfile⟩ := h.opened hk
  refine ⟨.number data.length, s, m, ?_, .number _, h⟩
  rw [DiskState.serve, hf, ← hfile.holding.size]
  rfl

theorem readAt {into : Buffer} {numBytes offset : Word}
    (hstep : step limits store (FileCall.op (.readAt k into numBytes offset)) = some r) :
    Served fs₀.disk s (.readAt k into numBytes offset) r := by
  rw [FileCall.op, step, Option.bind_eq_bind, Option.bind_eq_some_iff] at hstep
  obtain ⟨⟨name, position, data⟩, hk, hstep⟩ := hstep
  obtain ⟨-, n, file, hf, hfile⟩ := h.opened hk
  dsimp only at hstep
  split at hstep
  · next hasks =>
    cases hstep
    have hclip := congrArg (clip · numBytes.toInt offset.toInt) hfile.holding.size
    rw [← hfile.holding.size] at hasks
    have hread := readAt_asks (d := s.fs.disk) hfile.fits into hasks
    rw [← clip_numBytes, hclip] at hread
    refine ⟨_, s, m, ?_, .moved _ (hfile.holding.known into fun hsome => ?_), h⟩
    · simp only [DiskState.serve, hf, Option.bind_eq_bind, Option.bind_some, hread]
      rfl
    · rw [← hclip] at hsome
      exact nonneg_of_asks hasks hsome
  · cases hstep

theorem read {into : Buffer} {numBytes : Word}
    (hstep : step limits store (FileCall.op (.read k into numBytes)) = some r) :
    Served fs₀.disk s (.read k into numBytes) r := by
  rw [FileCall.op, step, Option.bind_eq_bind, Option.bind_eq_some_iff] at hstep
  obtain ⟨⟨name, position, data⟩, hk, hstep⟩ := hstep
  obtain ⟨hhandle, n, file, hf, hfile⟩ := h.opened hk
  obtain rfl := hfile.position
  dsimp only at hstep
  split at hstep
  · next hasks =>
    cases hstep
    have hclip := congrArg (clip · numBytes.toInt file.seekPosition.toInt) hfile.holding.size
    rw [← hfile.holding.size] at hasks
    have hread := readAt_asks (d := s.fs.disk) hfile.fits into hasks
    have hmoved := toInt_moved_asks hasks
    have hkeeps := h.moved hf hfile.place hhandle
      (file.moved (file.hdr.clipped numBytes.toInt file.seekPosition.toInt)).seekPosition
    rw [hmoved, ← clip_numBytes, hclip] at hkeeps
    rw [← clip_numBytes, hclip] at hread
    refine ⟨_, _, m, ?_, .moved _ (hfile.holding.known into fun hsome => ?_), hkeeps⟩
    · simp only [DiskState.serve, OpenFile.read, hf, Option.bind_eq_bind, Option.bind_some, hread]
      rfl
    · rw [← hclip] at hsome
      exact nonneg_of_asks hasks hsome
  · cases hstep

theorem writeAt {source buf : Buffer} {numBytes offset : Word}
    (hstep : step limits store (FileCall.op (.writeAt k source buf numBytes offset)) = some r) :
    Served fs₀.disk s (.writeAt k source buf numBytes offset) r := by
  rw [FileCall.op, step, Option.bind_eq_bind, Option.bind_eq_some_iff] at hstep
  obtain ⟨⟨name, position, data⟩, hk, hstep⟩ := hstep
  obtain ⟨-, n, file, hf, hfile⟩ := h.opened hk
  dsimp only at hstep
  split at hstep
  · next hasks =>
    cases hstep
    have hclip := congrArg (clip · numBytes.toInt offset.toInt) hfile.holding.size
    rw [← hfile.holding.size] at hasks
    obtain ⟨d', hd', hw⟩ := writeAt_asks (d := s.fs.disk) hfile.fits hfile.nodup source buf hasks
    have hkeeps := h.written hf hfile hd' hw
    rw [← clip_numBytes, hclip] at hkeeps hd'
    refine ⟨_, _, m, ?_, .moved _ .nil, hkeeps⟩
    simp only [DiskState.serve, hf, Option.bind_eq_bind, Option.bind_some, hd']
    rfl
  · cases hstep

theorem write {source buf : Buffer} {numBytes : Word}
    (hstep : step limits store (FileCall.op (.write k source buf numBytes)) = some r) :
    Served fs₀.disk s (.write k source buf numBytes) r := by
  rw [FileCall.op, step, Option.bind_eq_bind, Option.bind_eq_some_iff] at hstep
  obtain ⟨⟨name, position, data⟩, hk, hstep⟩ := hstep
  obtain ⟨hhandle, n, file, hf, hfile⟩ := h.opened hk
  obtain rfl := hfile.position
  dsimp only at hstep
  split at hstep
  · next hasks =>
    cases hstep
    have hclip := congrArg (clip · numBytes.toInt file.seekPosition.toInt) hfile.holding.size
    rw [← hfile.holding.size] at hasks
    obtain ⟨d', hd', hw⟩ := writeAt_asks (d := s.fs.disk) hfile.fits hfile.nodup source buf hasks
    have hkeeps := (h.written hf hfile hd' hw).moved hf hfile.place hhandle
      (file.moved (file.hdr.clipped numBytes.toInt file.seekPosition.toInt)).seekPosition
    rw [toInt_moved_asks hasks, ← clip_numBytes, hclip] at hkeeps
    rw [← clip_numBytes, hclip] at hd'
    refine ⟨_, _, m, ?_, .moved _ .nil, hkeeps⟩
    simp only [DiskState.serve, OpenFile.write, hf, Option.bind_eq_bind, Option.bind_some, hd']
    rfl
  · cases hstep

theorem serve (hformatted : fs₀.Formatted) {c : FileCall}
    (hstep : step limits store c.op = some r) : Served fs₀.disk s c r := by
  cases c with
  | create name initialSize fresh => exact h.create hformatted hstep
  | remove name fresh => exact h.remove hstep
  | openFile name fresh => exact h.openFile hstep
  | close k => exact h.close hstep
  | seek k position => exact h.seek hstep
  | length k => exact h.length hstep
  | read k into numBytes => exact h.read hstep
  | readAt k into numBytes position => exact h.readAt hstep
  | write k source buf numBytes => exact h.write hstep
  | writeAt k source buf numBytes position => exact h.writeAt hstep
  | mount => exact h.mount hstep

end Keeps

section

variable {disk : Drive} {fresh : Fresh} {fs : FileSystem}

theorem FileSystem.Formatted.keeps (h : fs.Formatted) :
    Keeps fs.disk [] Store.empty ⟨fs, []⟩ where
  inv := ⟨h.ok, fun f hf => by cases hf⟩
  sized := h.sized
  directory := by
    refine ⟨List.nodup_nil, List.perm_nil.mpr (List.eq_nil_iff_forall_not_mem.mpr fun x hx => ?_)⟩
    obtain ⟨i, hi⟩ := Slots.mem_contents.mp hx
    rw [DirectoryEntry.slot, h.unused] at hi
    cases hi
  files := .nil
  handles := .nil

/-- The file system on a formatted disk answers every history of calls as the store of named files
does, whatever memory holds and whenever Nachos starts again. -/
theorem refines_fileStore (hformat : FileSystem.format disk fresh = some fs)
    {calls : List FileCall} {answers : List (Answer (Option UInt8))}
    {store : Store (List UInt8) UInt8}
    (hrun : Simulation.run (fun store c => step limits store (FileCall.op c)) Store.empty calls =
      some (answers, store)) :
    ∃ answers' s, Simulation.run DiskState.serve ⟨fs, []⟩ calls = some (answers', s) ∧
      List.Forall₂ Answer.Agrees answers answers' ∧ ∃ m, Keeps fs.disk m store s := by
  obtain ⟨fs₀, hfs₀, hformatted⟩ := FileSystem.format_eq disk fresh
  obtain rfl : fs₀ = fs := Option.some.inj (hfs₀.symm.trans hformat)
  have hsim : Simulation.SimulatesUpTo Answer.Agrees
      (fun store c => step limits store (FileCall.op c)) DiskState.serve
      fun store s => ∃ m, Keeps fs₀.disk m store s := by
    rintro store s c answer store' ⟨m, h⟩ hstep
    obtain ⟨answer', s', m', hserve, hagrees, hkeeps⟩ := h.serve hformatted hstep
    exact ⟨answer', s', hserve, hagrees, m', hkeeps⟩
  exact hsim.run ⟨[], hformatted.keeps⟩ hrun

end

namespace BlankDisk

/-- A file is written, and read again after Nachos has been started again. -/
def calls : List FileCall :=
  [.create name 5 fresh, .openFile name fresh, .writeAt 0 (fun _ => 7) (fun _ => 0) 2 1, .mount,
    .openFile name fresh, .readAt 0 (fun _ => 0) 3 0, .length 0]

def answers : List (Answer (Option UInt8)) :=
  [.done true, .done true, .moved 2 [], .nothing, .done true, .moved 3 [none, some 7, some 7],
    .number 5]

end BlankDisk

open BlankDisk in
theorem refines_fileStore_calls : ∃ fs, FileSystem.format disk fresh = some fs ∧
    ∃ answers' s, Simulation.run DiskState.serve ⟨fs, []⟩ calls = some (answers', s) ∧
      List.Forall₂ Answer.Agrees answers answers' ∧ ∃ m store, Keeps fs.disk m store s := by
  obtain ⟨fs, hfs, -⟩ := FileSystem.format_eq disk fresh
  have hrun : ∃ store, Simulation.run (fun store c => step limits store (FileCall.op c)) Store.empty
      calls = some (answers, store) := ⟨_, rfl⟩
  obtain ⟨store, hrun⟩ := hrun
  obtain ⟨answers', s, hserve, hagree, m, hkeeps⟩ := refines_fileStore hfs hrun
  exact ⟨fs, hfs, answers', s, hserve, hagree, m, store, hkeeps⟩

end Nachos.Filesys

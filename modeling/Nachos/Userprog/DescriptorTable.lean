import Nachos.Library.Runs
import Nachos.Userprog.Interruptible

/-! The table of open files over whole runs of system calls, made by any processes. Only
`Open`, `Close` and `SocketTCP` change which files are in it; a call that waits for the
console has done with the table before it waits, so that calls count as one step each. -/
namespace Nachos

/-- An open file apart from its position. -/
def OpenFile.identity (f : OpenFile) : OpenFile := { f with currentOffset := 0 }

/-- The table apart from the positions in its files. -/
def FileSystem.view (fs : FileSystem) : FileSystem :=
  { fs with openf := fun i => (fs.openf i).map OpenFile.identity }

variable {W : Type}

namespace FileSystem

theorem exists_index {id : ℤ} (h : 0 ≤ id ∧ id < 20) : ∃ i : Fin 20, id = (i : ℕ) :=
  ⟨⟨id.toNat, toNat_lt_twenty h⟩, (Int.toNat_of_nonneg h.1).symm⟩

theorem entry_natCast (fs : FileSystem) (i : Fin 20) : fs.entry (i : ℕ) = fs.openf i := by
  unfold entry
  rw [dif_pos (by omega)]
  rfl

theorem setEntry_natCast (fs : FileSystem) (i : Fin 20) (file : Option OpenFile) :
    fs.setEntry (i : ℕ) file = { fs with openf := Function.update fs.openf i file } := by
  unfold setEntry
  rw [dif_pos (by omega)]
  rfl

theorem setName_natCast (fs : FileSystem) (i : Fin 20) (name : Option CString) :
    fs.setName (i : ℕ) name =
      { fs with tableDescriptor := Function.update fs.tableDescriptor i name } := by
  unfold setName
  rw [dif_pos (by omega)]
  rfl

/-- The search for an empty entry. -/
theorem freeEntry_cases (fs : FileSystem) (first : ℕ) :
    fs.freeEntry first = -1 ∧ (∀ i : Fin 20, first ≤ i → fs.openf i ≠ none) ∨
      ∃ i : Fin 20, fs.freeEntry first = (i : ℕ) ∧ first ≤ i ∧ fs.openf i = none := by
  unfold freeEntry
  cases hfind : (List.finRange 20).find? fun i => first ≤ i.val ∧ (fs.openf i).isNone with
  | none =>
    refine .inl ⟨rfl, ?_⟩
    intro i hi hnone
    have hnot := List.find?_eq_none.mp hfind i (List.mem_finRange i)
    simp [hi, hnone] at hnot
  | some i =>
    have hsome := List.find?_some hfind
    simp only [decide_eq_true_eq, Option.isNone_iff_eq_none] at hsome
    exact .inr ⟨i, rfl, hsome.1, hsome.2⟩

theorem freeEntry_eq_natCast {fs : FileSystem} {first : ℕ} {i : Fin 20}
    (h : fs.freeEntry first = (i : ℕ)) : first ≤ i ∧ fs.openf i = none := by
  rcases fs.freeEntry_cases first with ⟨hnone, -⟩ | ⟨j, hj, hfirst, hempty⟩
  · omega
  · obtain rfl : i = j := by
      apply Fin.ext
      omega
    exact ⟨hfirst, hempty⟩

theorem view_setEntry {fs : FileSystem} {id : ℤ} {f f' : OpenFile} (hf : fs.entry id = some f)
    (h : f.Same f') : (fs.setEntry id (some f')).view = fs.view := by
  obtain ⟨i, rfl⟩ := exists_index (range_of_entry hf)
  rw [entry_natCast] at hf
  rw [setEntry_natCast]
  unfold view
  congr 1
  funext j
  show Option.map _ (Function.update fs.openf i (some f') j) = _
  by_cases hj : j = i
  · subst hj
    rw [Function.update_self, hf, h]
    rfl
  · rw [Function.update_of_ne hj]

/-- Entry `i` is an open file with this type and this descriptor. -/
def Holds (fs : FileSystem) (i : Fin 20) (fdType : ℤ) (fd : Word) : Prop :=
  ∃ f, fs.openf i = some f ∧ f.fdType = fdType ∧ f.file = fd

theorem holds_of_view {fs fs' : FileSystem} (h : fs'.view.openf = fs.view.openf) {i : Fin 20}
    {fdType : ℤ} {fd : Word} (hi : fs'.Holds i fdType fd) : fs.Holds i fdType fd := by
  obtain ⟨f, hf, rfl, rfl⟩ := hi
  have hview : (fs.openf i).map OpenFile.identity = some f.identity :=
    (congrFun h i).symm.trans (congrArg (Option.map OpenFile.identity) hf)
  obtain ⟨f₀, hf₀, heq⟩ := Option.map_eq_some_iff.mp hview
  have htype : f₀.identity.fdType = f.identity.fdType := congrArg OpenFile.fdType heq
  have hfile : f₀.identity.file = f.identity.file := congrArg OpenFile.file heq
  exact ⟨f₀, hf₀, htype, hfile⟩

/-- Which descriptors the entries hold after one of them has changed. -/
theorem holds_update {fs : FileSystem} {i j : Fin 20} {file : Option OpenFile}
    {tableDescriptor : Fin 20 → Option CString} {fdType : ℤ} {fd : Word}
    (h : Holds { fs with
      openf := Function.update fs.openf i file, tableDescriptor := tableDescriptor } j fdType fd) :
    (j = i ∧ ∃ f, file = some f ∧ f.fdType = fdType ∧ f.file = fd) ∨
      j ≠ i ∧ fs.Holds j fdType fd := by
  obtain ⟨f, hf, hrest⟩ := h
  replace hf : Function.update fs.openf i file j = some f := hf
  by_cases hj : j = i
  · subst hj
    rw [Function.update_self] at hf
    exact .inl ⟨rfl, f, hf, hrest⟩
  · rw [Function.update_of_ne hj] at hf
    exact .inr ⟨hj, f, hf, hrest⟩

end FileSystem

section

variable {host : Host W} {k k' : Kernel W}

theorem Kernel.Calm.view (h : k.Calm host k') : k'.fileSystem.view = k.fileSystem.view := by
  induction h with
  | refl => rfl
  | tail _ hstep ih =>
    rw [← ih]
    cases hstep with
    | access ha => rw [ha.fileSystem]
    | ask => rfl
    | file hf hsame => exact FileSystem.view_setEntry hf hsame

theorem Kernel.Calm.answered (h : k.Calm host k') :
    Relation.ReflTransGen host.Answered k.host k'.host := by
  induction h with
  | refl => exact .refl
  | tail _ hstep ih =>
    cases hstep with
    | access ha => rwa [ha.host]
    | ask hask => exact ih.tail hask
    | file => exact ih

end

namespace Sys

open EStateM

variable (host : Host W)

/-- The name that `Open` and `Create` read, if reading it does not end the process. -/
def fileName (k : Kernel W) : Option CString :=
  match nameArgument host k with
  | .ok name _ => some name
  | .error _ _ => none

/-- What `Open` leaves once the name has been read. -/
def afterOpen (k : Kernel W) (name : CString) (permission : ℤ) : Kernel W :=
  let openFileID := k.fileSystem.freeEntry 2
  if openFileID ≠ -1 ∧ (permission = 0 ∨ permission = 1) then
    let (fd, w) := host.openFd k.host name false
    let file := if fd = -1 then none else some (OpenFile.new fd 0 permission)
    { machine := k.machine.finished (BitVec.ofInt 32 openFileID)
      fileSystem := (k.fileSystem.setEntry openFileID file).setName openFileID (some name)
      host := w }
  else { k with machine := k.machine.finished (-1) }

/-- What `SocketTCP` leaves. -/
def afterSocket (k : Kernel W) : Kernel W :=
  let (socketID, w) := host.socket k.host
  let openFileID := k.fileSystem.freeEntry 0
  if socketID = -1 ∨ openFileID = -1 then
    { k with machine := k.machine.finished (-1), host := w }
  else
    { machine := k.machine.finished (BitVec.ofInt 32 openFileID)
      fileSystem := k.fileSystem.setEntry openFileID (some (FileSystem.openSocket socketID))
      host := w }

variable {host} {k : Kernel W}

theorem afterOpen_granted {name : CString} {permission : ℤ} {i : Fin 20}
    (hfree : k.fileSystem.freeEntry 2 = (i : ℕ)) (hpermission : permission = 0 ∨ permission = 1) :
    afterOpen host k name permission = ⟨k.machine.finished (BitVec.ofInt 32 (i : ℕ)),
      { k.fileSystem with
        openf := Function.update k.fileSystem.openf i
          (if (host.openFd k.host name false).1 = -1 then none
            else some (OpenFile.new (host.openFd k.host name false).1 0 permission))
        tableDescriptor := Function.update k.fileSystem.tableDescriptor i (some name) },
      (host.openFd k.host name false).2⟩ := by
  unfold afterOpen
  dsimp only
  rw [hfree, if_pos ⟨by omega, hpermission⟩, FileSystem.setEntry_natCast,
    FileSystem.setName_natCast]

theorem afterOpen_refused {name : CString} {permission : ℤ}
    (h : ¬ (k.fileSystem.freeEntry 2 ≠ -1 ∧ (permission = 0 ∨ permission = 1))) :
    afterOpen host k name permission = { k with machine := k.machine.finished (-1) } := if_neg h

theorem afterSocket_granted {i : Fin 20} (hfree : k.fileSystem.freeEntry 0 = (i : ℕ))
    (hfd : (host.socket k.host).1 ≠ -1) :
    afterSocket host k = ⟨k.machine.finished (BitVec.ofInt 32 (i : ℕ)),
      { k.fileSystem with
        openf := Function.update k.fileSystem.openf i
          (some (FileSystem.openSocket (host.socket k.host).1)) }, (host.socket k.host).2⟩ := by
  unfold afterSocket
  dsimp only
  rw [hfree, if_neg (not_or.mpr ⟨hfd, by omega⟩), FileSystem.setEntry_natCast]

theorem afterSocket_refused (h : (host.socket k.host).1 = -1 ∨ k.fileSystem.freeEntry 0 = -1) :
    afterSocket host k =
      { k with machine := k.machine.finished (-1), host := (host.socket k.host).2 } := if_pos h

theorem nameArgument_apply : nameArgument host k =
    match user2System host (k.machine.registers 4) (MaxFileLength + 1) k with
    | .ok buffer k' => .ok (cString buffer) k'
    | .error stop k' => .error stop k' := by
  show (user2System host (k.machine.registers 4) (MaxFileLength + 1) >>= fun filename =>
    pure (cString filename)) k = _
  simp only [bind, EStateM.bind]
  cases user2System host (k.machine.registers 4) (MaxFileLength + 1) k <;> rfl

theorem ends_name : Ends (user2System host (k.machine.registers 4) (MaxFileLength + 1)) k
    (fun buffer k₁ => k.Accessed k₁ ∧ fileName host k = some (cString buffer))
    (fun stop k' => Trapped host k stop k' ∧ fileName host k = none) := by
  have hall := ((ends_user2System host (k.machine.registers 4) (MaxFileLength + 1)).and
    ((interruptible_user2System (k.machine.registers 4) (MaxFileLength + 1)).calms host k)).and
    Ends.self
  refine hall.mono ?_ ?_
  · rintro buffer k₁ ⟨⟨⟨hk₁, -⟩, -⟩, hok⟩
    refine ⟨hk₁, ?_⟩
    have hname : nameArgument host k = .ok (cString buffer) k₁ := by
      rw [nameArgument_apply, hok]
    unfold fileName
    rw [hname]
  · rintro stop k' ⟨⟨-, htrapped⟩, herror⟩
    refine ⟨htrapped, ?_⟩
    have hname : nameArgument host k = .error stop k' := by
      rw [nameArgument_apply, herror]
    unfold fileName
    rw [hname]

@[simp] theorem ends_openFile {name : CString} {type permission : ℤ}
    {Q : Option OpenFile → Kernel W → Prop} {E : Stop → Kernel W → Prop} :
    Ends (FileSystem.openFile host name type permission) k Q E ↔
      let (fd, w) := host.openFd k.host name false
      Q (if fd = -1 then none else some (OpenFile.new fd type permission))
        { k with host := w } := by
  simp only [FileSystem.openFile, openForReadWrite, ends_bind, ends_ask, ends_assert, true_or,
    if_true, ends_pure, ends_ite]
  split <;> rfl

theorem range_of_freeEntry {fs : FileSystem} {first : ℕ} (h : fs.freeEntry first ≠ -1) :
    0 ≤ fs.freeEntry first ∧ fs.freeEntry first < 20 := by
  rcases fs.freeEntry_cases first with ⟨hnone, -⟩ | ⟨i, hi, -⟩
  · exact absurd hnone h
  · omega

theorem ends_scOpen : Ends (scOpen host) k (fun _ k' => ∃ k₁ name, k.Accessed k₁ ∧
    fileName host k = some name ∧
      k' = afterOpen host k₁ name (k.machine.registers 5).toInt)
    (fun stop k' => Trapped host k stop k' ∧ fileName host k = none) := by
  simp only [scOpen, ends_bind, ends_readRegister, ends_argument]
  refine ends_name.mono ?_ fun _ _ h => h
  rintro buffer k₁ ⟨hk₁, hname⟩
  simp only [ends_fileSystem, ends_ite, ends_finish]
  split_ifs with hcond
  · simp only [ends_bind, ends_openFile, ends_setOpenf, ends_setTableDescriptor, ends_finish,
      range_of_freeEntry hcond.1, and_self, if_true]
    refine ⟨k₁, cString buffer, hk₁, hname, ?_⟩
    unfold afterOpen
    rw [if_pos hcond]
  · refine ⟨k₁, cString buffer, hk₁, hname, ?_⟩
    unfold afterOpen
    rw [if_neg hcond]

theorem ends_scSocketTCP : Ends (scSocketTCP host) k (fun _ k' => k' = afterSocket host k)
    fun _ _ => False := by
  simp only [scSocketTCP, ends_bind, ends_ask, ends_ite, ends_finish, ends_fileSystem]
  split_ifs with hfailed hfree
  · exact (if_pos (.inl hfailed)).symm
  · simp only [ends_setOpenf, range_of_freeEntry hfree, and_self, if_true]
    exact (if_neg (not_or.mpr ⟨hfailed, hfree⟩)).symm
  · exact (if_pos (.inr (not_not.mp hfree))).symm

/-- `Close` refuses a descriptor that names no file, and else makes its entry empty. -/
theorem ends_scClose : Ends (scClose host) k (fun _ k' => Answered host k k' ∨
    ∃ (i : Fin 20) (f : OpenFile), (k.machine.registers 4).toInt = (i : ℕ) ∧
      k.fileSystem.openf i = some f ∧ 0 ≤ (host.close k.host f.file).1.toInt ∧
      k' = ⟨k.machine.finished 0, (k.fileSystem.setEntry (i : ℕ) none).setName (i : ℕ) none,
        (host.close k.host f.file).2⟩) (Trapped host k) := by
  simp only [scClose, ends_bind, ends_argument, ends_ite, ends_finish, ends_openf]
  have hrefused : Answered host k { k with machine := k.machine.finished (-1) } :=
    ⟨k, -1, .refl, rfl⟩
  split_ifs with hlarge hnonneg hrange hempty
  · exact .inl hrefused
  · exact .inl hrefused
  · obtain ⟨i, hi⟩ := FileSystem.exists_index hrange
    rw [hi, FileSystem.entry_natCast] at hempty ⊢
    obtain ⟨f, hf⟩ := Option.ne_none_iff_exists'.mp hempty
    have hrange' : (0 : ℤ) ≤ (i : ℕ) ∧ ((i : ℕ) : ℤ) < 20 := hi ▸ hrange
    simp only [hf, ends_deref, Option.elim_some, ends_close, ends_setOpenf, ends_tableDescriptor,
      ends_setTableDescriptor, hrange', and_self, if_true]
    split_ifs with hclosed
    · exact .inr ⟨i, f, rfl, hf, hclosed, rfl⟩
    · exact trapped_of_ne (by simp)
  · exact trapped_of_ne (by simp)
  · exact .inl hrefused

/-- `OpenForWrite` asserts, so that `Create` never fails otherwise. -/
theorem ends_create {name : CString} {Q : Bool → Kernel W → Prop} {E : Stop → Kernel W → Prop} :
    Ends (FileSystem.create host name) k Q E ↔
      let (fd, w) := host.openFd k.host name true
      if 0 ≤ fd.toInt then
        let (retVal, w) := host.close w fd
        if 0 ≤ retVal.toInt then Q true { k with host := w } else E .abort { k with host := w }
      else E .abort { k with host := w } := by
  simp only [FileSystem.create, openForWrite, ends_bind, ends_ask, ends_assert, ends_pure,
    ends_ite, ends_close]
  by_cases hopened : 0 ≤ (host.openFd k.host name true).1.toInt
  · have hne : (host.openFd k.host name true).1 ≠ -1 := by
      intro hfailed
      rw [hfailed] at hopened
      exact absurd hopened (by decide)
    simp only [if_pos hopened, if_neg hne]
  · simp only [if_neg hopened]

theorem ends_scCreate : Ends (scCreate host) k (fun _ k' => ∃ k₁ name, k.Accessed k₁ ∧
    let (fd, w) := host.openFd k₁.host name true
    0 ≤ fd.toInt ∧ 0 ≤ (host.close w fd).1.toInt ∧
      k' = ⟨k₁.machine.finished 0, k₁.fileSystem, (host.close w fd).2⟩) (Trapped host k) := by
  simp only [scCreate, ends_bind, ends_readRegister]
  refine ends_name.mono ?_ fun _ _ h => h.1
  rintro buffer k₁ ⟨hk₁, -⟩
  rw [ends_create]
  simp only [reduceIte]
  split_ifs with hopened hclosed
  · exact ⟨k₁, cString buffer, hk₁, hopened, hclosed, rfl⟩
  · exact trapped_of_ne (by simp)
  · exact trapped_of_ne (by simp)

end Sys

/-- What a descriptor of the host stands for. -/
inductive Target where
  | file (name : CString)
  | socket
  deriving DecidableEq

/-- What POSIX says about descriptors; `files` tells which ones are open, and what for. -/
structure Host.Posix (host : Host W) (files : W → Word → Option Target) : Prop where
  openFd : ∀ w name creating, let (fd, w') := host.openFd w name creating
    if fd = -1 then files w' = files w
    else files w fd = none ∧ files w' = Function.update (files w) fd (some (.file name))
  socket : ∀ w, let (fd, w') := host.socket w
    if fd = -1 then files w' = files w
    else files w fd = none ∧ files w' = Function.update (files w) fd (some .socket)
  close : ∀ w fd, 0 ≤ (host.close w fd).1.toInt →
    files (host.close w fd).2 = Function.update (files w) fd none
  answered : ∀ w w', host.Answered w w' → files w' = files w

section

variable {host : Host W} {files : W → Word → Option Target} {w w' : W}

theorem Host.Posix.opened (h : host.Posix files) {name : CString} {creating : Bool}
    (hfd : (host.openFd w name creating).1 ≠ -1) :
    files w (host.openFd w name creating).1 = none ∧ files (host.openFd w name creating).2 =
      Function.update (files w) (host.openFd w name creating).1 (some (.file name)) := by
  have hw := h.openFd w name creating
  dsimp only at hw
  rwa [if_neg hfd] at hw

theorem Host.Posix.notOpened (h : host.Posix files) {name : CString} {creating : Bool}
    (hfd : (host.openFd w name creating).1 = -1) :
    files (host.openFd w name creating).2 = files w := by
  have hw := h.openFd w name creating
  dsimp only at hw
  rwa [if_pos hfd] at hw

theorem Host.Posix.socketed (h : host.Posix files) (hfd : (host.socket w).1 ≠ -1) :
    files w (host.socket w).1 = none ∧ files (host.socket w).2 =
      Function.update (files w) (host.socket w).1 (some .socket) := by
  have hw := h.socket w
  dsimp only at hw
  rwa [if_neg hfd] at hw

theorem Host.Posix.noSocket (h : host.Posix files) (hfd : (host.socket w).1 = -1) :
    files (host.socket w).2 = files w := by
  have hw := h.socket w
  dsimp only at hw
  rwa [if_pos hfd] at hw

theorem Host.Posix.files_eq (h : host.Posix files)
    (hw : Relation.ReflTransGen host.Answered w w') : files w' = files w := by
  induction hw with
  | refl => rfl
  | tail _ hstep ih => exact (h.answered _ _ hstep).trans ih

/-- A file that is created is closed at once. -/
theorem Host.Posix.created (h : host.Posix files) {name : CString}
    (hfd : 0 ≤ (host.openFd w name true).1.toInt)
    (hclose : 0 ≤ (host.close (host.openFd w name true).2
      (host.openFd w name true).1).1.toInt) :
    files (host.close (host.openFd w name true).2 (host.openFd w name true).1).2 = files w := by
  have hne : (host.openFd w name true).1 ≠ -1 := by
    intro hfailed
    rw [hfailed] at hfd
    exact absurd hfd (by decide)
  obtain ⟨hfresh, hopened⟩ := h.opened hne
  rw [h.close _ _ hclose, hopened, Function.update_idem, ← hfresh, Function.update_eq_self]

end

/-- A host with the files in `existing` and 64 descriptors, the lowest of which are used first. -/
structure SmallWorld where
  existing : List CString
  descriptors : Word → Option Target

namespace SmallWorld

/-- The lowest descriptor that is not in use. -/
def fresh (w : SmallWorld) : Option ℕ :=
  (List.range 64).find? fun n => (w.descriptors (BitVec.ofNat 32 n)).isNone

/-- A new descriptor for `target`. -/
def use (w : SmallWorld) (target : Target) : Word × SmallWorld :=
  match w.fresh with
  | none => (-1, w)
  | some n => (BitVec.ofNat 32 n, { w with
      descriptors := Function.update w.descriptors (BitVec.ofNat 32 n) (some target) })

def openFd (w : SmallWorld) (name : CString) (creating : Bool) : Word × SmallWorld :=
  if creating then { w with existing := name :: w.existing }.use (.file name)
  else if name ∈ w.existing then w.use (.file name)
  else (-1, w)

def close (w : SmallWorld) (fd : Word) : Word × SmallWorld :=
  if (w.descriptors fd).isSome then
    (0, { w with descriptors := Function.update w.descriptors fd none })
  else (-1, w)

theorem length_nil_le (count : ℕ) :
    ∀ stored ∈ some ([] : List UInt8), stored.length ≤ min count MaxTransfer := by
  rintro stored ⟨rfl⟩
  exact Nat.zero_le _

/-- The host; its files are empty. -/
def host : Host SmallWorld where
  openFd := openFd
  close := close
  lseek w _ _ _ := (0, w)
  read w _ count := (⟨_, length_nil_le count⟩, w)
  write w _ bytes := (BitVec.ofNat 32 bytes.length, w)
  unlink w name :=
    (if name ∈ w.existing then 0 else -1, { w with existing := w.existing.erase name })
  socket w := w.use .socket
  connect w _ _ _ := (0, w)
  send w _ bytes := (BitVec.ofNat 32 bytes.length, w)
  recv w _ count := (⟨_, length_nil_le count⟩, w)
  errno _ := 0
  getChar w := (10, w)
  putChar w _ := w
  fresh _ _ := 0

theorem use_posix (w : SmallWorld) (target : Target) :
    if (w.use target).1 = -1 then (w.use target).2.descriptors = w.descriptors
    else w.descriptors (w.use target).1 = none ∧ (w.use target).2.descriptors =
      Function.update w.descriptors (w.use target).1 (some target) := by
  unfold use
  cases hfresh : w.fresh with
  | none => exact rfl
  | some n =>
    have hlt := List.mem_range.mp (List.mem_of_find?_eq_some hfresh)
    have hnone := List.find?_some hfresh
    have hne : BitVec.ofNat 32 n ≠ -1 := by
      intro heq
      have hnat := congrArg BitVec.toNat heq
      rw [BitVec.toNat_ofNat] at hnat
      change n % 2 ^ 32 = 2 ^ 32 - 1 at hnat
      omega
    dsimp only
    rw [if_neg hne]
    exact ⟨Option.isNone_iff_eq_none.mp hnone, rfl⟩

theorem openFd_posix (w : SmallWorld) (name : CString) (creating : Bool) :
    if (w.openFd name creating).1 = -1 then (w.openFd name creating).2.descriptors = w.descriptors
    else w.descriptors (w.openFd name creating).1 = none ∧
      (w.openFd name creating).2.descriptors =
        Function.update w.descriptors (w.openFd name creating).1 (some (.file name)) := by
  cases creating with
  | true => exact use_posix { w with existing := name :: w.existing } (.file name)
  | false =>
    by_cases hname : name ∈ w.existing
    · rw [show w.openFd name false = w.use (.file name) from if_pos hname]
      exact use_posix w (.file name)
    · rw [show w.openFd name false = (-1, w) from if_neg hname, if_pos rfl]

theorem posix : host.Posix descriptors where
  openFd := openFd_posix
  socket := fun w => use_posix w .socket
  close := by
    intro w fd hfd
    replace hfd : 0 ≤ (w.close fd).1.toInt := hfd
    show (w.close fd).2.descriptors = _
    by_cases hopen : (w.descriptors fd).isSome = true
    · rw [close, if_pos hopen]
    · rw [close, if_neg hopen] at hfd
      exact absurd (show 0 ≤ (-1 : Word).toInt from hfd) (by decide)
  answered := by
    intro w w' h
    cases h <;> rfl

end SmallWorld

namespace Descriptors

open Sys EStateM

structure State (W : Type) where
  fileSystem : FileSystem
  host : W

/-- The kernel when a process with machine `m` traps. -/
def State.kernel (s : State W) (m : Machine) : Kernel W := ⟨m, s.fileSystem, s.host⟩

inductive Label (W : Type) where
  /-- A system call of a process whose registers and memory are those of `m`. -/
  | call (m : Machine)
  /-- The rest of the kernel has used the host. -/
  | elsewhere (w : W)

/-- A step. A trap inside a call ends the calling process; after a failed assertion there is no
kernel any more. -/
def step (host : Host W) (s : State W) : Label W → Option (State W)
  | .call m =>
    match exceptionHandler host .syscallException (s.kernel m) with
    | .ok _ k | .error (.trap _) k => some ⟨k.fileSystem, k.host⟩
    | .error _ _ => none
  | .elsewhere w => some { s with host := w }

/-- The start, once the constructor of the file system has run. -/
def boot (host : Host W) (w : W) (m : Machine) : Option (State W) :=
  match FileSystem.new host ⟨m, FileSystem.blank, w⟩ with
  | .ok _ k => some ⟨k.fileSystem, k.host⟩
  | .error _ _ => none

/-- What a system call does to the table and to the host. -/
inductive Effect (host : Host W) (s : State W) (m : Machine) : State W → Prop
  | quiet {s' : State W} (hview : s'.fileSystem.view = s.fileSystem.view)
      (hhost : Relation.ReflTransGen host.Answered s.host s'.host) : Effect host s m s'
  | created {name : CString} (hfd : 0 ≤ (host.openFd s.host name true).1.toInt)
      (hclose : 0 ≤ (host.close (host.openFd s.host name true).2
        (host.openFd s.host name true).1).1.toInt) :
      Effect host s m { s with host := (host.close (host.openFd s.host name true).2
        (host.openFd s.host name true).1).2 }
  | opened {i : Fin 20} {name : CString} (hcall : m.registers 2 = 6)
      (hname : fileName host (s.kernel m) = some name) (hfree : s.fileSystem.freeEntry 2 = (i : ℕ))
      (hpermission : (m.registers 5).toInt = 0 ∨ (m.registers 5).toInt = 1) :
      Effect host s m ⟨{ s.fileSystem with
        openf := Function.update s.fileSystem.openf i
          (if (host.openFd s.host name false).1 = -1 then none
            else some (OpenFile.new (host.openFd s.host name false).1 0 (m.registers 5).toInt))
        tableDescriptor := Function.update s.fileSystem.tableDescriptor i (some name) },
        (host.openFd s.host name false).2⟩
  | closed {i : Fin 20} {f : OpenFile} (hcall : m.registers 2 = 10)
      (hi : (m.registers 4).toInt = (i : ℕ)) (hf : s.fileSystem.openf i = some f)
      (hclose : 0 ≤ (host.close s.host f.file).1.toInt) :
      Effect host s m ⟨{ s.fileSystem with
        openf := Function.update s.fileSystem.openf i none
        tableDescriptor := Function.update s.fileSystem.tableDescriptor i none },
        (host.close s.host f.file).2⟩
  | noSocket (hfd : (host.socket s.host).1 = -1) :
      Effect host s m { s with host := (host.socket s.host).2 }
  | socketLost (hcall : m.registers 2 = 99) (hfd : (host.socket s.host).1 ≠ -1)
      (hfull : s.fileSystem.freeEntry 0 = -1) :
      Effect host s m { s with host := (host.socket s.host).2 }
  | socket {i : Fin 20} (hcall : m.registers 2 = 99) (hfd : (host.socket s.host).1 ≠ -1)
      (hfree : s.fileSystem.freeEntry 0 = (i : ℕ)) :
      Effect host s m ⟨{ s.fileSystem with
        openf := Function.update s.fileSystem.openf i
          (some (FileSystem.openSocket (host.socket s.host).1)) }, (host.socket s.host).2⟩

/-- The procedure has such an effect, as far as it comes. -/
def Effects {α : Type} (host : Host W) (s : State W) (m : Machine) (x : Sys W α) : Prop :=
  Ends x (s.kernel m) (fun _ k => Effect host s m ⟨k.fileSystem, k.host⟩)
    fun stop k => ∀ which, stop = .trap which → Effect host s m ⟨k.fileSystem, k.host⟩

section

variable {host : Host W} {s s' : State W} {m : Machine} {k : Kernel W} {α : Type}

theorem effect_of_calm (h : (s.kernel m).Calm host k) :
    Effect host s m ⟨k.fileSystem, k.host⟩ := .quiet h.view h.answered

theorem effect_of_trapped {stop : Stop} (h : Trapped host (s.kernel m) stop k) :
    ∀ which, stop = .trap which → Effect host s m ⟨k.fileSystem, k.host⟩ := by
  intro which hstop
  obtain ⟨k₁, hk₁, hfs, hhost⟩ := h which hstop
  rw [hfs, hhost]
  exact effect_of_calm hk₁

theorem effect_of_answered (h : Answered host (s.kernel m) k) :
    Effect host s m ⟨k.fileSystem, k.host⟩ := by
  obtain ⟨k₁, value, hk₁, rfl⟩ := h
  show Effect host s m ⟨k₁.fileSystem, k₁.host⟩
  exact effect_of_calm hk₁

theorem effects_of_calms {x : Sys W α} (h : Calms host x) : Effects host s m x :=
  (h _).mono (fun _ _ => effect_of_calm) fun _ _ => effect_of_trapped

theorem effects_of_answers {x : Sys W Unit} (h : Answers host x) : Effects host s m x :=
  (h _).mono (fun _ _ => effect_of_answered) fun _ _ => effect_of_trapped

theorem effects_resuming {x : Sys W Unit} (h : Effects host s m x) :
    Effects host s m (resuming x) :=
  h.bind (fun _ _ => id) fun _ _ => id

theorem effects_scOpen (hcall : m.registers 2 = 6) : Effects host s m (scOpen host) := by
  refine ends_scOpen.mono ?_ fun _ _ h => effect_of_trapped h.1
  rintro _ k ⟨k₁, name, hk₁, hname, rfl⟩
  have hfs : k₁.fileSystem = s.fileSystem := hk₁.fileSystem
  have hhost : k₁.host = s.host := hk₁.host
  by_cases hcond : k₁.fileSystem.freeEntry 2 ≠ -1 ∧
      ((m.registers 5).toInt = 0 ∨ (m.registers 5).toInt = 1)
  · obtain ⟨i, hi⟩ := FileSystem.exists_index (range_of_freeEntry hcond.1)
    have hafter : afterOpen host k₁ name (m.registers 5).toInt = _ := afterOpen_granted hi hcond.2
    rw [hfs, hhost] at hafter
    rw [show (s.kernel m).machine = m from rfl, hafter]
    exact .opened hcall hname (hfs ▸ hi) hcond.2
  · rw [show (s.kernel m).machine = m from rfl, afterOpen_refused hcond]
    exact .quiet (congrArg _ hfs) (by rw [hhost])

theorem effects_scClose (hcall : m.registers 2 = 10) : Effects host s m (scClose host) := by
  refine ends_scClose.mono ?_ fun _ _ => effect_of_trapped
  rintro _ k (hanswered | ⟨i, f, hi, hf, hclose, rfl⟩)
  · exact effect_of_answered hanswered
  · rw [FileSystem.setEntry_natCast, FileSystem.setName_natCast]
    exact .closed hcall hi hf hclose

theorem effects_scSocketTCP (hcall : m.registers 2 = 99) :
    Effects host s m (scSocketTCP host) := by
  refine ends_scSocketTCP.mono ?_ fun _ _ h => h.elim
  rintro _ k rfl
  by_cases hcond : (host.socket s.host).1 = -1 ∨ s.fileSystem.freeEntry 0 = -1
  · rw [afterSocket_refused hcond]
    by_cases hfd : (host.socket s.host).1 = -1
    · exact .noSocket hfd
    · exact .socketLost hcall hfd (hcond.resolve_left hfd)
  · obtain ⟨hfd, hfree⟩ := not_or.mp hcond
    obtain ⟨i, hi⟩ := FileSystem.exists_index (range_of_freeEntry hfree)
    rw [afterSocket_granted hi hfd]
    exact .socket hcall hfd hi

theorem effects_scCreate : Effects host s m (scCreate host) := by
  refine ends_scCreate.mono ?_ fun _ _ => effect_of_trapped
  rintro _ k ⟨k₁, name, hk₁, hrest⟩
  rw [hk₁.host] at hrest
  obtain ⟨hfd, hclose, rfl⟩ := hrest
  rw [hk₁.fileSystem]
  exact .created hfd hclose

theorem effects_syscall : Effects host s m (syscall host (m.registers 2).toNat) := by
  have hcode {n : ℕ} (hn : n < 2 ^ 32) (h : (m.registers 2).toNat = n) :
      m.registers 2 = BitVec.ofNat 32 n := by
    apply BitVec.eq_of_toNat_eq
    rw [h, BitVec.toNat_ofNat, Nat.mod_eq_of_lt hn]
  unfold syscall
  split
  · exact effects_of_calms (.pure _)
  · exact effects_of_calms (.bind (calms_argument _) fun _ => .pure _)
  · exact effects_of_calms (.bind (interruptible_nameArgument.calms host) fun _ => .pure _)
  · exact effects_of_calms (.bind (calms_argument _) fun _ => .pure _)
  · exact effects_resuming effects_scCreate
  · exact effects_resuming (effects_of_answers (returning_scRemove.answers host))
  · next h => exact effects_resuming (effects_scOpen (hcode (by decide) h))
  · exact effects_resuming (effects_of_answers (returning_scRead.answers host))
  · exact effects_resuming (effects_of_answers (returning_scWrite.answers host))
  · exact effects_resuming (effects_of_answers (returning_scSeek.answers host))
  · next h => exact effects_resuming (effects_scClose (hcode (by decide) h))
  · exact effects_of_calms (interruptible_scExecV.calms host)
  · exact effects_resuming (effects_of_answers (returning_scAdd.answers host))
  · exact effects_resuming (effects_of_answers (returning_scReadString.answers host))
  · exact effects_resuming (effects_of_answers (returning_scPrintString.answers host))
  · next h => exact effects_resuming (effects_scSocketTCP (hcode (by decide) h))
  · exact effects_resuming (effects_of_answers (returning_scConnect.answers host))
  · exact effects_resuming (effects_of_answers (returning_scSend.answers host))
  · exact effects_resuming (effects_of_answers (returning_scReceive.answers host))
  · exact effects_of_calms (.bind (calms_argument _) fun _ =>
      .bind (interruptible_nameArgument.calms host) fun _ => .pure _)
  · exact effects_of_calms (.bind (interruptible_nameArgument.calms host) fun _ => .pure _)
  · exact effects_of_calms (.bind (interruptible_nameArgument.calms host) fun _ => .pure _)
  · exact fun which h => absurd h nofun

theorem step_effect (hs : step host s (.call m) = some s') : Effect host s m s' := by
  have heffects : Effects host s m (exceptionHandler host .syscallException) := effects_syscall
  unfold Effects Ends at heffects
  unfold step at hs
  dsimp only at hs
  split at hs <;> rename_i heq <;> rw [heq] at heffects
  · cases hs
    exact heffects
  · cases hs
    exact heffects _ rfl
  · cases hs

theorem step_socketTCP (hcall : m.registers 2 = 99) (hs : step host s (.call m) = some s') :
    s' = ⟨(afterSocket host (s.kernel m)).fileSystem, (afterSocket host (s.kernel m)).host⟩ := by
  have hends : Ends (exceptionHandler host .syscallException) (s.kernel m)
      (fun _ k => k = afterSocket host (s.kernel m)) fun _ _ => False := by
    show Ends (syscall host (m.registers 2).toNat) _ _ _
    rw [hcall]
    exact ends_scSocketTCP.bind (fun _ _ h => h) fun _ _ h => h
  unfold Ends at hends
  unfold step at hs
  dsimp only at hs
  split at hs <;> rename_i heq <;> rw [heq] at hends
  · cases hs
    rw [hends]
  · exact hends.elim
  · exact hends.elim

/-- What the constructor leaves; both of its files may be missing. -/
theorem ends_new {w : W} : Ends (FileSystem.new host) ⟨m, FileSystem.blank, w⟩
    (fun _ k => ∃ w₁, (∀ {files}, host.Posix files → files w₁ = files w) ∧
      k = ⟨m, { FileSystem.blank with
        openf := Function.update (Function.update FileSystem.blank.openf 0
            (if (host.openFd w₁ FileSystem.stdinName false).1 = -1 then none
              else some (OpenFile.new (host.openFd w₁ FileSystem.stdinName false).1 2 0))) 1
          (if (host.openFd (host.openFd w₁ FileSystem.stdinName false).2
              FileSystem.stdoutName false).1 = -1 then none
            else some (OpenFile.new (host.openFd (host.openFd w₁ FileSystem.stdinName false).2
              FileSystem.stdoutName false).1 3 0))
        index := 2 },
        (host.openFd (host.openFd w₁ FileSystem.stdinName false).2 FileSystem.stdoutName false).2⟩)
    fun _ _ => True := by
  simp only [FileSystem.new, ends_bind, ends_create]
  split_ifs with hopen₁ hclose₁ hopen₂ hclose₂
  simp only [ends_openFile, ends_setOpenf, ends_modifyFileSystem]
  refine ⟨_, ?_, rfl⟩
  intro files hposix
  rw [hposix.created hopen₂ hclose₂, hposix.created hopen₁ hclose₁]

end

/-- A machine about to call `Open("a", 0)`, or another call with the same arguments. -/
def callWithName (code : Word) : Machine where
  registers r := if r = 2 then code else 0
  mainMemory a := if a = 0 then 97 else 0
  pageTable := some 0
  pageTableSize := 1
  tables _ := AddrSpace.tableOf 0 [0]

end Descriptors
end Nachos

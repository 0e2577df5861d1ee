import Nachos.Library.Ledger
import Nachos.Threads.PTable
import Nachos.Userprog.DescriptorTable

/-! All descriptors of the host that the kernel has open: those of the devices, those in the
table of open files, and those on which programs are loaded. `ExecUpdate` and `ExecV` open the
file only to see that it exists, and `StartProcess_2` opens it once more; these objects are
never deleted. -/
namespace Nachos

namespace Sys

open EStateM

variable {W α β : Type} (host : Host W)

/-- `FileSystem::Open(name)`. Of the new object only the descriptor is ever used. -/
def openName (name : CString) : Sys W (Option Word) := do
  let fileDescriptor ← openForReadWrite host name false
  if fileDescriptor = -1 then return none
  else return some fileDescriptor

/-- The comparison of `Open(name)` with `NULL` in `ExecUpdate` and in `ExecV`, where a process
with the name of the current one gets no further than that. -/
def fileExists (call : PTable.ExecCall) (current : CString) : Sys W Bool :=
  match call.name with
  | none => pure false
  | some name =>
    if call.kind ≠ .update ∧ name = current then pure false
    else do return (← openName host name).isSome

/-- The result of an operation with assertions of its own. -/
def asserted (result : Option α) : Sys W α :=
  match result with
  | none => throw .abort
  | some a => pure a

/-- The header, read over what is on the stack. -/
def loadHeader (executable : Word) : Sys W NoffHeader := do
  let noffH ← newChars host sizeofNoffHeader
  lseek host executable 0 0
  let (_, noffH) ← readPartial host executable noffH sizeofNoffHeader
  let noffH ← asserted (readHeader noffH)
  assert (noffH.noffMagic = NOFFMAGIC)
  return noffH

/-- The constructor `AddrSpace(char*)` up to `addrLock->P()`. -/
def beginLoad (fileName : CString) : Sys W (Option (Word × NoffHeader)) := do
  match ← openName host fileName with
  | none => return none
  | some executable => return some (executable, ← loadHeader host executable)

/-- The loop of the constructor that copies a segment, from page `i` on. -/
def readPages (executable : Word) (segment : Segment) (i : ℕ) :
    PageTable → Sys W (List ByteStore.Patch)
  | [] => return []
  | entry :: rest => do
    lseek host executable (BitVec.ofInt 32 (segment.inFileAddr + i * PageSize)) 0
    let answer ← ask fun w => host.read w executable PageSize
    let writes ← readPages executable segment (i + 1) rest
    return ⟨int32 (segment.virtualAddr + entry.physicalPage * PageSize), answer.stored⟩ :: writes

def readSegment (executable : Word) (segment : Segment) (pageTable : PageTable) :
    Sys W (List ByteStore.Patch) :=
  if segment.size > 0 then readPages host executable segment 0 pageTable else return []

/-- The constructor from the return of `addrLock->P()` on; it closes the file in any case. -/
def finishLoad (executable : Word) (noffH : NoffHeader) (bm : Bitmap NumPhysPages) :
    Sys W AddrSpace.Construction := do
  let numPages := AddrSpace.pagesNeeded noffH
  assert (numPages ≤ NumPhysPages)
  if numPages > (← asserted bm.numClear) then
    close host executable
    return .refused
  else
    let (pageTable, bm, zeroes) ← asserted (AddrSpace.allocLoop bm 0 numPages)
    let code ← readSegment host executable noffH.code pageTable
    let initData ← readSegment host executable noffH.initData pageTable
    let readonlyData ← readSegment host executable noffH.readonlyData pageTable
    close host executable
    return .loaded ⟨pageTable⟩ bm (zeroes ++ code ++ initData ++ readonlyData)

/-- `StartProcess_2` up to `addrLock->P()` in the constructor. -/
def beginProcess2 (filename : CString) : Sys W (Option (Word × NoffHeader)) := do
  let executable ← openName host filename
  if executable = none then return none
  else beginLoad host filename

/-- The constructor keeps its file open while it waits for the lock. -/
def Begun (name : CString) (k : Kernel W) (e : Option (Word × NoffHeader)) (k' : Kernel W) :
    Prop :=
  let (fd, w) := host.openFd k.host name false
  fd = -1 ∧ e = none ∧ k' = { k with host := w } ∨
    fd ≠ -1 ∧ ∃ noffH, e = some (fd, noffH) ∧ ({ k with host := w } : Kernel W).Calm host k'

/-- A part of the constructor that closes the file at its end. -/
def Closes (executable : Word) (x : Sys W α) : Prop :=
  ∀ k, Ends x k (fun _ k' => ∃ k₁, k.Calm host k₁ ∧ 0 ≤ (host.close k₁.host executable).1.toInt ∧
    k' = { k₁ with host := (host.close k₁.host executable).2 }) fun _ _ => True

section

variable {host} {k : Kernel W}

theorem calms_lseek (fd offset : Word) (whence : ℕ) : Calms host (lseek host fd offset whence) :=
  .bind (calms_ask fun _ => .lseek _ _ _) fun _ => calms_assert _

theorem calms_asserted (result : Option α) : Calms host (asserted result) := by
  cases result with
  | none => exact fun _ => trapped_of_ne (by simp)
  | some a => exact .pure a

theorem calms_loadHeader (executable : Word) : Calms host (loadHeader host executable) := by
  refine .bind (calms_newChars _) fun noffH => .bind (calms_lseek _ _ _) fun _ => ?_
  refine .bind (.bind (calms_ask fun _ => .read _ _) fun _ => ?_) ?_
  · exact .bind (calms_received _ _) fun _ => .pure _
  · exact fun _ => .bind (calms_asserted _) fun noffH => .bind (calms_assert _) fun _ => .pure _

theorem calms_readPages (executable : Word) (segment : Segment) (pageTable : PageTable) (i : ℕ) :
    Calms host (readPages host executable segment i pageTable) := by
  induction pageTable generalizing i with
  | nil => exact .pure _
  | cons entry rest ih =>
    refine .bind (calms_lseek _ _ _) fun _ => .bind (calms_ask fun _ => .read _ _) fun answer => ?_
    exact .bind (ih _) fun writes => .pure _

theorem calms_readSegment (executable : Word) (segment : Segment) (pageTable : PageTable) :
    Calms host (readSegment host executable segment pageTable) :=
  .ite (calms_readPages _ _ _ _) (.pure _)

@[simp] theorem ends_openName {name : CString} {Q : Option Word → Kernel W → Prop}
    {E : Stop → Kernel W → Prop} : Ends (openName host name) k Q E ↔
      let (fd, w) := host.openFd k.host name false
      Q (if fd = -1 then none else some fd) { k with host := w } := by
  simp only [openName, openForReadWrite, ends_bind, ends_ask, ends_assert, true_or, if_true,
    ends_pure, ends_ite]
  split <;> rfl

/-- Both callers leave the host with one more descriptor, if they open the file and it is there. -/
theorem ends_fileExists {call : PTable.ExecCall} {current : CString} :
    Ends (fileExists host call current) k (fun _ k' =>
      (k' = k ∧ ∀ name, call.name = some name → ¬ (call.kind = .update ∨ name ≠ current)) ∨
        ∃ name, call.name = some name ∧ (call.kind = .update ∨ name ≠ current) ∧
          k' = { k with host := (host.openFd k.host name false).2 }) fun _ _ => True := by
  unfold fileExists
  split
  · next hnone => exact .inl ⟨rfl, fun name hname => absurd (hnone.symm.trans hname) nofun⟩
  · next name hname =>
    rw [ends_ite]
    split_ifs with hself
    · refine .inl ⟨rfl, ?_⟩
      intro name' hname'
      cases hname.symm.trans hname'
      exact not_or.mpr ⟨hself.1, not_not.mpr hself.2⟩
    · rw [ends_bind, ends_openName]
      exact .inr ⟨name, hname, by tauto, rfl⟩

theorem ends_beginLoad {name : CString} :
    Ends (beginLoad host name) k (Begun host name k) fun _ _ => True := by
  simp only [beginLoad, ends_bind, ends_openName]
  split_ifs with hfd
  · exact .inl ⟨hfd, rfl, rfl⟩
  · simp only [ends_bind, ends_pure]
    refine (calms_loadHeader _ _).mono ?_ fun _ _ _ => trivial
    intro noffH k' hk'
    exact .inr ⟨hfd, noffH, rfl, hk'⟩

/-- `StartProcess_2` forgets the object it has opened, and the constructor opens another. -/
theorem ends_beginProcess2 {filename : CString} : Ends (beginProcess2 host filename) k
    (fun e k' => let (fd, w) := host.openFd k.host filename false
      fd = -1 ∧ e = none ∧ k' = { k with host := w } ∨
        fd ≠ -1 ∧ Begun host filename { k with host := w } e k') fun _ _ => True := by
  simp only [beginProcess2, ends_bind, ends_openName]
  by_cases hfd : (host.openFd k.host filename false).1 = -1
  · rw [if_pos hfd, if_pos rfl]
    exact .inl ⟨hfd, rfl, rfl⟩
  · rw [if_neg hfd, if_neg (Option.some_ne_none _)]
    exact ends_beginLoad.mono (fun _ _ h => .inr ⟨hfd, h⟩) fun _ _ h => h

theorem Closes.done {executable : Word} (a : α) :
    Closes host executable (do close host executable; return a) := by
  intro k
  simp only [ends_bind, ends_close, ends_pure]
  split_ifs with hclosed
  exact ⟨k, .refl, hclosed, rfl⟩

theorem Closes.bind {executable : Word} {x : Sys W α} {f : α → Sys W β} (hx : Calms host x)
    (hf : ∀ a, Closes host executable (f a)) : Closes host executable (x >>= f) := by
  intro k
  refine (hx k).bind ?_ fun _ _ _ => trivial
  intro a k₁ hk₁
  refine (hf a k₁).mono ?_ fun _ _ => id
  rintro _ _ ⟨k₂, hk₂, hrest⟩
  exact ⟨k₂, hk₁.trans hk₂, hrest⟩

theorem closes_finishLoad (executable : Word) (noffH : NoffHeader) (bm : Bitmap NumPhysPages) :
    Closes host executable (finishLoad host executable noffH bm) := by
  refine .bind (calms_assert _) fun _ => .bind (calms_asserted _) fun numClear => ?_
  split
  · exact .done _
  refine .bind (calms_asserted _) fun (pageTable, bm, zeroes) => ?_
  refine .bind (calms_readSegment _ _ _) fun code => .bind (calms_readSegment _ _ _) fun _ => ?_
  exact .bind (calms_readSegment _ _ _) fun readonlyData => .done _

end

end Sys

namespace HostDescriptors

open Sys EStateM

variable {W : Type}

structure State (W : Type) where
  table : Descriptors.State W
  /-- The descriptor and the header with which a thread waits for `addrLock`. -/
  executable : ThreadId → Option (Word × NoffHeader)

/-- What the process table and the start routines do with files. -/
inductive Action where
  | check (call : PTable.ExecCall) (current : CString)
  | startProcess1 (t : ThreadId) (fileName : CString)
  | startProcess2 (t : ThreadId) (filename : CString)
  | load (t : ThreadId) (gPhysPageBitMap : Bitmap NumPhysPages)

inductive Label (W : Type) where
  | table (l : Descriptors.Label W)
  | action (m : Machine) (a : Action)

section

variable (host : Host W)

/-- The value and the next state, if all assertions hold. -/
def evaluate {α : Type} (s : Descriptors.State W) (m : Machine) (x : Sys W α) :
    Option (α × Descriptors.State W) :=
  match x (s.kernel m) with
  | .ok a k => some (a, ⟨k.fileSystem, k.host⟩)
  | .error _ _ => none

/-- Thread `t` has begun to load a program. -/
def State.begin (s : State W) (m : Machine) (t : ThreadId)
    (x : Sys W (Option (Word × NoffHeader))) : Option (State W) := do
  if (s.executable t).isSome then none
  else
    let (executable, table) ← evaluate s.table m x
    return ⟨table, Function.update s.executable t executable⟩

def perform (s : State W) (m : Machine) : Action → Option (State W)
  | .check call current => do
    let (_, table) ← evaluate s.table m (fileExists host call current)
    return { s with table }
  | .startProcess1 t fileName => s.begin m t (beginLoad host fileName)
  | .startProcess2 t filename => s.begin m t (beginProcess2 host filename)
  | .load t gPhysPageBitMap => do
    let (executable, noffH) ← s.executable t
    let (_, table) ← evaluate s.table m (finishLoad host executable noffH gPhysPageBitMap)
    return ⟨table, Function.update s.executable t none⟩

def step (s : State W) : Label W → Option (State W)
  | .table l => do
    let table ← Descriptors.step host s.table l
    return { s with table }
  | .action m a => perform host s m a

/-- The state after `Kernel::Initialize`. There are devices before and after the file system. -/
structure Initialized (files : W → Word → Option Target) (device : Set Word) (s : State W) :
    Prop where
  exists_boot : ∃ w m s₀, Descriptors.boot host w m = some s₀ ∧
    s.table.fileSystem = s₀.fileSystem ∧
    (∀ fd, files s₀.host fd ≠ none → files s.table.host fd = files s₀.host fd) ∧
    ∀ fd, fd ∈ device ↔ files w fd ≠ none ∨
      files s.table.host fd ≠ none ∧ files s₀.host fd = none
  executable : ∀ t, s.executable t = none

end

/-- The descriptors that are open are those of the devices, those in the table, and those of
programs on their way into memory. -/
def Exact (files : W → Word → Option Target) (device : Set Word) (s : State W) : Prop :=
  ∀ fd, files s.table.host fd ≠ none ↔ fd ∈ device ∨
    (∃ i f, s.table.fileSystem.openf i = some f ∧ f.file = fd) ∨
    ∃ t noffH, s.executable t = some (fd, noffH)

/-- The rest of the kernel neither opens nor closes anything. -/
def Undisturbed (files : W → Word → Option Target) (s : State W) : Label W → Prop
  | .table (.elsewhere w) => files w = files s.table.host
  | _ => True

/-- Nothing is opened that the kernel forgets: `SocketTCP` has an entry for its socket, and
where a file is opened only to see whether that succeeds, it does not. -/
def LeakFree (host : Host W) (s : State W) : Label W → Prop
  | .table (.call m) => m.registers 2 = 99 → (host.socket s.table.host).1 ≠ -1 →
      s.table.fileSystem.freeEntry 0 ≠ -1
  | .action _ (.check call current) => ∀ name, call.name = some name →
      call.kind = .update ∨ name ≠ current → (host.openFd s.table.host name false).1 = -1
  | .action _ (.startProcess2 _ filename) => (host.openFd s.table.host filename false).1 = -1
  | _ => True

/-- Who answers for an open descriptor; `lost` ones nobody can close. -/
inductive Owner where
  | device
  | slot (i : Fin 20)
  | load (t : ThreadId)
  | lost

def Owns (device lost : Set Word) (s : State W) : Owner → Word → Prop
  | .device, fd => fd ∈ device
  | .slot i, fd => ∃ fdType, s.table.fileSystem.Holds i fdType fd
  | .load t, fd => ∃ noffH, s.executable t = some (fd, noffH)
  | .lost, fd => fd ∈ lost

/-- Every open descriptor has its owner. -/
def Accounted (files : W → Word → Option Target) (device lost : Set Word) (s : State W) : Prop :=
  Ledger (fun fd => files s.table.host fd ≠ none) (Owns device lost s)

section

variable {host : Host W} {files : W → Word → Option Target} {device lost : Set Word}
  {s s' : State W} {m : Machine} {w : W} {fd : Word} {target : Target}

/-- The host has gone on; the entries and the loads are what they were. -/
theorem Accounted.quiet (h : Accounted files device lost s)
    (hopenf : s'.table.fileSystem.view.openf = s.table.fileSystem.view.openf)
    (hfiles : files s'.table.host = files s.table.host)
    (hexecutable : s'.executable = s.executable) : Accounted files device lost s' := by
  refine Ledger.congr h (fun fd => by rw [hfiles]) ?_
  intro o fd
  cases o with
  | device => exact Iff.rfl
  | slot i =>
    exact ⟨fun ⟨t, hi⟩ => ⟨t, FileSystem.holds_of_view hopenf hi⟩,
      fun ⟨t, hi⟩ => ⟨t, FileSystem.holds_of_view hopenf.symm hi⟩⟩
  | load t =>
    simp only [Owns, hexecutable]
  | lost => exact Iff.rfl

/-- What is open once one more descriptor is. -/
theorem update_ne_none_iff {f : Word → Option Target} {x : Word} :
    Function.update f fd (some target) x ≠ none ↔ x = fd ∨ f x ≠ none := by
  by_cases hx : x = fd
  · subst hx
    simp
  · simp [hx]

theorem update_none_ne_none_iff {f : Word → Option Target} {x : Word} :
    Function.update f fd none x ≠ none ↔ x ≠ fd ∧ f x ≠ none := by
  by_cases hx : x = fd
  · subst hx
    simp
  · simp [hx]

/-- An open file is put into an empty entry. -/
theorem Accounted.put (h : Accounted files device lost s) {i : Fin 20} {f : OpenFile}
    {tableDescriptor : Fin 20 → Option CString} (hempty : s.table.fileSystem.openf i = none)
    (hfresh : files s.table.host f.file = none)
    (hfiles : files w = Function.update (files s.table.host) f.file (some target)) :
    Accounted files device lost ⟨⟨{ s.table.fileSystem with
      openf := Function.update s.table.fileSystem.openf i (some f)
      tableDescriptor := tableDescriptor }, w⟩, s.executable⟩ := by
  refine Ledger.add h (.slot i) (not_not.mpr hfresh) (fun fd => ?_) ?_
  · show files w fd ≠ none ↔ _
    rw [hfiles, update_ne_none_iff]
  intro o fd
  cases o with
  | device => simp [Owns]
  | load t => simp [Owns]
  | lost => simp [Owns]
  | slot j =>
    constructor
    · rintro ⟨fdType, hj⟩
      rcases FileSystem.holds_update hj with ⟨rfl, f', hf', -, rfl⟩ | ⟨-, hold⟩
      · cases hf'
        exact .inl ⟨rfl, rfl⟩
      · exact .inr ⟨fdType, hold⟩
    · rintro (⟨hj, rfl⟩ | ⟨fdType, f', hf', hrest⟩)
      · cases hj
        exact ⟨_, f, Function.update_self .., rfl, rfl⟩
      · refine ⟨fdType, f', ?_, hrest⟩
        show Function.update s.table.fileSystem.openf i (some f) j = some f'
        rw [Function.update_of_ne, hf']
        rintro rfl
        cases hempty.symm.trans hf'

/-- The file in an entry is closed. -/
theorem Accounted.take (h : Accounted files device lost s) {i : Fin 20} {f : OpenFile}
    {tableDescriptor : Fin 20 → Option CString} (hf : s.table.fileSystem.openf i = some f)
    (hfiles : files w = Function.update (files s.table.host) f.file none) :
    Accounted files device lost ⟨⟨{ s.table.fileSystem with
      openf := Function.update s.table.fileSystem.openf i none
      tableDescriptor := tableDescriptor }, w⟩, s.executable⟩ := by
  have howns : Owns device lost s (.slot i) f.file := ⟨_, f, hf, rfl, rfl⟩
  refine Ledger.remove h howns (fun fd => ?_) ?_
  · show files w fd ≠ none ↔ _
    rw [hfiles, update_none_ne_none_iff]
  intro o fd
  cases o with
  | device => simp [Owns]
  | load t => simp [Owns]
  | lost => simp [Owns]
  | slot j =>
    constructor
    · rintro ⟨fdType, hj⟩
      rcases FileSystem.holds_update hj with ⟨-, f', hf', -⟩ | ⟨hne, hold⟩
      · cases hf'
      · exact ⟨fun heq => hne (Owner.slot.inj heq.1), fdType, hold⟩
    · rintro ⟨hne, fdType, f', hf', htype, hfile⟩
      refine ⟨fdType, f', ?_, htype, hfile⟩
      show Function.update s.table.fileSystem.openf i none j = some f'
      rw [Function.update_of_ne, hf']
      rintro rfl
      cases hf.symm.trans hf'
      exact hne ⟨rfl, hfile.symm⟩

/-- A thread that loads nothing has opened an executable. -/
theorem Accounted.load (h : Accounted files device lost s) {t : ThreadId} {noffH : NoffHeader}
    (hidle : s.executable t = none) (hfresh : files s.table.host fd = none)
    (hfiles : files w = Function.update (files s.table.host) fd (some target)) :
    Accounted files device lost ⟨{ s.table with host := w },
      Function.update s.executable t (some (fd, noffH))⟩ := by
  refine Ledger.add h (.load t) (not_not.mpr hfresh) (fun fd => ?_) ?_
  · show files w fd ≠ none ↔ _
    rw [hfiles, update_ne_none_iff]
  intro o x
  cases o with
  | device => simp [Owns]
  | slot i => simp [Owns]
  | lost => simp [Owns]
  | load u =>
    by_cases hu : u = t
    · subst hu
      simp [Owns, hidle, eq_comm]
    · simp [Owns, hu]

/-- The executable of a thread is closed. -/
theorem Accounted.loaded (h : Accounted files device lost s) {t : ThreadId} {noffH : NoffHeader}
    (ht : s.executable t = some (fd, noffH))
    (hfiles : files w = Function.update (files s.table.host) fd none) :
    Accounted files device lost ⟨{ s.table with host := w },
      Function.update s.executable t none⟩ := by
  have howns : Owns device lost s (.load t) fd := ⟨noffH, ht⟩
  refine Ledger.remove h howns (fun fd => ?_) ?_
  · show files w fd ≠ none ↔ _
    rw [hfiles, update_none_ne_none_iff]
  intro o x
  cases o with
  | device => simp [Owns]
  | slot i => simp [Owns]
  | lost => simp [Owns]
  | load u =>
    by_cases hu : u = t
    · subst hu
      simp [Owns, ht, eq_comm]
    · simp [Owns, hu]

/-- A descriptor has been opened that nobody remembers. -/
theorem Accounted.lose (h : Accounted files device lost s) (hfresh : files s.table.host fd = none)
    (hfiles : files w = Function.update (files s.table.host) fd (some target)) :
    Accounted files device (insert fd lost) { s with table := { s.table with host := w } } := by
  refine Ledger.add h .lost (not_not.mpr hfresh) (fun fd => ?_) ?_
  · show files w fd ≠ none ↔ _
    rw [hfiles, update_ne_none_iff]
  intro o x
  cases o with
  | device => simp [Owns]
  | slot i => simp [Owns]
  | load u => simp [Owns]
  | lost => simp [Owns]

/-- The account is exact as long as nothing is lost. -/
theorem Accounted.exact_iff (h : Accounted files device lost s) :
    Exact files device s ↔ lost = ∅ := by
  constructor
  · intro hexact
    rw [Set.eq_empty_iff_forall_notMem]
    intro fd hfd
    have hlost : Owns device lost s .lost fd := hfd
    rcases (hexact fd).mp (h.inUse_of_owns hlost) with hdevice | ⟨i, f, hf, hfile⟩ | ⟨t, noffH, ht⟩
    · have howns : Owns device lost s .device fd := hdevice
      cases h.unique hlost howns
    · have howns : Owns device lost s (.slot i) fd := ⟨_, f, hf, rfl, hfile⟩
      cases h.unique hlost howns
    · have howns : Owns device lost s (.load t) fd := ⟨noffH, ht⟩
      cases h.unique hlost howns
  · rintro rfl fd
    rw [h.inUse_iff fd]
    constructor
    · rintro ⟨o, ho⟩
      cases o with
      | device => exact .inl ho
      | slot i =>
        obtain ⟨_, f, hf, -, hfile⟩ := ho
        exact .inr (.inl ⟨i, f, hf, hfile⟩)
      | load t => exact .inr (.inr ⟨t, ho⟩)
      | lost => exact absurd ho (Set.notMem_empty fd)
    · rintro (hdevice | ⟨i, f, hf, hfile⟩ | ⟨t, ht⟩)
      · exact ⟨.device, hdevice⟩
      · exact ⟨.slot i, _, f, hf, rfl, hfile⟩
      · exact ⟨.load t, ht⟩

/-- What one step adds to the account of what is lost. -/
def Grows (host : Host W) (files : W → Word → Option Target) (device lost : Set Word)
    (s : State W) (l : Label W) (s' : State W) : Prop :=
  ∃ lost', lost ⊆ lost' ∧ Accounted files device lost' s' ∧
    (LeakFree host s l → lost' = lost) ∧ (¬ LeakFree host s l → lost'.Nonempty)

theorem Accounted.kept {l : Label W} (h : Accounted files device lost s')
    (hfree : LeakFree host s l) : Grows host files device lost s l s' :=
  ⟨lost, subset_rfl, h, fun _ => rfl, fun hleak => absurd hfree hleak⟩

theorem Accounted.grown {l : Label W} (h : Accounted files device (insert fd lost) s')
    (hleak : ¬ LeakFree host s l) : Grows host files device lost s l s' :=
  ⟨insert fd lost, Set.subset_insert _ _, h, fun hfree => absurd hfree hleak,
    fun _ => Set.insert_nonempty _ _⟩

theorem Accounted.call (hposix : host.Posix files) (h : Accounted files device lost s)
    {table : Descriptors.State W} (hs : Descriptors.step host s.table (.call m) = some table) :
    Grows host files device lost s (.table (.call m)) { s with table } := by
  by_cases hcall : m.registers 2 = 99
  · cases Descriptors.step_socketTCP hcall hs
    by_cases hfd : (host.socket s.table.host).1 = -1
    · rw [afterSocket_refused (.inl hfd)]
      refine Accounted.kept ?_ fun _ hne => absurd hfd hne
      exact h.quiet rfl (hposix.noSocket hfd) rfl
    obtain ⟨hfresh, hopened⟩ := hposix.socketed hfd
    rcases s.table.fileSystem.freeEntry_cases 0 with ⟨hfull, -⟩ | ⟨i, hi, -, hempty⟩
    · rw [afterSocket_refused (.inr hfull)]
      exact (h.lose hfresh hopened).grown fun hfree => hfree hcall hfd hfull
    · rw [afterSocket_granted hi hfd]
      refine (h.put hempty hfresh hopened).kept fun _ _ => ?_
      omega
  · have hfree : LeakFree host s (.table (.call m)) := fun hsocket => absurd hsocket hcall
    refine Accounted.kept ?_ hfree
    cases Descriptors.step_effect hs with
    | quiet hview hhost => exact h.quiet (congrArg _ hview) (hposix.files_eq hhost) rfl
    | created hfd hclose => exact h.quiet rfl (hposix.created hfd hclose) rfl
    | @opened i name _ _ hi _ =>
      have hempty := (FileSystem.freeEntry_eq_natCast hi).2
      by_cases hfd : (host.openFd s.table.host name false).1 = -1
      · rw [if_pos hfd, ← hempty, Function.update_eq_self]
        exact h.quiet rfl (hposix.notOpened hfd) rfl
      · rw [if_neg hfd]
        obtain ⟨hfresh, hopened⟩ := hposix.opened hfd
        exact h.put hempty hfresh hopened
    | closed _ _ hf hclose => exact h.take hf (hposix.close _ _ hclose)
    | noSocket hfd => exact h.quiet rfl (hposix.noSocket hfd) rfl
    | socketLost hsocket => exact absurd hsocket hcall
    | socket hsocket => exact absurd hsocket hcall

theorem evaluate_spec {α : Type} {t t' : Descriptors.State W} {x : Sys W α} {a : α}
    {Q : α → Kernel W → Prop} (hx : Ends x (t.kernel m) Q fun _ _ => True)
    (hs : evaluate t m x = some (a, t')) : ∃ k, Q a k ∧ t' = ⟨k.fileSystem, k.host⟩ := by
  unfold Ends at hx
  unfold evaluate at hs
  split at hs <;> rename_i heq
  · cases hs
    rw [heq] at hx
    exact ⟨_, hx, rfl⟩
  · cases hs

/-- The existence check of `ExecUpdate` and `ExecV`. -/
theorem Accounted.check (hposix : host.Posix files) (h : Accounted files device lost s)
    {call : PTable.ExecCall} {current : CString}
    (hs : perform host s m (.check call current) = some s') :
    Grows host files device lost s (.action m (.check call current)) s' := by
  obtain ⟨⟨found, table⟩, hcheck, heq⟩ := Option.bind_eq_some_iff.mp hs
  cases heq
  obtain ⟨k, hk, rfl⟩ := evaluate_spec ends_fileExists hcheck
  rcases hk with ⟨rfl, hnot⟩ | ⟨name, hname, hopens, rfl⟩
  · exact Accounted.kept h fun name hname hopens => absurd hopens (hnot name hname)
  · by_cases hfd : (host.openFd s.table.host name false).1 = -1
    · refine Accounted.kept (h.quiet rfl (hposix.notOpened hfd) rfl) ?_
      rintro name' hname' -
      cases hname.symm.trans hname'
      exact hfd
    · obtain ⟨hfresh, hopened⟩ := hposix.opened hfd
      exact (h.lose hfresh hopened).grown fun hfree => hfd (hfree name hname hopens)

/-- A start routine opens its file and reads the header. -/
theorem Accounted.begin (hposix : host.Posix files) (h : Accounted files device lost s)
    {t : ThreadId} {fileName : CString} (hidle : s.executable t = none) {k' : Kernel W}
    {e : Option (Word × NoffHeader)} (hbegun : Begun host fileName (s.table.kernel m) e k') :
    Accounted files device lost ⟨⟨k'.fileSystem, k'.host⟩, Function.update s.executable t e⟩ := by
  rcases hbegun with ⟨hfd, rfl, rfl⟩ | ⟨hfd, noffH, rfl, hcalm⟩
  · refine h.quiet rfl (hposix.notOpened hfd) ?_
    show Function.update s.executable t none = _
    rw [← hidle, Function.update_eq_self]
  · obtain ⟨hfresh, hopened⟩ := hposix.opened hfd
    exact (h.load hidle hfresh hopened).quiet (congrArg _ hcalm.view)
      (hposix.files_eq hcalm.answered) rfl

theorem begin_spec {t : ThreadId} {x : Sys W (Option (Word × NoffHeader))}
    {Q : Option (Word × NoffHeader) → Kernel W → Prop}
    (hx : Ends x (s.table.kernel m) Q fun _ _ => True) (hs : s.begin m t x = some s') :
    s.executable t = none ∧ ∃ e k, Q e k ∧
      s' = ⟨⟨k.fileSystem, k.host⟩, Function.update s.executable t e⟩ := by
  obtain ⟨hbusy, hs⟩ := Option.ite_none_left_eq_some.mp hs
  obtain ⟨⟨e, table⟩, hbegin, heq⟩ := Option.bind_eq_some_iff.mp hs
  cases heq
  obtain ⟨k, hk, rfl⟩ := evaluate_spec hx hbegin
  exact ⟨Option.not_isSome_iff_eq_none.mp hbusy, e, k, hk, rfl⟩

theorem Accounted.startProcess2 (hposix : host.Posix files) (h : Accounted files device lost s)
    {t : ThreadId} {filename : CString}
    (hs : perform host s m (.startProcess2 t filename) = some s') :
    Grows host files device lost s (.action m (.startProcess2 t filename)) s' := by
  obtain ⟨hidle, e, k, hcases, rfl⟩ := begin_spec ends_beginProcess2 hs
  rcases hcases with ⟨hfd, rfl, rfl⟩ | ⟨hfd, hbegun⟩
  · exact Accounted.kept (h.begin hposix hidle (.inl ⟨hfd, rfl, rfl⟩)) hfd
  · obtain ⟨hfresh, hopened⟩ := hposix.opened hfd
    have hlost := h.lose hfresh hopened
    exact (hlost.begin hposix hidle hbegun).grown fun hfree => hfd hfree

theorem Accounted.step (hposix : host.Posix files) (h : Accounted files device lost s)
    {l : Label W} (hu : Undisturbed files s l) (hs : HostDescriptors.step host s l = some s') :
    Grows host files device lost s l s' := by
  cases l with
  | table l =>
    obtain ⟨table, htable, heq⟩ := Option.bind_eq_some_iff.mp hs
    cases heq
    cases l with
    | call m => exact h.call hposix htable
    | elsewhere w =>
      cases htable
      exact Accounted.kept (h.quiet rfl hu rfl) trivial
  | action m a =>
    cases a with
    | check call current => exact h.check hposix hs
    | startProcess1 t fileName =>
      obtain ⟨hidle, e, k, hbegun, rfl⟩ := begin_spec ends_beginLoad hs
      exact Accounted.kept (h.begin hposix hidle hbegun) trivial
    | startProcess2 t filename => exact h.startProcess2 hposix hs
    | load t gPhysPageBitMap =>
      obtain ⟨⟨executable, noffH⟩, ht, hs⟩ := Option.bind_eq_some_iff.mp hs
      obtain ⟨⟨construction, table⟩, hload, heq⟩ := Option.bind_eq_some_iff.mp hs
      cases heq
      obtain ⟨k, ⟨k₁, hcalm, hclose, rfl⟩, rfl⟩ := evaluate_spec (closes_finishLoad _ _ _ _) hload
      refine Accounted.kept ?_ trivial
      have hquiet : Accounted files device lost ⟨⟨k₁.fileSystem, k₁.host⟩, s.executable⟩ :=
        h.quiet (congrArg _ hcalm.view) (hposix.files_eq hcalm.answered) rfl
      exact hquiet.loaded ht (hposix.close _ _ hclose)

/-- The account over a whole run. -/
theorem Accounted.run (hposix : host.Posix files) {ls : List (Label W)}
    (h : Accounted files device lost s)
    (hrun : Runs.exec (HostDescriptors.step host) s ls = some s')
    (hu : Runs.Always (HostDescriptors.step host) (Undisturbed files) s ls) :
    ∃ lost', lost ⊆ lost' ∧ Accounted files device lost' s' ∧
      (Runs.Always (HostDescriptors.step host) (LeakFree host) s ls → lost' = lost) ∧
      (¬ Runs.Always (HostDescriptors.step host) (LeakFree host) s ls → lost'.Nonempty) := by
  induction ls generalizing s lost with
  | nil =>
    cases hrun
    exact ⟨lost, subset_rfl, h, fun _ => rfl, fun hnot => absurd trivial hnot⟩
  | cons l ls ih =>
    obtain ⟨s₁, hs, hrest⟩ := Option.bind_eq_some_iff.mp hrun
    obtain ⟨lost₁, hsub₁, h₁, hkept, hgrown⟩ := h.step hposix hu.1 hs
    obtain ⟨lost', hsub', h', hkept', hgrown'⟩ := ih h₁ hrest (hu.2 s₁ hs)
    refine ⟨lost', hsub₁.trans hsub', h', ?_, ?_⟩
    · intro hfree
      rw [hkept' (hfree.2 s₁ hs), hkept hfree.1]
    · intro hleak
      by_cases hfree : LeakFree host s l
      · apply hgrown'
        intro hall
        refine hleak ⟨hfree, ?_⟩
        intro u hu
        cases hs.symm.trans hu
        exact hall
      · exact (hgrown hfree).mono hsub'

/-- `Open` in the constructor of the file system, into an empty entry. -/
theorem Accounted.openFile (hposix : host.Posix files) (h : Accounted files device lost s)
    {i : Fin 20} (hempty : s.table.fileSystem.openf i = none) (name : CString) (fdType : ℤ) :
    Accounted files device lost ⟨⟨{ s.table.fileSystem with
      openf := Function.update s.table.fileSystem.openf i
        (if (host.openFd s.table.host name false).1 = -1 then none
          else some (OpenFile.new (host.openFd s.table.host name false).1 fdType 0)) },
      (host.openFd s.table.host name false).2⟩, s.executable⟩ := by
  by_cases hfd : (host.openFd s.table.host name false).1 = -1
  · rw [if_pos hfd, ← hempty, Function.update_eq_self]
    exact h.quiet rfl (hposix.notOpened hfd) rfl
  · rw [if_neg hfd]
    obtain ⟨hfresh, hopened⟩ := hposix.opened hfd
    have hfile : (OpenFile.new (host.openFd s.table.host name false).1 fdType 0).file =
        (host.openFd s.table.host name false).1 := by
      unfold OpenFile.new
      split <;> rfl
    rw [← hfile] at hfresh hopened
    exact h.put hempty hfresh hopened

/-- The start, when only the file system has opened anything. -/
theorem accounted_boot (hposix : host.Posix files) {s₀ : Descriptors.State W}
    (hboot : Descriptors.boot host w m = some s₀) :
    Accounted files {fd | files w fd ≠ none} ∅ ⟨s₀, fun _ => none⟩ := by
  have hnew : Ends (FileSystem.new host) ⟨m, FileSystem.blank, w⟩ _ _ := Descriptors.ends_new
  unfold Ends at hnew
  unfold Descriptors.boot at hboot
  split at hboot <;> rename_i heq <;> rw [heq] at hnew
  · cases hboot
    obtain ⟨w₁, hw₁, rfl⟩ := hnew
    have hblank : Accounted files {fd | files w fd ≠ none} ∅
        ⟨⟨FileSystem.blank, w₁⟩, fun _ => none⟩ := by
      have hdevice : ∀ {o fd}, Owns {fd | files w fd ≠ none} ∅
          ⟨⟨FileSystem.blank, w₁⟩, fun _ => none⟩ o fd → o = .device := by
        rintro (_ | i | t | _) fd ho
        · rfl
        · obtain ⟨_, f, hf, -⟩ := ho
          cases hf
        · obtain ⟨_, ht⟩ := ho
          cases ht
        · exact absurd ho (Set.notMem_empty fd)
      refine ⟨fun fd => ?_, fun ho ho' => (hdevice ho).trans (hdevice ho').symm⟩
      show files w₁ fd ≠ none ↔ _
      rw [hw₁ hposix]
      refine ⟨fun hfd => ⟨.device, hfd⟩, ?_⟩
      rintro ⟨o, ho⟩
      cases hdevice ho
      exact ho
    have hstdin := hblank.openFile hposix (i := 0) rfl FileSystem.stdinName 2
    have hstdout := hstdin.openFile hposix (i := 1) rfl FileSystem.stdoutName 3
    exact hstdout.quiet rfl rfl rfl
  · cases hboot

/-- The state after `Kernel::Initialize` is in order. -/
theorem Initialized.accounted (hposix : host.Posix files)
    (h : Initialized host files device s) : Accounted files device ∅ s := by
  obtain ⟨w, m, s₀, hboot, hfs, hkept, hdevice⟩ := h.exists_boot
  refine Ledger.extend (accounted_boot hposix hboot) .device (X := fun fd =>
    files s.table.host fd ≠ none ∧ files s₀.host fd = none) ?_ ?_ ?_
  · intro fd hfd
    exact not_not.mpr hfd.2
  · intro fd
    constructor
    · intro hfd
      by_cases hold : files s₀.host fd = none
      · exact .inl ⟨hfd, hold⟩
      · exact .inr hold
    · rintro (hfd | hold)
      · exact hfd.1
      · rwa [hkept fd hold]
  · intro o fd
    cases o with
    | device => simp [Owns, hdevice, or_comm]
    | slot i => simp [Owns, hfs]
    | load t => simp [Owns, h.executable]
    | lost => simp [Owns]

end

/-- In every run in which the rest of the kernel neither opens nor closes anything: the open
descriptors are exactly those that somebody answers for if and only if no step of the run has
opened one that the kernel forgets. -/
theorem descriptors_exact_iff (host : Host W) (files : W → Word → Option Target)
    (hposix : host.Posix files) {device : Set Word} {s₀ s : State W} {ls : List (Label W)}
    (hinitialized : Initialized host files device s₀)
    (hrun : Runs.exec (HostDescriptors.step host) s₀ ls = some s)
    (hu : Runs.Always (HostDescriptors.step host) (Undisturbed files) s₀ ls) :
    Exact files device s ↔ Runs.Always (HostDescriptors.step host) (LeakFree host) s₀ ls := by
  obtain ⟨lost, -, h, hkept, hgrown⟩ :=
    (hinitialized.accounted hposix).run hposix hrun hu
  rw [h.exact_iff]
  constructor
  · rintro rfl
    by_contra hleak
    exact (hgrown hleak).ne_empty rfl
  · exact hkept

/-- The start on a host where nothing is open and there are these files. -/
theorem initialized_small {existing : List CString} {m : Machine}
    {s₀ : Descriptors.State SmallWorld}
    (hboot : Descriptors.boot SmallWorld.host ⟨existing, fun _ => none⟩ m = some s₀) :
    Initialized SmallWorld.host SmallWorld.descriptors ∅ ⟨s₀, fun _ => none⟩ := by
  refine ⟨⟨_, m, s₀, hboot, rfl, fun _ _ => rfl, ?_⟩, fun _ => rfl⟩
  intro fd
  constructor
  · exact fun hfd => absurd hfd (Set.notMem_empty fd)
  · rintro (hfd | ⟨hsome, hnone⟩)
    · exact absurd rfl hfd
    · exact absurd hnone hsome

/-- A process opens the file `a`; another one calls `Exec` with the name of no file. -/
def openThenExec : List (Label SmallWorld) :=
  [.table (.call (Descriptors.callWithName 6)),
    .action (Descriptors.callWithName 2) (.check ⟨.update, some nameB⟩ nameC)]

theorem descriptors_exact_openThenExec : ∃ s₀ s : State SmallWorld,
    Runs.exec (HostDescriptors.step SmallWorld.host) s₀ openThenExec = some s ∧
    (s.table.fileSystem.openf 2).isSome ∧ Exact SmallWorld.descriptors ∅ s := by
  have hview : ((Descriptors.boot SmallWorld.host ⟨[nameA], fun _ => none⟩
      (Descriptors.callWithName 0)).bind fun s₀ =>
      (HostDescriptors.step SmallWorld.host ⟨s₀, fun _ => none⟩
        (.table (.call (Descriptors.callWithName 6)))).bind fun s₁ =>
      (HostDescriptors.step SmallWorld.host s₁ (.action (Descriptors.callWithName 2)
        (.check ⟨.update, some nameB⟩ nameC))).map fun s =>
          ((SmallWorld.host.openFd s₁.table.host nameB false).1,
            (s.table.fileSystem.openf 2).isSome)) = some (-1, true) := by
    decide +kernel
  obtain ⟨s₀, hboot, hview⟩ := Option.bind_eq_some_iff.mp hview
  obtain ⟨s₁, hs₁, hview⟩ := Option.bind_eq_some_iff.mp hview
  obtain ⟨s, hs, hview⟩ := Option.map_eq_some_iff.mp hview
  obtain ⟨hfd, hopen⟩ := by simpa only [Prod.mk.injEq] using hview
  have hrun : Runs.exec (HostDescriptors.step SmallWorld.host) ⟨s₀, fun _ => none⟩
      openThenExec = some s :=
    Option.bind_eq_some_iff.mpr ⟨s₁, hs₁, Option.bind_eq_some_iff.mpr ⟨s, hs, rfl⟩⟩
  refine ⟨_, s, hrun, hopen, ?_⟩
  rw [descriptors_exact_iff SmallWorld.host _ SmallWorld.posix (initialized_small hboot) hrun
    ⟨trivial, fun _ _ => ⟨trivial, fun _ _ => trivial⟩⟩]
  refine ⟨fun hsocket => absurd hsocket (by decide), fun t ht => ⟨?_, fun _ _ => trivial⟩⟩
  cases hs₁.symm.trans ht
  intro name hname _
  cases hname
  exact hfd

/-- Process `a` calls `Exec("a")` and is refused; the descriptor of the check stays open. -/
theorem descriptors_leak_exec : ∃ s₀ s : State SmallWorld,
    Initialized SmallWorld.host SmallWorld.descriptors ∅ s₀ ∧
    Runs.exec (HostDescriptors.step SmallWorld.host) s₀
      [.table (.call (Descriptors.callWithName 2)),
        .action (Descriptors.callWithName 2) (.check ⟨.update, some nameA⟩ nameA)] = some s ∧
    ¬ Exact SmallWorld.descriptors ∅ s := by
  have hview : ((Descriptors.boot SmallWorld.host ⟨[nameA], fun _ => none⟩
      (Descriptors.callWithName 0)).bind fun s₀ =>
      (HostDescriptors.step SmallWorld.host ⟨s₀, fun _ => none⟩
        (.table (.call (Descriptors.callWithName 2)))).bind fun s₁ =>
      (HostDescriptors.step SmallWorld.host s₁ (.action (Descriptors.callWithName 2)
        (.check ⟨.update, some nameA⟩ nameA))).map fun _ =>
          (SmallWorld.host.openFd s₁.table.host nameA false).1) = some 2 := by
    decide +kernel
  obtain ⟨s₀, hboot, hview⟩ := Option.bind_eq_some_iff.mp hview
  obtain ⟨s₁, hs₁, hview⟩ := Option.bind_eq_some_iff.mp hview
  obtain ⟨s, hs, hfd⟩ := Option.map_eq_some_iff.mp hview
  have hrun : Runs.exec (HostDescriptors.step SmallWorld.host) ⟨s₀, fun _ => none⟩
      [.table (.call (Descriptors.callWithName 2)), .action (Descriptors.callWithName 2)
        (.check ⟨.update, some nameA⟩ nameA)] = some s :=
    Option.bind_eq_some_iff.mpr ⟨s₁, hs₁, Option.bind_eq_some_iff.mpr ⟨s, hs, rfl⟩⟩
  have hinitialized := initialized_small hboot
  refine ⟨_, s, hinitialized, hrun, ?_⟩
  obtain ⟨lost, -, haccounted, -, hgrown⟩ :=
    (hinitialized.accounted SmallWorld.posix).run SmallWorld.posix hrun
      ⟨trivial, fun _ _ => ⟨trivial, fun _ _ => trivial⟩⟩
  rw [haccounted.exact_iff]
  intro hempty
  refine (hgrown ?_).ne_empty hempty
  intro hall
  have hfailed : (SmallWorld.host.openFd s₁.table.host nameA false).1 = -1 :=
    (hall.2 s₁ hs₁).1 nameA rfl (.inl rfl)
  rw [hfd] at hfailed
  cases hfailed

end HostDescriptors
end Nachos

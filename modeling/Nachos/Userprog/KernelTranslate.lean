import Nachos.Machine.Effects
import Nachos.Userprog.AddrSpace

/-! The translation that the kernel does itself (`AddrSpace::Translate` in
`userprog/addrspace.cc`), against that of the machine. -/
namespace Nachos.AddrSpace

/-- `AddrSpace::Translate`. The frame number is an `int` here, and the physical address an
`unsigned int`. There is no result when the assertion fails. -/
def translate (space : AddrSpace) (vaddr : Word) (isReadWrite : Bool) :
    Option (Except ExceptionType (ℕ × AddrSpace)) := do
  let vpn := vaddr.toNat / PageSize
  let offset := vaddr.toNat % PageSize
  if vpn ≥ space.numPages then return .error .addressErrorException
  let pte ← space.pageTable[vpn]?
  if isReadWrite && pte.readOnly then return .error .readOnlyException
  let pfn := pte.physicalPage
  if pfn ≥ NumPhysPages then return .error .busErrorException
  let paddr := uint32 (pfn * PageSize + offset)
  if paddr < MemorySize then
    return .ok (paddr, ⟨space.pageTable.set vpn (pte.touch isReadWrite)⟩)
  else none

/-- An access through the table, by either routine. -/
inductive Access where
  | kernel (vaddr : Word) (isReadWrite : Bool)
  | machine (virtAddr : Word) (size : ℕ) (writing : Bool)

/-- The space after an access; an exception leaves it as it is. -/
def access (space : AddrSpace) : Access → Option AddrSpace
  | .kernel vaddr isReadWrite => do
    match ← space.translate vaddr isReadWrite with
    | .error _ => return space
    | .ok (_, space) => return space
  | .machine virtAddr size writing => do
    match ← Nachos.translate (some space.pageTable) space.numPages virtAddr size writing with
    | .error _ => return space
    | .ok (_, pageTable) => return ⟨pageTable⟩

/-- Every page is valid and in a frame of the memory. -/
def Sound (space : AddrSpace) : Prop :=
  ∀ entry ∈ space.pageTable, entry.valid = true ∧
    ∃ frame : ℕ, frame < NumPhysPages ∧ entry.physicalPage = frame

variable {space space' : AddrSpace}

/-- The use and dirty bits are all that an access sets. -/
theorem Sound.set (h : Sound space) {vpn : ℕ} {entry : TranslationEntry}
    (hentry : space.pageTable[vpn]? = some entry) (writing : Bool) :
    Sound ⟨space.pageTable.set vpn (entry.touch writing)⟩ := by
  intro e he
  rcases List.mem_or_eq_of_mem_set he with he | rfl
  · exact h e he
  · exact h entry (List.mem_of_getElem? hentry)

theorem sound_new {executable : Option HostFile} {bm bm' : Bitmap NumPhysPages}
    {writes : List ByteStore.Patch} (h : new executable bm = some (.loaded space bm' writes)) :
    Sound space := by
  cases executable with
  | none => cases h
  | some file =>
    obtain ⟨noffH, -, h⟩ := Option.bind_eq_some_iff.mp h
    rcases locked_cases h with ⟨hr, -⟩ | ⟨_, _, _, hr, ⟨hload⟩⟩
    · cases hr
    cases hr
    intro entry he
    obtain ⟨k, hk⟩ := List.getElem?_of_mem he
    rw [hload.space_eq, getElem?_tableOf] at hk
    obtain ⟨frame, hframe, rfl⟩ := Option.map_eq_some_iff.mp hk
    exact ⟨rfl, frame, (mem_chosenFrames (List.mem_of_getElem? hframe)).1, rfl⟩

/-- What both routines answer, and the same table behind them. -/
def Agree (space : AddrSpace) (vaddr : Word) (mode : Bool)
    (result : Except ExceptionType (ℕ × AddrSpace)) : Prop :=
  space.translate vaddr mode = some result ∧
    Nachos.translate (some space.pageTable) space.numPages vaddr 1 mode =
      some (result.map fun r => (r.1, r.2.pageTable))

theorem agree_outside {vaddr : Word} (hout : vaddr.toNat / PageSize ≥ space.numPages)
    (mode : Bool) : Agree space vaddr mode (.error .addressErrorException) := by
  have haligned : misaligned vaddr 1 = false := by simp [misaligned]
  constructor
  · rw [AddrSpace.translate, if_pos hout]
    rfl
  · rw [Nachos.translate, haligned, if_neg Bool.false_ne_true]
    simp only [Option.bind_eq_bind, Option.bind_some, if_pos hout]
    rfl

theorem agree_readOnly {vaddr : Word} (hin : ¬vaddr.toNat / PageSize ≥ space.numPages)
    {entry : TranslationEntry} (hentry : space.pageTable[vaddr.toNat / PageSize]? = some entry)
    (hvalid : entry.valid = true) (hro : entry.readOnly = true) :
    Agree space vaddr true (.error .readOnlyException) := by
  have haligned : misaligned vaddr 1 = false := by simp [misaligned]
  constructor
  · rw [AddrSpace.translate, if_neg hin, hentry]
    simp [hro]
  · rw [Nachos.translate, haligned, if_neg Bool.false_ne_true]
    simp only [Option.bind_eq_bind, Option.bind_some, if_neg hin, hentry]
    simp [hvalid, hro, Except.map]

theorem agree_ok {vaddr : Word} {mode : Bool} (hin : ¬vaddr.toNat / PageSize ≥ space.numPages)
    {entry : TranslationEntry} (hentry : space.pageTable[vaddr.toNat / PageSize]? = some entry)
    (hvalid : entry.valid = true) (hallowed : (entry.readOnly && mode) = false) {frame : ℕ}
    (hframe : frame < NumPhysPages) (hpage : entry.physicalPage = frame) :
    Agree space vaddr mode (.ok (frame * PageSize + vaddr.toNat % PageSize,
      ⟨space.pageTable.set (vaddr.toNat / PageSize) (entry.touch mode)⟩)) := by
  have haligned : misaligned vaddr 1 = false := by simp [misaligned]
  have hpfn := pageFrame_of_physicalPage hpage hframe
  have hoffset := Nat.mod_lt vaddr.toNat (show 0 < PageSize by decide)
  have hmemory : frame * PageSize + vaddr.toNat % PageSize + 1 ≤ MemorySize := by
    simp only [NumPhysPages, MemorySize, PageSize] at *
    omega
  have hpaddr : uint32 ((frame : ℤ) * (PageSize : ℕ) + ((vaddr.toNat % PageSize : ℕ) : ℤ)) =
      frame * PageSize + vaddr.toNat % PageSize := by
    unfold uint32
    simp only [NumPhysPages, MemorySize, PageSize] at *
    omega
  have hbus : ¬(frame : ℤ) ≥ (NumPhysPages : ℕ) := by omega
  constructor
  · rw [AddrSpace.translate, if_neg hin, hentry]
    simp only [Option.bind_eq_bind, Option.bind_some, Bool.and_comm mode, hallowed,
      Bool.false_eq_true, if_false, hpage, if_neg hbus, hpaddr, if_pos (Nat.lt_of_succ_le hmemory)]
    rfl
  · refine translate_eq_ok_iff.mpr ⟨space.pageTable, entry, rfl, ?_, rfl⟩
    exact ⟨haligned, not_le.mp hin, hentry, hvalid, hallowed, hpfn ▸ hframe, by rw [hpfn], hmemory⟩

/-- On a sound table the routines never differ. -/
theorem Sound.agree (h : Sound space) (vaddr : Word) (mode : Bool) :
    ∃ result, Agree space vaddr mode result := by
  by_cases hout : vaddr.toNat / PageSize ≥ space.numPages
  · exact ⟨_, agree_outside hout mode⟩
  · have hlt : vaddr.toNat / PageSize < space.pageTable.length := not_le.mp hout
    have hentry := List.getElem?_eq_getElem hlt
    obtain ⟨hvalid, frame, hframe, hpage⟩ := h _ (List.getElem_mem hlt)
    cases hallowed : (space.pageTable[vaddr.toNat / PageSize].readOnly && mode) with
    | true =>
      obtain ⟨hro, rfl⟩ := Bool.and_eq_true_iff.mp hallowed
      exact ⟨_, agree_readOnly hout hentry hvalid hro⟩
    | false => exact ⟨_, agree_ok hout hentry hvalid hallowed hframe hpage⟩

/-- A translation that raises no exception has touched one entry. -/
theorem translate_touch {vaddr : Word} {mode : Bool} {paddr : ℕ}
    (h : space.translate vaddr mode = some (.ok (paddr, space'))) :
    ∃ entry, space.pageTable[vaddr.toNat / PageSize]? = some entry ∧
      space' = ⟨space.pageTable.set (vaddr.toNat / PageSize) (entry.touch mode)⟩ := by
  unfold translate at h
  simp only [Option.bind_eq_bind, Option.pure_def] at h
  split at h
  · cases h
  obtain ⟨entry, hentry, h⟩ := Option.bind_eq_some_iff.mp h
  split at h
  · cases h
  split at h
  · cases h
  split at h
  · simp only [Option.some.injEq, Except.ok.injEq, Prod.mk.injEq] at h
    exact ⟨entry, hentry, h.2.symm⟩
  · cases h

theorem Sound.access (h : Sound space) {a : Access} (ha : access space a = some space') :
    Sound space' := by
  cases a with
  | kernel vaddr isReadWrite =>
    obtain ⟨result, hresult, ha⟩ := Option.bind_eq_some_iff.mp ha
    cases result with
    | error _ =>
      cases ha
      exact h
    | ok result =>
      cases ha
      obtain ⟨entry, hentry, hspace⟩ := translate_touch hresult
      rw [hspace]
      exact h.set hentry isReadWrite
  | machine virtAddr size writing =>
    obtain ⟨result, hresult, ha⟩ := Option.bind_eq_some_iff.mp ha
    cases result with
    | error _ =>
      cases ha
      exact h
    | ok result =>
      cases ha
      obtain ⟨_, entry, ⟨⟩, ht, htouched⟩ := translate_eq_ok_iff.mp hresult
      rw [htouched]
      exact h.set ht.entry_eq writing

theorem Sound.accesses (accesses : List Access) : ∀ {space : AddrSpace}, Sound space →
    accesses.foldlM AddrSpace.access space = some space' → Sound space' := by
  induction accesses with
  | nil =>
    intro space h hrun
    cases hrun
    exact h
  | cons a accesses ih =>
    intro space h hrun
    rw [List.foldlM_cons] at hrun
    obtain ⟨mid, hmid, hrun⟩ := Option.bind_eq_some_iff.mp hrun
    exact ih (h.access hmid) hrun

/-- Of a table that the constructor has built, whatever has been accessed through it since,
both routines give the same exception, or the same address and the same use and dirty bits. -/
theorem translations_agree {executable : Option HostFile} {bm bm' : Bitmap NumPhysPages}
    {writes : List ByteStore.Patch} {accesses : List Access}
    (h : new executable bm = some (.loaded space bm' writes))
    (hrun : accesses.foldlM access space = some space') (vaddr : Word) (mode : Bool) :
    ∃ result, space'.translate vaddr mode = some result ∧
      Nachos.translate (some space'.pageTable) space'.numPages vaddr 1 mode =
        some (result.map fun r => (r.1, r.2.pageTable)) :=
  (Sound.accesses accesses (sound_new h) hrun).agree vaddr mode

/-- The stack's first byte, after a store by the kernel, a load by the machine and an
address that both refuse. -/
theorem translations_agree_tinyProgram : ∃ bm space bm' writes space',
    Bitmap.new NumPhysPages = some bm ∧
    new (some tinyProgram) bm = some (.loaded space bm' writes) ∧
    [Access.kernel 0 true, .machine 256 4 false, .kernel 8192 false].foldlM access space =
      some space' ∧
    ∃ result, space'.translate 128 true = some result ∧
      Nachos.translate (some space'.pageTable) space'.numPages 128 1 true =
        some (result.map fun r => (r.1, r.2.pageTable)) := by
  have hall : ((Bitmap.new NumPhysPages).bind fun bm => (new (some tinyProgram) bm).bind fun
      | .loaded space _ _ => ([Access.kernel 0 true, .machine 256 4 false,
          .kernel 8192 false].foldlM access space).map numPages
      | _ => none) = some 33 := by decide +kernel
  obtain ⟨bm, hbm, hall⟩ := Option.bind_eq_some_iff.mp hall
  obtain ⟨result, hnew, hall⟩ := Option.bind_eq_some_iff.mp hall
  cases result with
  | notOpened => cases hall
  | refused => cases hall
  | loaded space bm' writes =>
    obtain ⟨space', hrun, -⟩ := Option.map_eq_some_iff.mp hall
    exact ⟨bm, space, bm', writes, space', hbm, hnew, hrun, translations_agree hnew hrun 128 true⟩

end Nachos.AddrSpace

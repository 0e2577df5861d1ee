import Nachos.Threads.ArgumentBlock

/-! The arguments of `ExecV`. `StartProcess_2` writes them while the machine still holds the
page table and the stack pointer of the process that ran last, and installs the new space
afterwards. So the block goes where that table sends it, to the frames of that process, at an
address taken from its stack pointer. -/
namespace Nachos

/-- The machine after the constructor has put the new table in place. -/
def StartEnv.loaded (env : StartEnv) (space : AddrSpace) : Machine :=
  { env.machine with
    tables := Function.update env.machine.tables env.tableAddress space.pageTable }

/-- `argc` and `argv` have reached the new process, and no frame that belonged to another
process has changed. -/
structure ArgumentsPassed (env : StartEnv) (space : AddrSpace) (argv : List CString)
    (m : Machine) : Prop where
  installed : m.pageTable = some env.tableAddress ∧ m.pageTableSize = space.numPages
  argc : m.registers 4 = BitVec.ofNat 32 argv.length
  block : ArgumentBlock (m.tables env.tableAddress) m.pageTableSize m.mainMemory argv
    (m.registers 5)
  others : ∀ frame < NumPhysPages, env.gPhysPageBitMap.mem frame = true →
    ∀ a : ℤ, (frame * PageSize : ℕ) ≤ a → a < (frame * PageSize + PageSize : ℕ) →
      m.mainMemory a = env.machine.mainMemory a

/-- The machine that `RestoreState` would have made of it, before anything was written. -/
def StartEnv.installed (env : StartEnv) (space : AddrSpace) : Machine :=
  AddrSpace.restoreState ⟨some env.tableAddress, space.numPages⟩ (env.loaded space)

/-- The table that the machine holds sends the block, and the terminator behind it, where the
new table is going to look for them. -/
def SharesTable (env : StartEnv) (space : AddrSpace) (argv : List CString) : Prop :=
  ∀ k ≤ copyOffset argv argv.length,
    (stackBottom env.machine + BitVec.ofNat 32 k).toNat / PageSize < space.numPages ∧
      ((env.loaded space).table.getD []).physIndex (stackBottom env.machine + BitVec.ofNat 32 k) =
        space.pageTable.physIndex (stackBottom env.machine + BitVec.ofNat 32 k)

/-- The frames that the machine still translates to belong to a process. -/
def LastAlive (env : StartEnv) (space : AddrSpace) : Prop :=
  ∀ table, (env.loaded space).table = some table →
    ∀ entry ∈ table, env.gPhysPageBitMap.mem entry.pageFrame = true

/-- Machine `m'` is what the given calls of `WriteMem` make of `m`. -/
structure Wrote (m : Machine) (ws : List MemWrite) (m' : Machine) : Prop where
  confined : m.Confined m'
  memory : m'.mainMemory = ByteStore.patchAll m.mainMemory
    (ws.map fun w => w.through (m.table.getD []))
  writable : ∀ w ∈ ws, m.Writable (w.addr, w.size)

theorem PageTable.physIndex_congr {table table' : PageTable}
    (h : table'.map TranslationEntry.mapping = table.map TranslationEntry.mapping) (v : Word) :
    table'.physIndex v = table.physIndex v := by
  have hget : table'[v.toNat / PageSize]?.map TranslationEntry.mapping =
      table[v.toNat / PageSize]?.map TranslationEntry.mapping := by
    rw [← List.getElem?_map, h, List.getElem?_map]
  unfold physIndex
  cases he : table[v.toNat / PageSize]? with
  | none =>
    rw [he, Option.map_none, Option.map_eq_none_iff] at hget
    rw [hget]
  | some entry =>
    rw [he, Option.map_some] at hget
    obtain ⟨entry', he', hm⟩ := Option.map_eq_some_iff.mp hget
    rw [he']
    simp only [TranslationEntry.pageFrame_congr hm]

theorem Translated.physIndex_eq {table : PageTable} {pageTableSize size physAddr : ℕ}
    {virtAddr : Word} {writing : Bool} {entry : TranslationEntry}
    (h : Translated table pageTableSize virtAddr size writing physAddr entry) :
    table.physIndex virtAddr = physAddr := by
  unfold PageTable.physIndex
  rw [h.entry_eq]
  exact h.physAddr_eq.symm

/-- The installed table keeps its mappings, so it sends every address to the same place. -/
theorem Machine.Confined.physIndex_eq {m m' : Machine} (h : m.Confined m') (v : Word) :
    (m'.table.getD []).physIndex v = (m.table.getD []).physIndex v := by
  unfold table
  rw [h.pageTable]
  cases m.pageTable with
  | none => rfl
  | some address => exact PageTable.physIndex_congr (h.mapping address) v

namespace Wrote

theorem refl (m : Machine) : Wrote m [] m := ⟨.refl m, rfl, by simp⟩

theorem append {m m₁ m₂ : Machine} {ws ws' : List MemWrite} (h : Wrote m ws m₁)
    (h' : Wrote m₁ ws' m₂) : Wrote m (ws ++ ws') m₂ := by
  refine ⟨h.confined.trans h'.confined, ?_, ?_⟩
  · rw [List.map_append, ByteStore.patchAll_append, ← h.memory, h'.memory]
    congr 1
    refine List.map_congr_left fun w _ => ?_
    unfold MemWrite.through
    rw [h.confined.physIndex_eq]
  · intro w hw
    rcases List.mem_append.mp hw with hw | hw
    · exact h.writable w hw
    · exact (h.confined.writable_iff _).mp (h'.writable w hw)

end Wrote

namespace Sim

theorem writeMem_wrote {addr : Word} {size : ℕ} {value : Word} {m m' : Machine}
    (h : writeMem addr size value m = .ok () m') : Wrote m [⟨addr, size, value⟩] m' := by
  have hc := (keeps_writeMem addr size value).confined h
  obtain ⟨address, physAddr, entry, hp, htr, rfl⟩ := writeMem_ok h
  have htable : m.table = some (m.tables address) := by
    rw [Machine.table, hp]
    rfl
  refine ⟨hc, ?_, ?_⟩
  · simp [MemWrite.through, htable, htr.physIndex_eq]
  · intro w hw
    rw [List.mem_singleton.mp hw]
    exact ⟨_, physAddr, entry, htable, htr⟩

theorem writeChars_wrote {virtAddr : Word} {chars : List UInt8} :
    ∀ (before : List UInt8) {m m' : Machine} {r : ℕ}, 0 ∉ chars →
      writeChars virtAddr (before ++ chars) before.length chars.length m = .ok r m' →
      r = before.length + chars.length ∧ Wrote m (charWrites virtAddr before.length chars) m' := by
  induction chars with
  | nil =>
    intro before m m' r _ h
    cases h
    exact ⟨rfl, .refl m⟩
  | cons ch rest ih =>
    intro before m m' r hzero h
    have hch : (before ++ ch :: rest).getD before.length 0 = ch := by simp
    have hne : ch ≠ 0 := fun heq => hzero (heq ▸ List.mem_cons_self)
    simp only [List.length_cons, writeChars, hch, if_neg hne] at h
    obtain ⟨_, m₁, hw, hrest⟩ := bind_eq_ok_iff.mp h
    rw [show before ++ ch :: rest = (before ++ [ch]) ++ rest by simp,
      show before.length + 1 = (before ++ [ch]).length by simp] at hrest
    obtain ⟨hr, hwrote⟩ := ih _ (fun hm => hzero (List.mem_cons_of_mem _ hm)) hrest
    refine ⟨by rw [hr]; simp; omega, ?_⟩
    have := (writeMem_wrote hw).append hwrote
    simpa [charWrites] using this

theorem writeStrToMem_wrote {virtAddr : Word} {arg : CString} {m m' : Machine} {len : ℤ}
    (hne : strlen arg ≠ 0) (h : writeStrToMem virtAddr arg.val (strlen arg) m = .ok len m') :
    len = strlen arg + 1 ∧ Wrote m (charWrites virtAddr 0 arg.val ++
      [⟨virtAddr + BitVec.ofNat 32 (strlen arg + 1), 1, 0⟩]) m' := by
  unfold writeStrToMem at h
  rw [if_neg (by omega)] at h
  obtain ⟨r, m₁, hchars, h⟩ := bind_eq_ok_iff.mp h
  obtain ⟨_, m₂, hw, h⟩ := bind_eq_ok_iff.mp h
  obtain ⟨hr, hwrote⟩ := writeChars_wrote [] arg.property
    (by simpa [strlen] using hchars)
  have hlen : r = strlen arg := by simpa [strlen] using hr
  subst hlen
  cases h
  exact ⟨rfl, hwrote.append (writeMem_wrote hw)⟩

theorem writeArguments_wrote {stackBottom : Word} {argv : List CString} :
    ∀ {i : ℕ} {argHead : Word} {m m' : Machine},
      writeArguments stackBottom i argHead argv m = .ok true m' →
      Wrote m (argumentWrites stackBottom i argHead argv) m' := by
  induction argv with
  | nil =>
    intro i argHead m m' h
    cases h
    exact .refl m
  | cons arg rest ih =>
    intro i argHead m m' h
    obtain ⟨_, m₁, hpointer, h⟩ := bind_eq_ok_iff.mp h
    obtain ⟨len, m₂, hstring, h⟩ := bind_eq_ok_iff.mp h
    split at h
    · cases h
    next hlen =>
    have hne : strlen arg ≠ 0 := by
      intro hzero
      unfold writeStrToMem at hstring
      rw [if_pos (by omega)] at hstring
      cases hstring
      exact hlen rfl
    obtain ⟨rfl, hwrote⟩ := writeStrToMem_wrote hne hstring
    have hrest := ih h
    rw [show BitVec.ofInt 32 ((strlen arg : ℤ) + 1) = BitVec.ofNat 32 (strlen arg + 1) by
      rw [← BitVec.ofInt_natCast]; push_cast; rfl] at hrest
    exact ((writeMem_wrote hpointer).append hwrote).append hrest

end Sim

section

variable {table table' : PageTable} {pageTableSize : ℕ} {mem mem' : ByteStore.Store}

/-- What `StartProcess_2` has done when it comes to `Machine::Run` with a space it built. -/
theorem startProcess2_run {env : StartEnv} {space : AddrSpace} {bm : Bitmap NumPhysPages}
    {writes : List ByteStore.Patch} {argv : List CString} {m' : Machine}
    (hload : AddrSpace.new env.executable env.gPhysPageBitMap = some (.loaded space bm writes))
    (hrun : startProcess2 env argv = .run m') :
    ∃ m₁, (∀ arg ∈ argv, strlen arg ≠ 0) ∧
      Wrote (env.loaded space) (argumentWrites (stackBottom env.machine) 0
        (stackBottom env.machine + BitVec.ofNat 32 (4 * argv.length)) argv) m₁ ∧
      m'.pageTable = some env.tableAddress ∧ m'.pageTableSize = space.numPages ∧
      m'.tables = m₁.tables ∧ m'.mainMemory = m₁.mainMemory ∧
      m'.registers 4 = BitVec.ofNat 32 argv.length ∧ m'.registers 5 = stackBottom env.machine := by
  have hnew : env.newSpace = some (⟨some env.tableAddress, space.numPages⟩, env.loaded space) := by
    unfold StartEnv.newSpace
    rw [hload]
    rfl
  unfold startProcess2 at hrun
  rw [hnew] at hrun
  split at hrun
  · cases hrun
  dsimp only at hrun
  split at hrun
  · cases hrun
  · cases hrun
  · cases hrun
  · next m₁ hok =>
    cases hrun
    have hall := ((Sim.writeArguments_ok_iff _ _ _ _).mp ⟨m₁, hok⟩).1
    exact ⟨m₁, by simpa using hall, Sim.writeArguments_wrote hok, rfl, rfl, rfl, rfl, rfl, rfl⟩

variable {env : StartEnv} {space : AddrSpace} {bm : Bitmap NumPhysPages}
  {writes : List ByteStore.Patch} {argv : List CString} {m' : Machine}

/-- What the new table translates. -/
theorem translated_installed
    (hload : AddrSpace.new env.executable env.gPhysPageBitMap = some (.loaded space bm writes))
    {v : Word} {size : ℕ} (haligned : misaligned v size = false)
    (hsize : size = 1 ∨ size = 2 ∨ size = 4) (hpage : v.toNat / PageSize < space.numPages) :
    ∃ physAddr entry, Translated space.pageTable space.numPages v size true physAddr entry := by
  obtain ⟨frames, -, hframes, rfl⟩ := AddrSpace.tableOf_of_loaded hload
  have hlt : ∀ frame ∈ frames, frame < NumPhysPages := fun frame hf => (hframes frame hf).1
  have hentry := List.getElem?_eq_getElem hpage
  obtain ⟨hframe, hvalid, hwritable⟩ := AddrSpace.entry_of_tableOf hlt hentry
  have hin := hlt _ (List.mem_of_getElem? hframe)
  refine ⟨_, _, haligned, hpage, hentry, hvalid, by rw [hwritable, Bool.false_and], hin, rfl, ?_⟩
  have hfits := in_page_of_aligned haligned hsize
  simp only [PageSize, NumPhysPages, MemorySize] at *
  omega

theorem mapped_installed
    (hload : AddrSpace.new env.executable env.gPhysPageBitMap = some (.loaded space bm writes)) :
    (env.installed space).Mapped space.pageTable := by
  obtain ⟨frames, hnodup, hframes, rfl⟩ := AddrSpace.tableOf_of_loaded hload
  refine Machine.mapped_tableOf hnodup (fun frame hf => (hframes frame hf).1) ?_
    (AddrSpace.length_tableOf 0 frames)
  exact congrArg some (Function.update_self ..)

/-- A block that lies in the new space is shorter than main memory. -/
theorem SharesTable.small (h : SharesTable env space argv)
    (hload : AddrSpace.new env.executable env.gPhysPageBitMap = some (.loaded space bm writes)) :
    copyOffset argv argv.length < 2 ^ 32 := by
  have hle := (mapped_installed hload).length_le (n := copyOffset argv argv.length + 1)
    fun k hk => translated_installed hload rfl (.inl rfl) (h k (Nat.lt_succ_iff.mp hk)).1
  have hmemory : MemorySize < 2 ^ 32 := by decide
  omega

/-- The calls of `WriteMem` would be the same with the new table in place. -/
theorem SharesTable.write (h : SharesTable env space argv)
    (hload : AddrSpace.new env.executable env.gPhysPageBitMap = some (.loaded space bm writes))
    {w : MemWrite} (hw : w ∈ argumentWrites (stackBottom env.machine) 0
      (stackBottom env.machine + BitVec.ofNat 32 (4 * argv.length)) argv)
    (hwritable : (env.loaded space).Writable (w.addr, w.size)) :
    (∃ physAddr entry,
      Translated space.pageTable space.numPages w.addr w.size true physAddr entry) ∧
      w.through ((env.loaded space).table.getD []) = w.through space.pageTable := by
  have hsize := size_argumentWrites w hw
  have hmem : (w.addr + BitVec.ofNat 32 0, LittleEndian.byteOf w.value 0) ∈
      argumentBytes (stackBottom env.machine) 0
        (stackBottom env.machine + BitVec.ofNat 32 (4 * argv.length)) argv :=
    List.mem_flatMap.mpr ⟨w, hw, MemWrite.mem_byteWrites.mpr ⟨0, by omega, rfl⟩⟩
  obtain ⟨k, hplace, hrange⟩ := place_of_mem hmem
  have hend : copyOffset argv argv.length = 4 * argv.length + stringsLength argv := by
    rw [copyOffset, List.take_length]
  obtain ⟨hpage, hindex⟩ := h k (by omega)
  rw [show stackBottom env.machine + BitVec.ofNat 32 k = w.addr from
    hplace.symm.trans (BitVec.add_zero _)] at hpage hindex
  obtain ⟨t, physAddr, entry, -, htr⟩ := hwritable
  refine ⟨translated_installed hload htr.aligned hsize hpage, ?_⟩
  rw [MemWrite.through, MemWrite.through, hindex]

/-- The frame a write goes to holds all of it. -/
theorem Translated.covers {table : PageTable} {pageTableSize physAddr : ℕ} {w : MemWrite}
    {entry : TranslationEntry}
    (h : Translated table pageTableSize w.addr w.size true physAddr entry)
    (hsize : w.size = 1 ∨ w.size = 2 ∨ w.size = 4) {a : ℤ} (hc : (w.through table).Covers a) :
    (entry.pageFrame * PageSize : ℕ) ≤ a ∧ a < (entry.pageFrame * PageSize + PageSize : ℕ) := by
  obtain ⟨-, -, h0, h1⟩ := h.in_frame hsize
  obtain ⟨hc0, hc1⟩ := hc
  simp only [MemWrite.through, h.physIndex_eq, Sim.length_storeBytes] at hc0 hc1
  omega

/-- When the process that ran last is alive, every byte of the block goes to it. -/
theorem LastAlive.unchanged (h : LastAlive env space)
    (hload : AddrSpace.new env.executable env.gPhysPageBitMap = some (.loaded space bm writes))
    (hrun : startProcess2 env argv = .run m') (hpassed : ArgumentsPassed env space argv m') :
    m'.mainMemory = env.machine.mainMemory := by
  obtain ⟨m₁, -, hwrote, -, -, -, hmem, -⟩ := startProcess2_run hload hrun
  funext a
  by_cases hc : ByteStore.Touched ((argumentWrites (stackBottom env.machine) 0
      (stackBottom env.machine + BitVec.ofNat 32 (4 * argv.length)) argv).map
        fun w => w.through ((env.loaded space).table.getD [])) a
  · obtain ⟨p, hp, hc⟩ := hc
    obtain ⟨w, hw, rfl⟩ := List.mem_map.mp hp
    obtain ⟨table, physAddr, entry, htable, htr⟩ := hwrote.writable w hw
    rw [htable, Option.getD_some] at hc
    obtain ⟨h0, h1⟩ := htr.covers (size_argumentWrites w hw) hc
    exact hpassed.others entry.pageFrame htr.inMemory
      (h table htable entry (List.mem_of_getElem? htr.entry_eq)) a h0 h1
  · rw [hmem, hwrote.memory, ByteStore.patchAll_of_not_touched hc]
    rfl

end

/-- The space of a constructor that has loaded its program. -/
def AddrSpace.Construction.space : AddrSpace.Construction → Option AddrSpace
  | .loaded space _ _ => some space
  | .notOpened | .refused => none

/-- The machine on which `Machine::Run` is called. -/
def Started.machine : Started → Option Machine
  | .run m => some m
  | .returned | .exception .. | .abort => none

end Nachos

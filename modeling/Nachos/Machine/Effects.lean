import Nachos.Machine.Translate

/-! What a run of hardware operations can do to the machine. Every operation goes
through the installed pages, so it stays inside their frames and changes nothing of
any table but use and dirty bits. -/
namespace Nachos

/-- The fields of an entry that the hardware only reads. -/
def TranslationEntry.mapping (entry : TranslationEntry) : ℤ × ℤ × Bool × Bool :=
  (entry.virtualPage, entry.physicalPage, entry.valid, entry.readOnly)

@[simp] theorem TranslationEntry.mapping_touch (entry : TranslationEntry) (writing : Bool) :
    (entry.touch writing).mapping = entry.mapping := rfl

theorem TranslationEntry.pageFrame_congr {a b : TranslationEntry} (h : a.mapping = b.mapping) :
    a.pageFrame = b.pageFrame := by
  simp only [mapping, Prod.mk.injEq] at h
  simp only [pageFrame, h.2.1]

theorem mapping_take {table table' : PageTable}
    (h : table'.map TranslationEntry.mapping = table.map TranslationEntry.mapping) (n : ℕ) :
    (table'.take n).map TranslationEntry.mapping = (table.take n).map TranslationEntry.mapping := by
  rw [List.map_take, List.map_take, h]

/-- Index `a` of `mainMemory` lies in a frame that the table names. -/
def InFrames (table : PageTable) (a : ℤ) : Prop :=
  ∃ entry ∈ table, (entry.pageFrame * PageSize : ℕ) ≤ a ∧
    a < (entry.pageFrame * PageSize + PageSize : ℕ)

instance (table : PageTable) (a : ℤ) : Decidable (InFrames table a) :=
  inferInstanceAs (Decidable (∃ entry ∈ table, _))

theorem InFrames.congr {table table' : PageTable}
    (h : table'.map TranslationEntry.mapping = table.map TranslationEntry.mapping) {a : ℤ}
    (ha : InFrames table a) : InFrames table' a := by
  obtain ⟨entry, he, h0, h1⟩ := ha
  have hmem : entry.mapping ∈ table'.map TranslationEntry.mapping := by
    rw [h]
    exact List.mem_map_of_mem he
  obtain ⟨entry', he', hmap⟩ := List.mem_map.mp hmem
  have hframe := TranslationEntry.pageFrame_congr hmap
  exact ⟨entry', he', by rwa [hframe], by rwa [hframe]⟩

theorem InFrames.of_take {table : PageTable} {n : ℕ} {a : ℤ} (h : InFrames (table.take n) a) :
    InFrames table a := by
  obtain ⟨entry, he, hbounds⟩ := h
  exact ⟨entry, List.mem_of_mem_take he, hbounds⟩

/-- What a successful translation has found. -/
structure Translated (table : PageTable) (pageTableSize : ℕ) (virtAddr : Word) (size : ℕ)
    (writing : Bool) (physAddr : ℕ) (entry : TranslationEntry) : Prop where
  aligned : misaligned virtAddr size = false
  inTable : virtAddr.toNat / PageSize < pageTableSize
  entry_eq : table[virtAddr.toNat / PageSize]? = some entry
  valid : entry.valid = true
  writable : (entry.readOnly && writing) = false
  inMemory : entry.pageFrame < NumPhysPages
  physAddr_eq : physAddr = entry.pageFrame * PageSize + virtAddr.toNat % PageSize
  fits : physAddr + size ≤ MemorySize

theorem translate_eq_ok_iff {table : Option PageTable} {pageTableSize : ℕ} {virtAddr : Word}
    {size : ℕ} {writing : Bool} {physAddr : ℕ} {touched : PageTable} :
    translate table pageTableSize virtAddr size writing = some (.ok (physAddr, touched)) ↔
      ∃ t entry, table = some t ∧
        Translated t pageTableSize virtAddr size writing physAddr entry ∧
        touched = t.set (virtAddr.toNat / PageSize) (entry.touch writing) := by
  unfold translate
  constructor
  · intro h
    split at h
    · simp at h
    next hmis =>
    obtain ⟨t, ht, h⟩ := Option.bind_eq_some_iff.mp h
    dsimp only at h
    split at h
    · simp at h
    next hpage =>
    obtain ⟨entry, he, h⟩ := Option.bind_eq_some_iff.mp h
    split at h
    · simp at h
    next hvalid =>
    split at h
    · simp at h
    next hro =>
    split at h
    · simp at h
    next hframe =>
    split at h
    · next hfits =>
      simp only [Option.pure_def, Option.some.injEq, Except.ok.injEq, Prod.mk.injEq] at h
      obtain ⟨rfl, rfl⟩ := h
      refine ⟨t, entry, ht, ⟨by simpa using hmis, by omega, he, by simpa using hvalid,
        by simpa using hro, by omega, rfl, hfits⟩, rfl⟩
    · simp at h
  · rintro ⟨t, entry, rfl, ht, rfl⟩
    have hfits := ht.fits
    rw [ht.physAddr_eq] at hfits
    rw [if_neg (by simp [ht.aligned])]
    simp only [Option.bind_eq_bind, Option.bind_some]
    rw [if_neg (by have := ht.inTable; omega), ht.entry_eq]
    simp only [Option.bind_some]
    rw [if_neg (by simp [ht.valid]), if_neg (by simp [ht.writable]),
      if_neg (by have := ht.inMemory; omega), if_pos hfits, ht.physAddr_eq]
    rfl

/-- An aligned access of one, two or four bytes does not leave its page. -/
theorem in_page_of_aligned {virtAddr : Word} {size : ℕ} (ha : misaligned virtAddr size = false)
    (hsize : size = 1 ∨ size = 2 ∨ size = 4) :
    virtAddr.toNat % PageSize + size ≤ PageSize := by
  rcases hsize with rfl | rfl | rfl
  · have := Nat.mod_lt virtAddr.toNat (show 0 < PageSize by decide)
    omega
  · simp only [misaligned, Nat.reduceBEq, Bool.false_and, Bool.false_or, Bool.true_and,
      bne_eq_false_iff_eq] at ha
    have hlow : virtAddr.toNat % 2 = 0 := by
      have := congrArg BitVec.toNat ha
      simpa [BitVec.toNat_and, Nat.and_one_is_mod] using this
    simp only [PageSize]
    omega
  · simp only [misaligned, Nat.reduceBEq, Bool.false_and, Bool.or_false, Bool.true_and,
      bne_eq_false_iff_eq] at ha
    have hlow : virtAddr.toNat % 4 = 0 := by
      have := congrArg BitVec.toNat ha
      have h3 : virtAddr.toNat &&& 3 = virtAddr.toNat % 4 := Nat.and_two_pow_sub_one_eq_mod _ 2
      simpa [BitVec.toNat_and, h3] using this
    simp only [PageSize]
    omega

theorem Translated.in_page {table : PageTable} {pageTableSize size physAddr : ℕ}
    {virtAddr : Word} {writing : Bool} {entry : TranslationEntry}
    (h : Translated table pageTableSize virtAddr size writing physAddr entry)
    (hsize : size = 1 ∨ size = 2 ∨ size = 4) :
    virtAddr.toNat % PageSize + size ≤ PageSize :=
  in_page_of_aligned h.aligned hsize

theorem Translated.inFrames {table : PageTable} {pageTableSize size physAddr : ℕ}
    {virtAddr : Word} {writing : Bool} {entry : TranslationEntry}
    (h : Translated table pageTableSize virtAddr size writing physAddr entry)
    (hsize : size = 1 ∨ size = 2 ∨ size = 4) {a : ℤ} (h0 : physAddr ≤ a)
    (h1 : a < physAddr + size) : InFrames (table.take pageTableSize) a := by
  have hpage := h.in_page hsize
  have hphys := h.physAddr_eq
  have hentry : (table.take pageTableSize)[virtAddr.toNat / PageSize]? = some entry := by
    rw [List.getElem?_take_of_lt h.inTable, h.entry_eq]
  refine ⟨entry, List.mem_of_getElem? hentry, ?_, ?_⟩ <;> omega

/-- `Translate` fails no assertion: a frame that it accepts holds the whole access. -/
theorem translate_ne_none {table : PageTable} {pageTableSize size : ℕ} {v : Word} {writing : Bool}
    (hcomplete : pageTableSize ≤ table.length) (hsize : size = 1 ∨ size = 2 ∨ size = 4) :
    translate (some table) pageTableSize v size writing ≠ none := by
  intro hnone
  unfold translate at hnone
  split at hnone
  · cases hnone
  next haligned =>
  simp only [Option.bind_eq_bind, Option.bind_some] at hnone
  split at hnone
  · cases hnone
  next hpage =>
  have hget := List.getElem?_eq_getElem (l := table) (i := v.toNat / PageSize)
    (lt_of_lt_of_le (not_le.mp hpage) hcomplete)
  rw [hget, Option.bind_some] at hnone
  split at hnone
  · cases hnone
  split at hnone
  · cases hnone
  split at hnone
  · cases hnone
  next hframe =>
  split at hnone
  · cases hnone
  next hfits =>
  have hin := in_page_of_aligned (by simpa using haligned) hsize
  simp only [PageSize, NumPhysPages, MemorySize] at *
  omega

/-- Use and dirty bits do not matter to a translation. -/
theorem Translated.congr {table table' : PageTable} {pageTableSize size physAddr : ℕ}
    {virtAddr : Word} {writing : Bool} {entry : TranslationEntry}
    (hmap : table'.map TranslationEntry.mapping = table.map TranslationEntry.mapping)
    (h : Translated table pageTableSize virtAddr size writing physAddr entry) :
    ∃ entry', Translated table' pageTableSize virtAddr size writing physAddr entry' := by
  have hget : (table'.map TranslationEntry.mapping)[virtAddr.toNat / PageSize]? =
      some entry.mapping := by
    rw [hmap, List.getElem?_map, h.entry_eq]
    rfl
  rw [List.getElem?_map] at hget
  obtain ⟨entry', he, hm⟩ := Option.map_eq_some_iff.mp hget
  have hframe := TranslationEntry.pageFrame_congr hm
  simp only [TranslationEntry.mapping, Prod.mk.injEq] at hm
  exact ⟨entry', h.aligned, h.inTable, he, hm.2.2.1.trans h.valid, by rw [hm.2.2.2, h.writable],
    hframe ▸ h.inMemory, hframe ▸ h.physAddr_eq, h.fits⟩

/-- The byte that virtual address `v` shows through the table. -/
def readByte (table : PageTable) (pageTableSize : ℕ) (mainMemory : ByteStore.Store) (v : Word) :
    Option UInt8 :=
  match translate (some table) pageTableSize v 1 false with
  | some (.ok (physAddr, _)) => some (mainMemory physAddr)
  | _ => none

/-- The word at virtual address `v`. -/
def readWord (table : PageTable) (pageTableSize : ℕ) (mainMemory : ByteStore.Store) (v : Word) :
    Option Word :=
  match translate (some table) pageTableSize v 4 false with
  | some (.ok (physAddr, _)) => some (BitVec.ofNat 32 (Sim.loadBytes mainMemory physAddr 4))
  | _ => none

/-- Translation reads only the mappings, and what it finds lies in the frames of the table. -/
theorem translate_false_cases {table table' : PageTable}
    (hmap : table'.map TranslationEntry.mapping = table.map TranslationEntry.mapping)
    (pageTableSize : ℕ) (v : Word) {size : ℕ} (hsize : size = 1 ∨ size = 2 ∨ size = 4) :
    (∃ physAddr touched touched',
      translate (some table) pageTableSize v size false = some (.ok (physAddr, touched)) ∧
      translate (some table') pageTableSize v size false = some (.ok (physAddr, touched')) ∧
      ∀ a : ℤ, physAddr ≤ a → a < physAddr + size → InFrames table a) ∨
    ((∀ result, translate (some table) pageTableSize v size false ≠ some (.ok result)) ∧
      ∀ result, translate (some table') pageTableSize v size false ≠ some (.ok result)) := by
  by_cases h : ∃ physAddr entry, Translated table pageTableSize v size false physAddr entry
  · obtain ⟨physAddr, entry, h⟩ := h
    obtain ⟨entry', h'⟩ := h.congr hmap
    exact .inl ⟨physAddr, _, _, translate_eq_ok_iff.mpr ⟨_, entry, rfl, h, rfl⟩,
      translate_eq_ok_iff.mpr ⟨_, entry', rfl, h', rfl⟩,
      fun a h0 h1 => (h.inFrames hsize h0 h1).of_take⟩
  · refine .inr ⟨?_, ?_⟩
    · rintro ⟨physAddr, touched⟩ hok
      obtain ⟨t, entry, ht, htr, -⟩ := translate_eq_ok_iff.mp hok
      cases ht
      exact h ⟨physAddr, entry, htr⟩
    · rintro ⟨physAddr, touched⟩ hok
      obtain ⟨t, entry, ht, htr, -⟩ := translate_eq_ok_iff.mp hok
      cases ht
      obtain ⟨entry', htr'⟩ := htr.congr hmap.symm
      exact h ⟨physAddr, entry', htr'⟩

section

variable {table table' : PageTable} {pageTableSize : ℕ} {mem mem' : ByteStore.Store}

theorem readByte_congr (hmap : table'.map TranslationEntry.mapping =
      table.map TranslationEntry.mapping) (hmem : ∀ a, InFrames table a → mem' a = mem a)
    (v : Word) :
    readByte table' pageTableSize mem' v = readByte table pageTableSize mem v := by
  unfold readByte
  rcases translate_false_cases hmap pageTableSize v (.inl rfl) with
    ⟨physAddr, touched, touched', h, h', hin⟩ | ⟨h, h'⟩
  · rw [h, h']
    simp only [hmem physAddr (hin physAddr le_rfl (by omega))]
  · split
    · next hok => exact absurd hok (h' _)
    · split
      · next hok => exact absurd hok (h _)
      · rfl

end

namespace Machine

/-- The table that `pageTable` points to. -/
def table (m : Machine) : Option PageTable := m.pageTable.map m.tables

/-- Machine `m'` differs from `m` by what the hardware may do under the pages of `m`. -/
structure Confined (m m' : Machine) : Prop where
  pageTable : m'.pageTable = m.pageTable
  pageTableSize : m'.pageTableSize = m.pageTableSize
  mapping : ∀ address, (m'.tables address).map TranslationEntry.mapping =
    (m.tables address).map TranslationEntry.mapping
  memory : ∀ a, (∀ t, m.table = some t → ¬ InFrames (t.take m.pageTableSize) a) →
    m'.mainMemory a = m.mainMemory a

theorem Confined.refl (m : Machine) : Confined m m := ⟨rfl, rfl, fun _ => rfl, fun _ _ => rfl⟩

theorem Confined.trans {m m' m'' : Machine} (h : Confined m m') (h' : Confined m' m'') :
    Confined m m'' := by
  refine ⟨h'.pageTable.trans h.pageTable, h'.pageTableSize.trans h.pageTableSize,
    fun address => (h'.mapping address).trans (h.mapping address), ?_⟩
  intro a ha
  rw [h'.memory a, h.memory a ha]
  intro t' ht' hin
  obtain ⟨address, hp, rfl⟩ := Option.map_eq_some_iff.mp ht'
  rw [h.pageTable] at hp
  rw [h.pageTableSize] at hin
  exact ha (m.tables address) (by simp [table, hp])
    (hin.congr (mapping_take (h.mapping address).symm _))

/-- A write of that size at that address would go through. -/
def Writable (m : Machine) (span : Word × ℕ) : Prop :=
  ∃ t physAddr entry, m.table = some t ∧
    Translated t m.pageTableSize span.1 span.2 true physAddr entry

theorem Confined.writable_iff {m m' : Machine} (h : Confined m m') (span : Word × ℕ) :
    m'.Writable span ↔ m.Writable span := by
  unfold Writable table
  rw [h.pageTable, h.pageTableSize]
  constructor
  · rintro ⟨t, physAddr, entry, ht, htr⟩
    obtain ⟨address, hp, rfl⟩ := Option.map_eq_some_iff.mp ht
    obtain ⟨entry', htr'⟩ := htr.congr (h.mapping address).symm
    exact ⟨_, physAddr, entry', by rw [hp]; rfl, htr'⟩
  · rintro ⟨t, physAddr, entry, ht, htr⟩
    obtain ⟨address, hp, rfl⟩ := Option.map_eq_some_iff.mp ht
    obtain ⟨entry', htr'⟩ := htr.congr (h.mapping address)
    exact ⟨_, physAddr, entry', by rw [hp]; rfl, htr'⟩

end Machine

/-- The machine that an operation ends with, if any, satisfies `P`. -/
def Outcome.Leaves {α : Type} (P : Machine → Prop) : Outcome α → Prop
  | .ok _ m' => P m'
  | .trap _ m' => P m'
  | .abort => True

namespace Sim

open Machine

/-- The operation leaves the machine within the confines of the installed table. -/
def Keeps {α : Type} (x : Sim α) : Prop := ∀ m, (x m).Leaves (Confined m)

variable {α β : Type}

theorem Keeps.confined {x : Sim α} (hx : Keeps x) {m m' : Machine} {a : α} (h : x m = .ok a m') :
    Confined m m' := by
  have := hx m
  rwa [h] at this

theorem keeps_pure (a : α) : Keeps (pure a : Sim α) := fun m => Confined.refl m

theorem bind_apply (x : Sim α) (f : α → Sim β) (m : Machine) :
    (x >>= f) m = match x m with
      | .ok a m' => f a m'
      | .trap which m' => .trap which m'
      | .abort => .abort := rfl

theorem bind_eq_ok_iff {x : Sim α} {f : α → Sim β} {m m'' : Machine} {b : β} :
    (x >>= f) m = .ok b m'' ↔ ∃ a m', x m = .ok a m' ∧ f a m' = .ok b m'' := by
  rw [bind_apply]
  cases hx : x m with
  | ok a m' => simp
  | trap which m' => simp
  | abort => simp

theorem keeps_bind {x : Sim α} {f : α → Sim β} (hx : Keeps x) (hf : ∀ a, Keeps (f a)) :
    Keeps (x >>= f) := by
  intro m
  have hx := hx m
  rw [bind_apply]
  cases hxm : x m with
  | ok a m' =>
    rw [hxm] at hx
    have hf := hf a m'
    simp only
    cases hfm : f a m' with
    | ok b m'' =>
      rw [hfm] at hf
      exact Confined.trans hx hf
    | trap which m'' =>
      rw [hfm] at hf
      exact Confined.trans hx hf
    | abort => trivial
  | trap which m' =>
    rw [hxm] at hx
    exact hx
  | abort => trivial

theorem keeps_get : Keeps get := fun m => Confined.refl m

theorem keeps_abort : Keeps (abort : Sim α) := fun _ => trivial

theorem keeps_reg (num : Fin NumTotalRegs) : Keeps (reg num) := fun m => Confined.refl m

theorem keeps_setReg (num : Fin NumTotalRegs) (value : Word) : Keeps (setReg num value) :=
  fun _ => ⟨rfl, rfl, fun _ => rfl, fun _ _ => rfl⟩

theorem keeps_delayedLoad (nextReg nextValue : Word) : Keeps (delayedLoad nextReg nextValue) := by
  unfold delayedLoad
  refine keeps_bind (keeps_reg _) fun target => ?_
  split
  · refine keeps_bind (keeps_reg _) fun value => keeps_bind (keeps_setReg _ _) fun _ => ?_
    exact keeps_bind (keeps_setReg _ _) fun _ =>
      keeps_bind (keeps_setReg _ _) fun _ => keeps_setReg _ _
  · exact keeps_abort

/-- The registers after the pending load has been done and another one noted. -/
def loadDelayed (registers : Registers) (target : Fin NumTotalRegs) (nextReg nextValue : Word) :
    Registers :=
  Function.update (Function.update (Function.update
    (Function.update registers target (registers LoadValueReg)) LoadReg nextReg)
    LoadValueReg nextValue) 0 0

theorem delayedLoad_apply (nextReg nextValue : Word) {m : Machine}
    (h : (m.registers LoadReg).toNat < NumTotalRegs) :
    delayedLoad nextReg nextValue m =
      .ok () { m with registers := loadDelayed m.registers ⟨_, h⟩ nextReg nextValue } := by
  have hdo : delayedLoad nextReg nextValue m =
      (if h : (m.registers LoadReg).toNat < NumTotalRegs then do
        setReg ⟨_, h⟩ (← reg LoadValueReg)
        setReg LoadReg nextReg
        setReg LoadValueReg nextValue
        setReg 0 0
      else abort : Sim Unit) m := rfl
  rw [hdo, dif_pos h]
  rfl

theorem delayedLoad_abort (nextReg nextValue : Word) {m : Machine}
    (h : ¬ (m.registers LoadReg).toNat < NumTotalRegs) :
    delayedLoad nextReg nextValue m = .abort := by
  have hdo : delayedLoad nextReg nextValue m =
      (if h : (m.registers LoadReg).toNat < NumTotalRegs then do
        setReg ⟨_, h⟩ (← reg LoadValueReg)
        setReg LoadReg nextReg
        setReg LoadValueReg nextValue
        setReg 0 0
      else abort : Sim Unit) m := rfl
  rw [hdo, dif_neg h]
  rfl

/-- The registers that the handler finds: the pending load is done. -/
def trapRegisters (registers : Registers) (target : Fin NumTotalRegs) (badVAddr : Word) :
    Registers :=
  loadDelayed (Function.update registers BadVAddrReg badVAddr) target 0 0

theorem raiseException_eq_bind (which : ExceptionType) (badVAddr : Word) (m : Machine) :
    ∃ handle : Sim α, (∀ m, handle m = .trap which m) ∧
      (raiseException which badVAddr : Sim α) m = (delayedLoad 0 0 >>= fun _ => handle)
        { m with registers := Function.update m.registers BadVAddrReg badVAddr } :=
  ⟨_, fun _ => rfl, rfl⟩

theorem raiseException_apply (which : ExceptionType) (badVAddr : Word) {m : Machine}
    (h : (m.registers LoadReg).toNat < NumTotalRegs) :
    (raiseException which badVAddr : Sim α) m =
      .trap which { m with registers := trapRegisters m.registers ⟨_, h⟩ badVAddr } := by
  obtain ⟨handle, hhandle, hdo⟩ := raiseException_eq_bind (α := α) which badVAddr m
  have hload := delayedLoad_apply 0 0 (m :=
    { m with registers := Function.update m.registers BadVAddrReg badVAddr }) h
  rw [hdo, bind_apply, hload]
  exact hhandle _

theorem raiseException_abort (which : ExceptionType) (badVAddr : Word) {m : Machine}
    (h : ¬ (m.registers LoadReg).toNat < NumTotalRegs) :
    (raiseException which badVAddr : Sim α) m = .abort := by
  obtain ⟨handle, hhandle, hdo⟩ := raiseException_eq_bind (α := α) which badVAddr m
  have hload := delayedLoad_abort 0 0 (m :=
    { m with registers := Function.update m.registers BadVAddrReg badVAddr }) h
  rw [hdo, bind_apply, hload]

theorem keeps_raiseException (which : ExceptionType) (badVAddr : Word) :
    Keeps (raiseException which badVAddr : Sim α) := by
  unfold raiseException
  refine keeps_bind (keeps_setReg _ _) fun _ => keeps_bind (keeps_delayedLoad _ _) fun _ => ?_
  exact fun m => Confined.refl m

/-- Setting the use and dirty bits of the entry found keeps every mapping. -/
theorem mapping_update_touch {tables : ℕ → PageTable} {address k : ℕ} {entry : TranslationEntry}
    (h : (tables address)[k]? = some entry) (writing : Bool) (other : ℕ) :
    (Function.update tables address ((tables address).set k (entry.touch writing)) other).map
      TranslationEntry.mapping = (tables other).map TranslationEntry.mapping := by
  by_cases ho : other = address
  · subst ho
    obtain ⟨hk, rfl⟩ := List.getElem?_eq_some_iff.mp h
    rw [Function.update_self, List.map_set, TranslationEntry.mapping_touch, ← List.getElem_map
      TranslationEntry.mapping (h := by simpa using hk), List.set_getElem_self]
  · rw [Function.update_of_ne ho]

/-- The two ways `Translate` and its trap can end. -/
theorem translateOrRaise_ok {addr : Word} {size : ℕ} {writing : Bool} {m m' : Machine}
    {physAddr : ℕ} (h : translateOrRaise addr size writing m = .ok physAddr m') :
    ∃ address entry, m.pageTable = some address ∧
      Translated (m.tables address) m.pageTableSize addr size writing physAddr entry ∧
      m' = { m with
        tables := Function.update m.tables address
          ((m.tables address).set (addr.toNat / PageSize) (entry.touch writing)) } := by
  unfold translateOrRaise at h
  split at h
  · cases h
  · -- the trap never returns a value
    exfalso
    revert h
    simp only [raiseException, delayedLoad, bind, reg, setReg]
    split <;> simp
  · next physAddr' table hok =>
    obtain ⟨t, entry, ht, htr, rfl⟩ := translate_eq_ok_iff.mp hok
    obtain ⟨address, hp, rfl⟩ := Option.map_eq_some_iff.mp ht
    split at h
    · cases h
    · next address' hp' =>
      obtain rfl := Option.some.inj (hp'.symm.trans hp)
      simp only [Outcome.ok.injEq] at h
      obtain ⟨rfl, rfl⟩ := h
      exact ⟨address', entry, hp, htr, rfl⟩

theorem keeps_translateOrRaise (addr : Word) (size : ℕ) (writing : Bool) :
    Keeps (translateOrRaise addr size writing) := by
  intro m
  cases h : translateOrRaise addr size writing m with
  | ok physAddr m' =>
    obtain ⟨address, entry, hp, htr, rfl⟩ := translateOrRaise_ok h
    exact ⟨rfl, rfl, mapping_update_touch htr.entry_eq writing, fun _ _ => rfl⟩
  | trap which m' =>
    unfold translateOrRaise at h
    split at h
    · cases h
    · next which' _ =>
      have hk := keeps_raiseException (α := ℕ) which' addr m
      rw [h] at hk
      exact hk
    · split at h <;> cases h
  | abort => trivial

theorem keeps_readMem (addr : Word) (size : ℕ) : Keeps (readMem addr size) := by
  unfold readMem
  refine keeps_bind (keeps_translateOrRaise _ _ _) fun physAddr => keeps_bind keeps_get fun m => ?_
  split
  · exact keeps_pure _
  · exact keeps_pure _
  · exact keeps_pure _
  · exact keeps_abort

theorem length_storeBytes (value size : ℕ) : (storeBytes value size).length = size := by
  induction size generalizing value with
  | zero => rfl
  | succ size ih => simp [storeBytes, ih]

theorem keeps_writeMem (addr : Word) (size : ℕ) (value : Word) :
    Keeps (writeMem addr size value) := by
  intro m
  unfold writeMem
  rw [bind_apply]
  have hk := keeps_translateOrRaise addr size true m
  cases h : translateOrRaise addr size true m with
  | ok physAddr m' =>
    obtain ⟨address, entry, hp, htr, rfl⟩ := translateOrRaise_ok h
    have hstore (hsize : size = 1 ∨ size = 2 ∨ size = 4) (bytes : List UInt8)
        (hbytes : bytes.length = size) : (store ⟨physAddr, bytes⟩ { m with
          tables := Function.update m.tables address ((m.tables address).set
            (addr.toNat / PageSize) (entry.touch true)) }).Leaves (Confined m) := by
      refine ⟨rfl, rfl, mapping_update_touch htr.entry_eq true, ?_⟩
      intro a ha
      refine ByteStore.patch_of_not_covers ?_
      rintro ⟨h0, h1⟩
      rw [hbytes] at h1
      exact ha _ (by simp [Machine.table, hp]) (htr.inFrames hsize h0 h1)
    dsimp only
    split
    · exact hstore (by simp) _ (length_storeBytes _ _)
    · exact hstore (by simp) _ (length_storeBytes _ _)
    · exact hstore (by simp) _ (length_storeBytes _ _)
    · trivial
  | trap which m' =>
    rw [h] at hk
    exact hk
  | abort => trivial

/-- What a write that goes through does. -/
theorem writeMem_ok {addr : Word} {size : ℕ} {value : Word} {m m' : Machine}
    (h : writeMem addr size value m = .ok () m') :
    ∃ address physAddr entry, m.pageTable = some address ∧
      Translated (m.tables address) m.pageTableSize addr size true physAddr entry ∧
      m' = { m with
        tables := Function.update m.tables address
          ((m.tables address).set (addr.toNat / PageSize) (entry.touch true))
        mainMemory := ByteStore.patch m.mainMemory ⟨physAddr, storeBytes value.toNat size⟩ } := by
  obtain ⟨physAddr, m₁, ht, hs⟩ := bind_eq_ok_iff.mp h
  obtain ⟨address, entry, hp, htr, rfl⟩ := translateOrRaise_ok ht
  refine ⟨address, physAddr, entry, hp, htr, ?_⟩
  split at hs
  · cases hs; rfl
  · cases hs; rfl
  · cases hs; rfl
  · cases hs

theorem translateOrRaise_of_translated {addr : Word} {size : ℕ} {writing : Bool} {m : Machine}
    {address physAddr : ℕ} {entry : TranslationEntry} (hp : m.pageTable = some address)
    (h : Translated (m.tables address) m.pageTableSize addr size writing physAddr entry) :
    translateOrRaise addr size writing m = .ok physAddr { m with
      tables := Function.update m.tables address
        ((m.tables address).set (addr.toNat / PageSize) (entry.touch writing)) } := by
  have hok : translate (m.pageTable.map m.tables) m.pageTableSize addr size writing = _ :=
    translate_eq_ok_iff.mpr ⟨_, entry, by rw [hp]; rfl, h, rfl⟩
  unfold translateOrRaise
  rw [hok]
  dsimp only
  split
  · next hnone => rw [hp] at hnone; cases hnone
  · next address' hp' =>
    obtain rfl := Option.some.inj (hp'.symm.trans hp)
    rfl

theorem writeMem_ok_iff {addr : Word} {size : ℕ} (value : Word) {m : Machine}
    (hsize : size = 1 ∨ size = 2 ∨ size = 4) :
    (∃ m', writeMem addr size value m = .ok () m') ↔ m.Writable (addr, size) := by
  constructor
  · rintro ⟨m', h⟩
    obtain ⟨address, physAddr, entry, hp, htr, -⟩ := writeMem_ok h
    exact ⟨_, physAddr, entry, by rw [table, hp]; rfl, htr⟩
  · rintro ⟨t, physAddr, entry, ht, htr⟩
    obtain ⟨address, hp, rfl⟩ := Option.map_eq_some_iff.mp ht
    have hraise := translateOrRaise_of_translated hp htr
    rcases hsize with rfl | rfl | rfl <;>
      exact ⟨_, bind_eq_ok_iff.mpr ⟨physAddr, _, hraise, rfl⟩⟩

/-- Where an access is refused, `Translate` has refused it. -/
theorem readMem_trap {addr : Word} {size : ℕ} {m m' : Machine} {which : ExceptionType}
    (hsize : size = 1 ∨ size = 2 ∨ size = 4) (h : readMem addr size m = .trap which m') :
    translateOrRaise addr size false m = .trap which m' := by
  unfold readMem at h
  rw [bind_apply] at h
  split at h
  · rcases hsize with rfl | rfl | rfl <;> cases h
  · next htr =>
    cases h
    exact htr
  · cases h

theorem readMem_abort {addr : Word} {size : ℕ} {m : Machine}
    (hsize : size = 1 ∨ size = 2 ∨ size = 4) (h : readMem addr size m = .abort) :
    translateOrRaise addr size false m = .abort := by
  unfold readMem at h
  rw [bind_apply] at h
  split at h
  · rcases hsize with rfl | rfl | rfl <;> cases h
  · cases h
  · next habort => exact habort

theorem writeMem_trap {addr value : Word} {size : ℕ} {m m' : Machine} {which : ExceptionType}
    (hsize : size = 1 ∨ size = 2 ∨ size = 4) (h : writeMem addr size value m = .trap which m') :
    translateOrRaise addr size true m = .trap which m' := by
  unfold writeMem at h
  rw [bind_apply] at h
  split at h
  · rcases hsize with rfl | rfl | rfl <;> cases h
  · next htr =>
    cases h
    exact htr
  · cases h

theorem writeMem_abort {addr value : Word} {size : ℕ} {m : Machine}
    (hsize : size = 1 ∨ size = 2 ∨ size = 4) (h : writeMem addr size value m = .abort) :
    translateOrRaise addr size true m = .abort := by
  unfold writeMem at h
  rw [bind_apply] at h
  split at h
  · rcases hsize with rfl | rfl | rfl <;> cases h
  · cases h
  · next habort => exact habort

end Sim
end Nachos

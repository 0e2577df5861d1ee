import Nachos.Library.LittleEndian
import Nachos.Machine.Effects

/-! Virtual memory as user programs and the kernel see it: a store of bytes in which larger
values are little-endian, on hosts of either byte order. `machine/translate.cc` reads and writes
main memory in the byte order of the host, and swaps the bytes when `HOST_IS_BIG_ENDIAN` is
defined. -/
namespace Nachos

/-- `WordToHost`. -/
def wordToHost (bigEndian : Bool) (word : Word) : Word :=
  if bigEndian then
    ((word >>> 24) &&& 0x000000ff) ||| ((word >>> 8) &&& 0x0000ff00) |||
      ((word <<< 8) &&& 0x00ff0000) ||| ((word <<< 24) &&& 0xff000000)
  else word

/-- `ShortToHost`. -/
def shortToHost (bigEndian : Bool) (shortword : BitVec 16) : BitVec 16 :=
  if bigEndian then ((shortword <<< 8) &&& 0xff00) ||| ((shortword >>> 8) &&& 0x00ff)
  else shortword

/-- `WordToMachine`. -/
def wordToMachine (bigEndian : Bool) (word : Word) : Word := wordToHost bigEndian word

/-- `ShortToMachine`. -/
def shortToMachine (bigEndian : Bool) (shortword : BitVec 16) : BitVec 16 :=
  shortToHost bigEndian shortword

/-- `size` bytes of main memory. -/
def bytesAt (mainMemory : ByteStore.Store) (physAddr size : ℕ) : List UInt8 :=
  (List.range size).map fun i => mainMemory (physAddr + i : ℕ)

/-- The number that the host reads from these bytes. -/
def hostValue (bigEndian : Bool) (bytes : List UInt8) : ℕ :=
  LittleEndian.value (if bigEndian then bytes.reverse else bytes)

/-- The bytes in which the host writes a number. -/
def hostBytes (bigEndian : Bool) (value size : ℕ) : List UInt8 :=
  if bigEndian then (Sim.storeBytes value size).reverse else Sim.storeBytes value size

namespace Sim

/-- `Machine::ReadMem` on a host of that byte order. -/
def hostReadMem (bigEndian : Bool) (addr : Word) (size : ℕ) : Sim Word := do
  let physAddr ← translateOrRaise addr size false
  let m ← get
  match size with
  | 1 => return (m.mainMemory physAddr).toBitVec.signExtend 32
  | 2 =>
    let data : BitVec 16 := BitVec.ofNat 16 (hostValue bigEndian (bytesAt m.mainMemory physAddr 2))
    return (shortToHost bigEndian data).setWidth 32
  | 4 =>
    let data : Word := BitVec.ofNat 32 (hostValue bigEndian (bytesAt m.mainMemory physAddr 4))
    return wordToHost bigEndian data
  | _ => abort

/-- `Machine::WriteMem` on a host of that byte order. -/
def hostWriteMem (bigEndian : Bool) (addr : Word) (size : ℕ) (value : Word) : Sim Unit := do
  let physAddr ← translateOrRaise addr size true
  match size with
  | 1 => store ⟨physAddr, [UInt8.ofBitVec (value.setWidth 8)]⟩
  | 2 =>
    let data := shortToMachine bigEndian (value.setWidth 16)
    store ⟨physAddr, hostBytes bigEndian data.toNat 2⟩
  | 4 => store ⟨physAddr, hostBytes bigEndian (wordToMachine bigEndian value).toNat 4⟩
  | _ => abort

end Sim

theorem swaps_shortToHost : LittleEndian.Swaps 2 (shortToHost true) := by
  intro shortword i hi
  apply congrArg UInt8.ofBitVec
  apply BitVec.eq_of_getLsbD_eq
  intro j hj
  simp only [shortToHost, if_true, BitVec.getLsbD_extractLsb']
  interval_cases i <;> interval_cases j <;> simp

theorem swaps_wordToHost : LittleEndian.Swaps 4 (wordToHost true) := by
  intro word i hi
  apply congrArg UInt8.ofBitVec
  apply BitVec.eq_of_getLsbD_eq
  intro j hj
  simp only [wordToHost, if_true, BitVec.getLsbD_extractLsb']
  interval_cases i <;> interval_cases j <;> simp

/-- A number that was read with its bytes in the order of the host is put right. -/
theorem shortToHost_hostValue (bigEndian : Bool) {bytes : List UInt8} (h : bytes.length = 2) :
    shortToHost bigEndian (BitVec.ofNat 16 (hostValue bigEndian bytes)) =
      BitVec.ofNat 16 (LittleEndian.value bytes) := by
  cases bigEndian with
  | false => rfl
  | true => exact swaps_shortToHost.value rfl h

theorem wordToHost_hostValue (bigEndian : Bool) {bytes : List UInt8} (h : bytes.length = 4) :
    wordToHost bigEndian (BitVec.ofNat 32 (hostValue bigEndian bytes)) =
      BitVec.ofNat 32 (LittleEndian.value bytes) := by
  cases bigEndian with
  | false => rfl
  | true => exact swaps_wordToHost.value rfl h

theorem storeBytes_eq_map (value size : ℕ) : Sim.storeBytes value size =
    (List.range size).map fun i => UInt8.ofNat (value / 256 ^ i % 256) := by
  induction size generalizing value with
  | zero => rfl
  | succ size ih =>
    rw [Sim.storeBytes, ih, List.range_succ_eq_map, List.map_cons, List.map_map]
    simp only [Function.comp_def, Nat.pow_zero, Nat.div_one, Nat.succ_eq_add_one, Nat.pow_succ',
      Nat.div_div_eq_div_mul]

theorem storeBytes_toNat {w : ℕ} (v : BitVec w) (size : ℕ) :
    Sim.storeBytes v.toNat size = LittleEndian.bytesOf v size := by
  rw [storeBytes_eq_map, LittleEndian.bytesOf]
  apply List.map_congr_left
  intro i _
  exact (LittleEndian.byteOf_eq_ofNat v i).symm

theorem hostBytes_shortToMachine (bigEndian : Bool) (shortword : BitVec 16) :
    hostBytes bigEndian (shortToMachine bigEndian shortword).toNat 2 =
      LittleEndian.bytesOf shortword 2 := by
  unfold hostBytes
  rw [storeBytes_toNat]
  cases bigEndian with
  | false => rfl
  | true => exact swaps_shortToHost.bytesOf shortword

theorem hostBytes_wordToMachine (bigEndian : Bool) (word : Word) :
    hostBytes bigEndian (wordToMachine bigEndian word).toNat 4 =
      LittleEndian.bytesOf word 4 := by
  unfold hostBytes
  rw [storeBytes_toNat]
  cases bigEndian with
  | false => rfl
  | true => exact swaps_wordToHost.bytesOf word

theorem loadBytes_eq_value (mainMemory : ByteStore.Store) (physAddr size : ℕ) :
    Sim.loadBytes mainMemory physAddr size =
      LittleEndian.value (bytesAt mainMemory physAddr size) := by
  induction size generalizing physAddr with
  | zero => rfl
  | succ size ih =>
    have hcons : bytesAt mainMemory physAddr (size + 1) =
        mainMemory physAddr :: bytesAt mainMemory (physAddr + 1) size := by
      simp only [bytesAt, List.range_succ_eq_map, List.map_cons, List.map_map, Function.comp_def,
        Nat.add_zero, Nat.succ_eq_add_one, Nat.add_assoc, Nat.add_comm 1]
    rw [Sim.loadBytes, ih, hcons, LittleEndian.value_cons]

theorem length_bytesAt (mainMemory : ByteStore.Store) (physAddr size : ℕ) :
    (bytesAt mainMemory physAddr size).length = size := by
  rw [bytesAt, List.length_map, List.length_range]

namespace Sim

/-- The byte order of the host does not show. -/
theorem hostReadMem_eq (bigEndian : Bool) (addr : Word) (size : ℕ) :
    hostReadMem bigEndian addr size = readMem addr size := by
  unfold hostReadMem readMem
  congr 1
  funext physAddr
  congr 1
  funext m
  match size with
  | 1 =>
    have hone : loadBytes m.mainMemory physAddr 1 = (m.mainMemory physAddr).toBitVec.toNat := rfl
    refine congrArg pure ?_
    rw [hone, BitVec.ofNat_toNat, BitVec.setWidth_eq]
  | 2 =>
    refine congrArg pure ?_
    have hlt := LittleEndian.value_lt (bytesAt m.mainMemory physAddr 2)
    rw [length_bytesAt] at hlt
    rw [shortToHost_hostValue _ (length_bytesAt ..), loadBytes_eq_value]
    apply BitVec.eq_of_toNat_eq
    rw [BitVec.toNat_setWidth, BitVec.toNat_ofNat, BitVec.toNat_ofNat]
    omega
  | 4 =>
    refine congrArg pure ?_
    rw [wordToHost_hostValue _ (length_bytesAt ..), loadBytes_eq_value]
  | 0 | 3 | _ + 5 => rfl

theorem hostWriteMem_eq (bigEndian : Bool) (addr : Word) (size : ℕ) (value : Word) :
    hostWriteMem bigEndian addr size value = writeMem addr size value := by
  unfold hostWriteMem writeMem
  congr 1
  funext physAddr
  match size with
  | 1 =>
    refine congrArg (fun bytes => store ⟨physAddr, bytes⟩) ?_
    rw [storeBytes_toNat, BitVec.setWidth_eq_extractLsb' (by decide)]
    rfl
  | 2 =>
    refine congrArg (fun bytes => store ⟨physAddr, bytes⟩) ?_
    rw [hostBytes_shortToMachine, storeBytes_toNat]
    apply List.map_congr_left
    intro i hi
    rw [LittleEndian.byteOf_eq_ofNat, LittleEndian.byteOf_eq_ofNat, BitVec.toNat_setWidth]
    congr 1
    have hi := List.mem_range.mp hi
    interval_cases i <;> omega
  | 4 =>
    refine congrArg (fun bytes => store ⟨physAddr, bytes⟩) ?_
    rw [hostBytes_wordToMachine, storeBytes_toNat]
  | 0 | 3 | _ + 5 => rfl

end Sim

namespace Machine

/-- The byte at a virtual address. -/
def virtualByte (m : Machine) (v : Word) : Option UInt8 :=
  m.table.bind fun t => readByte t m.pageTableSize m.mainMemory v

/-- Virtual memory holds these bytes from `v` on. -/
def Shows (m : Machine) (v : Word) (bytes : List UInt8) : Prop :=
  ∀ i < bytes.length, m.virtualByte (v + BitVec.ofNat 32 i) = bytes[i]?

/-- The installed table has an entry for each virtual page, and maps the valid ones injectively
to frames of main memory. -/
structure Mapped (m : Machine) (t : PageTable) : Prop where
  table : m.table = some t
  complete : m.pageTableSize ≤ t.length
  frame_lt : ∀ i < m.pageTableSize, ∀ entry, t[i]? = some entry → entry.valid = true →
    entry.pageFrame < NumPhysPages
  injective : ∀ i < m.pageTableSize, ∀ j < m.pageTableSize, ∀ a b, t[i]? = some a →
    t[j]? = some b → a.valid = true → b.valid = true → a.pageFrame = b.pageFrame → i = j

end Machine

/-- What `ReadMem` makes of the bytes: a single one is a signed `char`. -/
def loaded : List UInt8 → Word
  | [byte] => byte.toBitVec.signExtend 32
  | bytes => BitVec.ofNat 32 (LittleEndian.value bytes)

section

variable {t : PageTable} {pageTableSize size physAddr : ℕ} {v : Word} {writing : Bool}
  {entry : TranslationEntry}

theorem toNat_add_lt_page {i : ℕ} (hsize : v.toNat % PageSize + size ≤ PageSize) (hi : i < size) :
    (v + BitVec.ofNat 32 i).toNat = v.toNat + i := by
  have hlt := v.isLt
  simp only [PageSize] at hsize
  rw [BitVec.toNat_add, BitVec.toNat_ofNat]
  omega

/-- The bytes of an access are themselves readable, one after the other. -/
theorem Translated.byte {i : ℕ} (h : Translated t pageTableSize v size writing physAddr entry)
    (hsize : size = 1 ∨ size = 2 ∨ size = 4) (hi : i < size) :
    Translated t pageTableSize (v + BitVec.ofNat 32 i) 1 false (physAddr + i) entry := by
  have hpage := h.in_page hsize
  have hadd := toNat_add_lt_page hpage hi
  have hdiv : (v.toNat + i) / PageSize = v.toNat / PageSize := by
    simp only [PageSize] at hpage ⊢
    omega
  have hmod : (v.toNat + i) % PageSize = v.toNat % PageSize + i := by
    simp only [PageSize] at hpage ⊢
    omega
  have hfits := h.fits
  refine ⟨rfl, ?_, ?_, h.valid, Bool.and_false _, h.inMemory, ?_, ?_⟩
  · rw [hadd, hdiv]
    exact h.inTable
  · rw [hadd, hdiv]
    exact h.entry_eq
  · rw [hadd, hmod, h.physAddr_eq]
    exact Nat.add_assoc ..
  · omega

/-- Where the first byte is readable, so is the whole of an aligned access. -/
theorem Translated.widen (h : Translated t pageTableSize v 1 false physAddr entry)
    (haligned : misaligned v size = false) (hsize : size = 1 ∨ size = 2 ∨ size = 4) :
    Translated t pageTableSize v size false physAddr entry := by
  have hpage := in_page_of_aligned haligned hsize
  have hframe := h.inMemory
  have hphys := h.physAddr_eq
  refine ⟨haligned, h.inTable, h.entry_eq, h.valid, Bool.and_false _, hframe, hphys, ?_⟩
  simp only [PageSize, NumPhysPages, MemorySize] at *
  omega

/-- The frame holds the whole access. -/
theorem Translated.in_frame (h : Translated t pageTableSize v size writing physAddr entry)
    (hsize : size = 1 ∨ size = 2 ∨ size = 4) : entry ∈ t ∧ entry.pageFrame < NumPhysPages ∧
      entry.pageFrame * PageSize ≤ physAddr ∧
      physAddr + size ≤ entry.pageFrame * PageSize + PageSize := by
  have hpage := h.in_page hsize
  have hphys := h.physAddr_eq
  exact ⟨List.mem_of_getElem? h.entry_eq, h.inMemory, by omega, by omega⟩

theorem readByte_eq_some {mem : ByteStore.Store}
    (h : Translated t pageTableSize v 1 false physAddr entry) :
    readByte t pageTableSize mem v = some (mem physAddr) := by
  have hok := translate_eq_ok_iff.mpr ⟨t, entry, rfl, h, rfl⟩
  simp only [readByte, hok]

theorem exists_translated_of_readByte {mem : ByteStore.Store} {byte : UInt8}
    (h : readByte t pageTableSize mem v = some byte) :
    ∃ physAddr entry, Translated t pageTableSize v 1 false physAddr entry := by
  unfold readByte at h
  split at h
  · next physAddr touched hok =>
    obtain ⟨t', entry, ht, htr, -⟩ := translate_eq_ok_iff.mp hok
    cases ht
    exact ⟨physAddr, entry, htr⟩
  · cases h

end

namespace Sim

/-- A refused access touches no memory. -/
theorem mainMemory_of_trap {addr : Word} {size : ℕ} {writing : Bool} {m m' : Machine}
    {which : ExceptionType} (h : translateOrRaise addr size writing m = .trap which m') :
    m'.mainMemory = m.mainMemory := by
  unfold translateOrRaise at h
  split at h
  · cases h
  · by_cases hload : (m.registers LoadReg).toNat < NumTotalRegs
    · rw [raiseException_apply _ _ hload] at h
      cases h
      rfl
    · rw [raiseException_abort _ _ hload] at h
      cases h
  · split at h <;> cases h

/-- A read changes no byte, whether it is refused or not. -/
theorem leaves_readMem (addr : Word) (size : ℕ) (m : Machine) :
    (readMem addr size m).Leaves fun m' => m'.mainMemory = m.mainMemory := by
  unfold readMem
  rw [bind_apply]
  cases h : translateOrRaise addr size false m with
  | ok physAddr m' =>
    obtain ⟨address, entry, -, -, rfl⟩ := translateOrRaise_ok h
    dsimp only
    split
    · rfl
    · rfl
    · rfl
    · trivial
  | trap which m' => exact mainMemory_of_trap h
  | abort => trivial

theorem readMem_eq {addr : Word} {size physAddr : ℕ} {m m' : Machine}
    (hsize : size = 1 ∨ size = 2 ∨ size = 4)
    (h : translateOrRaise addr size false m = .ok physAddr m') :
    readMem addr size m = .ok (loaded (bytesAt m'.mainMemory physAddr size)) m' := by
  refine bind_eq_ok_iff.mpr ⟨physAddr, m', h, ?_⟩
  rcases hsize with rfl | rfl | rfl
  · have hone : loadBytes m'.mainMemory physAddr 1 = (m'.mainMemory physAddr).toBitVec.toNat := rfl
    have hword : (BitVec.ofNat 8 (loadBytes m'.mainMemory physAddr 1)).signExtend 32 =
        loaded (bytesAt m'.mainMemory physAddr 1) := by
      rw [hone, BitVec.ofNat_toNat, BitVec.setWidth_eq]
      rfl
    exact congrArg (Outcome.ok · m') hword
  · have hword := congrArg (BitVec.ofNat 32) (loadBytes_eq_value m'.mainMemory physAddr 2)
    exact congrArg (Outcome.ok · m') hword
  · have hword := congrArg (BitVec.ofNat 32) (loadBytes_eq_value m'.mainMemory physAddr 4)
    exact congrArg (Outcome.ok · m') hword

end Sim

namespace Machine

variable {m m' : Machine} {t : PageTable} {v : Word} {size : ℕ}

/-- The hardware leaves a table as it is, up to use and dirty bits. -/
theorem Mapped.confined (h : m.Mapped t) (hc : Confined m m') : ∃ t', m'.Mapped t' ∧
    ∀ v, m'.virtualByte v = readByte t m.pageTableSize m'.mainMemory v := by
  obtain ⟨address, haddress, rfl⟩ := Option.map_eq_some_iff.mp h.table
  have htable : m'.table = some (m'.tables address) := by
    rw [Machine.table, hc.pageTable, haddress]
    rfl
  have hmap := hc.mapping address
  have hentry {i : ℕ} {entry' : TranslationEntry} (he : (m'.tables address)[i]? = some entry') :
      ∃ entry, (m.tables address)[i]? = some entry ∧ entry.pageFrame = entry'.pageFrame ∧
        entry.valid = entry'.valid := by
    have hget := congrArg (·[i]?) hmap
    simp only [List.getElem?_map, he, Option.map_some] at hget
    obtain ⟨entry, hentry, heq⟩ := Option.map_eq_some_iff.mp hget.symm
    refine ⟨entry, hentry, TranslationEntry.pageFrame_congr heq, ?_⟩
    simp only [TranslationEntry.mapping, Prod.mk.injEq] at heq
    exact heq.2.2.1
  refine ⟨m'.tables address, ⟨htable, ?_, ?_, ?_⟩, ?_⟩
  · have hlength := congrArg List.length hmap
    rw [List.length_map, List.length_map] at hlength
    rw [hc.pageTableSize, hlength]
    exact h.complete
  · intro i hi entry' he hvalid
    obtain ⟨entry, hentry, hframe, hv⟩ := hentry he
    rw [← hframe]
    exact h.frame_lt i (hc.pageTableSize ▸ hi) entry hentry (hv.trans hvalid)
  · intro i hi j hj a' b' ha hb hva hvb hframe
    obtain ⟨a, hentryA, hframeA, hvA⟩ := hentry ha
    obtain ⟨b, hentryB, hframeB, hvB⟩ := hentry hb
    exact h.injective i (hc.pageTableSize ▸ hi) j (hc.pageTableSize ▸ hj) a b hentryA hentryB
      (hvA.trans hva) (hvB.trans hvb) (hframeA.trans (hframe.trans hframeB.symm))
  · intro v
    rw [virtualByte, htable, Option.bind_some, hc.pageTableSize]
    exact readByte_congr hmap (fun _ _ => rfl) v

theorem Mapped.tables_eq (h : m.Mapped t) {address : ℕ} (haddress : m.pageTable = some address) :
    m.tables address = t := by
  have htable := h.table
  rw [Machine.table, haddress] at htable
  exact Option.some.inj htable

theorem Mapped.virtualByte_eq (h : m.Mapped t) (v : Word) :
    m.virtualByte v = readByte t m.pageTableSize m.mainMemory v := by
  rw [virtualByte, h.table]
  rfl

/-- A value that goes through the table is the one its bytes show. -/
theorem Mapped.readMem_ok (h : m.Mapped t) {physAddr : ℕ} {entry : TranslationEntry}
    (hsize : size = 1 ∨ size = 2 ∨ size = 4)
    (htr : Translated t m.pageTableSize v size false physAddr entry) :
    m.Shows v (bytesAt m.mainMemory physAddr size) ∧
      ∃ m', Sim.readMem v size m = .ok (loaded (bytesAt m.mainMemory physAddr size)) m' ∧
        m'.mainMemory = m.mainMemory := by
  constructor
  · intro i hi
    rw [length_bytesAt] at hi
    rw [h.virtualByte_eq, readByte_eq_some (htr.byte hsize hi), bytesAt, List.getElem?_map,
      List.getElem?_range hi]
    rfl
  · obtain ⟨address, haddress, rfl⟩ := Option.map_eq_some_iff.mp h.table
    have hread := Sim.readMem_eq hsize (Sim.translateOrRaise_of_translated haddress htr)
    exact ⟨_, hread, rfl⟩

theorem Shows.unique {bytes bytes' : List UInt8} (h : m.Shows v bytes) (h' : m.Shows v bytes')
    (hlength : bytes.length = bytes'.length) : bytes = bytes' := by
  apply List.ext_getElem?
  intro i
  by_cases hi : i < bytes.length
  · rw [← h i hi, ← h' i (hlength ▸ hi)]
  · rw [List.getElem?_eq_none (not_lt.mp hi), List.getElem?_eq_none (hlength ▸ not_lt.mp hi)]

/-- A read returns what virtual memory shows, and goes through wherever the range is aligned
and mapped. -/
theorem Mapped.readMem_iff (h : m.Mapped t) (hsize : size = 1 ∨ size = 2 ∨ size = 4)
    {value : Word} :
    (∃ m', Sim.readMem v size m = .ok value m') ↔ misaligned v size = false ∧
      ∃ bytes : List UInt8, bytes.length = size ∧ m.Shows v bytes ∧ value = loaded bytes := by
  constructor
  · rintro ⟨m', hread⟩
    obtain ⟨physAddr, m₁, hraise, -⟩ := Sim.bind_eq_ok_iff.mp hread
    obtain ⟨address, entry, haddress, htr, -⟩ := Sim.translateOrRaise_ok hraise
    rw [h.tables_eq haddress] at htr
    obtain ⟨hshows, m₂, hread₂, -⟩ := h.readMem_ok hsize htr
    cases hread.symm.trans hread₂
    exact ⟨htr.aligned, _, length_bytesAt .., hshows, rfl⟩
  · rintro ⟨haligned, bytes, hlength, hshows, rfl⟩
    have hfirst := hshows 0 (by omega)
    have hzero : v + BitVec.ofNat 32 0 = v := BitVec.add_zero v
    have hsome : bytes[0]? = some (bytes.get ⟨0, by omega⟩) :=
      List.getElem?_eq_getElem (by omega)
    rw [hzero, h.virtualByte_eq, hsome] at hfirst
    obtain ⟨physAddr, entry, hbyte⟩ := exists_translated_of_readByte hfirst
    obtain ⟨hshows', m', hread, -⟩ := h.readMem_ok hsize (hbyte.widen haligned hsize)
    have heq := hshows.unique hshows' (hlength.trans (length_bytesAt ..).symm)
    rw [heq]
    exact ⟨m', hread⟩

/-- A write that goes through changes its own bytes and no others. -/
theorem Mapped.written (h : m.Mapped t) (hsize : size = 1 ∨ size = 2 ∨ size = 4) {value : Word}
    (hwrite : Sim.writeMem v size value m = .ok () m') (b : Word) :
    m'.virtualByte b = if v.toNat ≤ b.toNat ∧ b.toNat < v.toNat + size
      then some (LittleEndian.byteOf value (b.toNat - v.toNat)) else m.virtualByte b := by
  obtain ⟨t', -, hshow⟩ := h.confined ((Sim.keeps_writeMem v size value).confined hwrite)
  obtain ⟨address, physAddr, entry, haddress, htr, hm'⟩ := Sim.writeMem_ok hwrite
  have hmem : m'.mainMemory =
      ByteStore.patch m.mainMemory ⟨physAddr, LittleEndian.bytesOf value size⟩ := by
    rw [hm', storeBytes_toNat]
  rw [h.tables_eq haddress] at htr
  rw [hshow, h.virtualByte_eq, hmem]
  have hpage := htr.in_page hsize
  have hphys := htr.physAddr_eq
  have hlength : (LittleEndian.bytesOf value size).length = size := by
    simp [LittleEndian.bytesOf]
  split_ifs with hb
  · -- the byte is on the page of the access
    obtain ⟨i, hi⟩ := Nat.exists_eq_add_of_le hb.1
    have hlt : i < size := by omega
    have hbi : v + BitVec.ofNat 32 i = b :=
      BitVec.eq_of_toNat_eq ((toNat_add_lt_page hpage hlt).trans hi.symm)
    have hbyte := htr.byte hsize hlt
    rw [hbi] at hbyte
    rw [readByte_eq_some hbyte, ByteStore.patch_of_covers]
    · have hidx : ((physAddr + i : ℕ) : ℤ) - physAddr = i := by omega
      have hsub : b.toNat - v.toNat = i := by omega
      simp only [ByteStore.Patch.byteAt, hidx, hsub, Int.toNat_natCast, LittleEndian.bytesOf,
        List.getD_eq_getElem?_getD, List.getElem?_map, List.getElem?_range hlt, Option.map_some,
        Option.getD_some]
    · refine ⟨by dsimp only; omega, ?_⟩
      dsimp only
      rw [hlength]
      omega
  · -- another byte is in another frame or at another offset
    by_cases hread : ∃ p e, Translated t m.pageTableSize b 1 false p e
    · obtain ⟨p, e, hp⟩ := hread
      rw [readByte_eq_some hp, readByte_eq_some hp, ByteStore.patch_of_not_covers]
      rintro ⟨h0, h1⟩
      dsimp only at h0 h1
      rw [hlength] at h1
      have hp' := hp.physAddr_eq
      have hframe : entry.pageFrame = e.pageFrame := by
        simp only [PageSize] at *
        omega
      have hsame := h.injective _ htr.inTable _ hp.inTable _ _ htr.entry_eq hp.entry_eq htr.valid
        hp.valid hframe
      apply hb
      rw [hframe] at hphys
      simp only [PageSize] at *
      omega
    · have hnone (mem : ByteStore.Store) : readByte t m.pageTableSize mem b = none := by
        apply Option.eq_none_iff_forall_ne_some.mpr
        intro byte hbyte
        exact hread (exists_translated_of_readByte hbyte)
      rw [hnone, hnone]

/-- No byte has changed. -/
def Unchanged (m m' : Machine) : Prop :=
  m'.mainMemory = m.mainMemory ∧ ∀ b, m'.virtualByte b = m.virtualByte b

theorem Mapped.unchanged (h : m.Mapped t) (hc : Confined m m')
    (hmem : m'.mainMemory = m.mainMemory) : m.Unchanged m' := by
  obtain ⟨t', -, hshow⟩ := h.confined hc
  refine ⟨hmem, ?_⟩
  intro b
  rw [hshow, hmem, h.virtualByte_eq]

theorem Mapped.read_unchanged (h : m.Mapped t) (hsize : size = 1 ∨ size = 2 ∨ size = 4) :
    (Sim.readMem v size m).Leaves m.Unchanged := by
  have hkeeps := Sim.keeps_readMem v size m
  cases hread : Sim.readMem v size m with
  | ok value m' =>
    rw [hread] at hkeeps
    obtain ⟨physAddr, m₁, hraise, -⟩ := Sim.bind_eq_ok_iff.mp hread
    obtain ⟨address, entry, -, -, hm₁⟩ := Sim.translateOrRaise_ok hraise
    have heq := Sim.readMem_eq hsize hraise
    rw [hread] at heq
    cases heq
    exact h.unchanged hkeeps (by rw [hm₁])
  | trap which m' =>
    rw [hread] at hkeeps
    exact h.unchanged hkeeps (Sim.mainMemory_of_trap (Sim.readMem_trap hsize hread))
  | abort => trivial

/-- What the accesses of any address and size do to a machine and get from it. -/
structure IsByteStore (bigEndian : Bool) (m : Machine) : Prop where
  asserted : ∀ v size writing, size = 1 ∨ size = 2 ∨ size = 4 →
    translate m.table m.pageTableSize v size writing ≠ none
  inFrame : ∀ v size writing physAddr touched, size = 1 ∨ size = 2 ∨ size = 4 →
    translate m.table m.pageTableSize v size writing = some (.ok (physAddr, touched)) →
    ∃ t, m.table = some t ∧ ∃ entry ∈ t, entry.pageFrame < NumPhysPages ∧
      entry.pageFrame * PageSize ≤ physAddr ∧
      physAddr + size ≤ entry.pageFrame * PageSize + PageSize
  reads : ∀ v size value, size = 1 ∨ size = 2 ∨ size = 4 →
    ((∃ m', Sim.hostReadMem bigEndian v size m = .ok value m') ↔ misaligned v size = false ∧
      ∃ bytes : List UInt8, bytes.length = size ∧ m.Shows v bytes ∧ value = loaded bytes)
  readable : ∀ v size result, size = 1 ∨ size = 2 ∨ size = 4 →
    translate m.table m.pageTableSize v size false = some (.ok result) →
    ∃ value m', Sim.hostReadMem bigEndian v size m = .ok value m'
  untouched : ∀ v size, size = 1 ∨ size = 2 ∨ size = 4 →
    (Sim.hostReadMem bigEndian v size m).Leaves m.Unchanged
  writable : ∀ v size value result, size = 1 ∨ size = 2 ∨ size = 4 →
    translate m.table m.pageTableSize v size true = some (.ok result) →
    ∃ m', Sim.hostWriteMem bigEndian v size value m = .ok () m'
  refused : ∀ v size value which m', size = 1 ∨ size = 2 ∨ size = 4 →
    Sim.hostWriteMem bigEndian v size value m = .trap which m' → m.Unchanged m'
  written : ∀ v size value m', size = 1 ∨ size = 2 ∨ size = 4 →
    Sim.hostWriteMem bigEndian v size value m = .ok () m' → ∀ b,
    m'.virtualByte b = if v.toNat ≤ b.toNat ∧ b.toNat < v.toNat + size
      then some (LittleEndian.byteOf value (b.toNat - v.toNat)) else m.virtualByte b

theorem Mapped.isByteStore (h : m.Mapped t) (bigEndian : Bool) : m.IsByteStore bigEndian where
  asserted v size writing hsize := by
    rw [h.table]
    exact translate_ne_none h.complete hsize
  inFrame v size writing physAddr touched hsize hok := by
    obtain ⟨t', entry, ht', htr, -⟩ := translate_eq_ok_iff.mp hok
    exact ⟨t', ht', entry, htr.in_frame hsize⟩
  reads v size value hsize := by
    rw [Sim.hostReadMem_eq]
    exact h.readMem_iff hsize
  readable v size result hsize hok := by
    rw [Sim.hostReadMem_eq]
    obtain ⟨t', entry, ht', htr, -⟩ := translate_eq_ok_iff.mp hok
    cases h.table.symm.trans ht'
    obtain ⟨-, m', hread, -⟩ := h.readMem_ok hsize htr
    exact ⟨_, m', hread⟩
  untouched v size hsize := by
    rw [Sim.hostReadMem_eq]
    exact h.read_unchanged hsize
  writable v size value result hsize hok := by
    rw [Sim.hostWriteMem_eq]
    obtain ⟨t', entry, ht', htr, -⟩ := translate_eq_ok_iff.mp hok
    exact (Sim.writeMem_ok_iff value hsize).mpr ⟨t', _, entry, ht', htr⟩
  refused v size value which m' hsize htrap := by
    rw [Sim.hostWriteMem_eq] at htrap
    have hkeeps := Sim.keeps_writeMem v size value m
    rw [htrap] at hkeeps
    exact h.unchanged hkeeps (Sim.mainMemory_of_trap (Sim.writeMem_trap hsize htrap))
  written v size value m' hsize hwrite := by
    rw [Sim.hostWriteMem_eq] at hwrite
    exact h.written hsize hwrite

end Machine

/-- On hosts of both byte orders, before and after every write that goes through. -/
theorem virtual_memory_little_endian (bigEndian : Bool) {m : Machine} {t : PageTable}
    (h : m.Mapped t) : m.IsByteStore bigEndian ∧
      ∀ v size value m', size = 1 ∨ size = 2 ∨ size = 4 →
        Sim.hostWriteMem bigEndian v size value m = .ok () m' →
        (∃ t', m'.Mapped t') ∧ m'.IsByteStore bigEndian := by
  refine ⟨h.isByteStore bigEndian, ?_⟩
  intro v size value m' hsize hwrite
  rw [Sim.hostWriteMem_eq] at hwrite
  obtain ⟨t', ht', -⟩ := h.confined ((Sim.keeps_writeMem v size value).confined hwrite)
  exact ⟨⟨t', ht'⟩, ht'.isByteStore bigEndian⟩

/-- Two pages, in frames 5 and 3. -/
def twoPages : Machine where
  registers _ := 0
  mainMemory _ := 0
  pageTable := some 0
  pageTableSize := 2
  tables _ := [⟨0, 5, true, false, false, false⟩, ⟨1, 3, true, false, false, false⟩]

theorem mapped_twoPages : twoPages.Mapped (twoPages.tables 0) := by
  refine ⟨rfl, le_rfl, ?_, ?_⟩
  · intro i hi entry he _
    have hi : i < 2 := hi
    interval_cases i <;> cases he <;> decide
  · intro i hi j hj a b ha hb _ _ hframe
    have hi : i < 2 := hi
    have hj : j < 2 := hj
    interval_cases i <;> interval_cases j <;> cases ha <;> cases hb <;>
      first | rfl | exact absurd hframe (by decide)

theorem virtual_memory_little_endian_twoPages :
    ∃ m', Sim.hostWriteMem true 132 4 0x80ff0102 twoPages = .ok () m' ∧
      m'.virtualByte 135 = some 0x80 ∧ m'.virtualByte 131 = some 0 ∧
      ∃ m'', Sim.hostReadMem true 135 1 m' = .ok 0xffffff80 m'' := by
  obtain ⟨hstore, hafter⟩ := virtual_memory_little_endian true mapped_twoPages
  obtain ⟨m', hwrite⟩ := hstore.writable 132 4 0x80ff0102 _ (by decide) rfl
  have hbytes := hstore.written 132 4 0x80ff0102 m' (by decide) hwrite
  have hlast : m'.virtualByte 135 = some 0x80 := by
    rw [hbytes]
    decide
  have hother : m'.virtualByte 131 = some 0 := by
    rw [hbytes]
    decide
  refine ⟨m', hwrite, hlast, hother, ?_⟩
  obtain ⟨-, hstore'⟩ := hafter 132 4 0x80ff0102 m' (by decide) hwrite
  refine (hstore'.reads 135 1 _ (by decide)).mpr ⟨by decide, [0x80], rfl, ?_, by decide⟩
  intro i hi
  obtain rfl : i = 0 := Nat.lt_one_iff.mp hi
  exact hlast

end Nachos

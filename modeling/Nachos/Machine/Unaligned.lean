import Nachos.Machine.Executed

/-! The unaligned loads and stores. Each instruction of a pair has its part of the word in one
of two aligned words: the left one that which ends at its address, the right one that which
begins there. Together they move the word, in either order. -/
namespace Nachos

open LittleEndian

/-- The low `k` bytes of `a`, and above them the lowest of `b`. -/
def joinLow (k : ℕ) (a b : Word) : Word := a &&& BitVec.ofNat 32 (2 ^ (8 * k) - 1) ||| b <<< (8 * k)

/-- The highest `k` bytes of `b`, and above them those of `a` at the same place. -/
def joinHigh (k : ℕ) (a b : Word) : Word :=
  a &&& ~~~ BitVec.ofNat 32 (2 ^ (8 * k) - 1) |||
    b.sshiftRight (32 - 8 * k) &&& BitVec.ofNat 32 (2 ^ (8 * k) - 1)

theorem byteOf_congr {v v' : Word} {i i' : ℕ}
    (h : ∀ b < 8, v.getLsbD (8 * i + b) = v'.getLsbD (8 * i' + b)) : byteOf v i = byteOf v' i' := by
  apply congrArg UInt8.ofBitVec
  apply BitVec.eq_of_getLsbD_eq
  intro b hb
  rw [BitVec.getLsbD_extractLsb', BitVec.getLsbD_extractLsb', h b hb]

theorem getLsbD_ones (k i : ℕ) (hi : i < 32) :
    (BitVec.ofNat 32 (2 ^ k - 1)).getLsbD i = decide (i < k) := by
  rw [BitVec.getLsbD_ofNat, Nat.testBit_two_pow_sub_one, decide_eq_true hi, Bool.true_and]

theorem byteOf_joinLow {k j : ℕ} (a b : Word) (hj : j < 4) :
    byteOf (joinLow k a b) j = if j < k then byteOf a j else byteOf b (j - k) := by
  split_ifs with hlt
  · apply byteOf_congr
    intro i hi
    simp only [joinLow, BitVec.getLsbD_or, BitVec.getLsbD_and, BitVec.getLsbD_shiftLeft]
    rw [getLsbD_ones _ _ (by omega), decide_eq_true (show 8 * j + i < 8 * k by omega)]
    simp
  · apply byteOf_congr
    intro i hi
    have hindex : 8 * j + i - 8 * k = 8 * (j - k) + i := by omega
    simp only [joinLow, BitVec.getLsbD_or, BitVec.getLsbD_and, BitVec.getLsbD_shiftLeft]
    rw [getLsbD_ones _ _ (by omega), decide_eq_false (show ¬ 8 * j + i < 8 * k by omega),
      decide_eq_true (show 8 * j + i < 32 by omega), hindex]
    simp

theorem byteOf_joinHigh {k j : ℕ} (a b : Word) (hk : k ≤ 4) (hj : j < 4) :
    byteOf (joinHigh k a b) j = if j < k then byteOf b (j + (4 - k)) else byteOf a j := by
  split_ifs with hlt
  · apply byteOf_congr
    intro i hi
    have hindex : 32 - 8 * k + (8 * j + i) = 8 * (j + (4 - k)) + i := by omega
    simp only [joinHigh, BitVec.getLsbD_or, BitVec.getLsbD_and, BitVec.getLsbD_not,
      BitVec.getLsbD_sshiftRight]
    rw [getLsbD_ones _ _ (by omega), decide_eq_true (show 8 * j + i < 8 * k by omega), hindex,
      if_pos (by omega), decide_eq_false (show ¬ 32 ≤ 8 * j + i by omega)]
    simp
  · apply byteOf_congr
    intro i hi
    simp only [joinHigh, BitVec.getLsbD_or, BitVec.getLsbD_and, BitVec.getLsbD_not,
      BitVec.getLsbD_sshiftRight]
    rw [getLsbD_ones _ _ (by omega), decide_eq_false (show ¬ 8 * j + i < 8 * k by omega),
      decide_eq_true (show 8 * j + i < 32 by omega)]
    simp

/-- The place of an address in its aligned word. -/
def lane (x : Word) : ℕ := x.toNat % 4

/-- The aligned word that holds an address. -/
def alignedWord (x : Word) : Word := x - (x &&& 0x3)

theorem lane_lt (x : Word) : lane x < 4 := Nat.mod_lt _ (by decide)

theorem toNat_and_3 (x : Word) : (x &&& 0x3).toNat = lane x := by
  rw [BitVec.toNat_and]
  exact Nat.and_two_pow_sub_one_eq_mod _ 2

theorem toNat_alignedWord (x : Word) : (alignedWord x).toNat = x.toNat - lane x := by
  have hle : (x &&& 0x3).toNat ≤ x.toNat := by
    rw [toNat_and_3]
    exact Nat.mod_le _ _
  rw [alignedWord, BitVec.toNat_sub_of_le hle, toNat_and_3]

theorem and_3_eq (x : Word) : x &&& 0x3 = BitVec.ofNat 32 (lane x) := by
  apply BitVec.eq_of_toNat_eq
  have hlt := lane_lt x
  rw [toNat_and_3, BitVec.toNat_ofNat]
  omega

theorem and_ones (x : Word) : x &&& 4294967295#32 = x := BitVec.and_allOnes

section Merge

variable (x old value rt : Word)

theorem mergeLwl_eq :
    Sim.mergeLwl (3 - (x &&& 0x3)) old value = joinLow (3 - lane x) old value := by
  have hlt := lane_lt x
  rw [and_3_eq]
  generalize lane x = b at hlt ⊢
  interval_cases b <;> simp [Sim.mergeLwl, joinLow]

theorem mergeLwr_eq :
    Sim.mergeLwr (3 - (x &&& 0x3)) old value = joinHigh (4 - lane x) old value := by
  have hlt := lane_lt x
  rw [and_3_eq]
  generalize lane x = b at hlt ⊢
  interval_cases b <;> simp [Sim.mergeLwr, joinHigh, and_ones]

theorem mergeSwl_eq : Sim.mergeSwl (3 - (x &&& 0x3)) value rt = joinHigh (lane x + 1) value rt := by
  have hlt := lane_lt x
  rw [and_3_eq]
  generalize lane x = b at hlt ⊢
  interval_cases b <;> simp [Sim.mergeSwl, joinHigh, and_ones]

theorem mergeSwr_eq : Sim.mergeSwr (3 - (x &&& 0x3)) value rt = joinLow (lane x) value rt := by
  have hlt := lane_lt x
  rw [and_3_eq]
  generalize lane x = b at hlt ⊢
  interval_cases b <;> simp [Sim.mergeSwr, joinLow]

end Merge

namespace Machine

variable {m m' : Machine} {t : PageTable} {w : Word}

/-- An aligned word that could be written can be read. -/
theorem Mapped.readWord (h : m.Mapped t) (hw : m.Writable (w, 4)) :
    ∃ value m', Sim.readMem w 4 m = .ok value m' ∧ Untouched m m' ∧
      ∀ j < 4, m.virtualByte (w + BitVec.ofNat 32 j) = some (byteOf value j) := by
  obtain ⟨t', physAddr, entry, ht', htr⟩ := hw
  cases h.table.symm.trans ht'
  have htr' : Translated t m.pageTableSize w 4 false physAddr entry :=
    ⟨htr.aligned, htr.inTable, htr.entry_eq, htr.valid, Bool.and_false _, htr.inMemory,
      htr.physAddr_eq, htr.fits⟩
  obtain ⟨address, haddress, htable⟩ := Option.map_eq_some_iff.mp h.table
  subst htable
  have hread := Sim.readMem_eq (.inr (.inr rfl)) (Sim.translateOrRaise_of_translated haddress htr')
  refine ⟨_, _, hread, ⟨rfl, rfl, (Sim.keeps_readMem _ _).confined hread⟩, ?_⟩
  intro j hj
  rw [(h.readMem_ok (.inr (.inr rfl)) htr').1 j (by rw [length_bytesAt]; exact hj)]
  have hlength := length_bytesAt m.mainMemory physAddr 4
  show _ = some (byteOf (BitVec.ofNat 32 (LittleEndian.value (bytesAt m.mainMemory physAddr 4))) j)
  rw [byteOf_value _ (by omega), List.getD_eq_getElem?_getD,
    List.getElem?_eq_getElem (by rw [hlength]; exact hj)]
  rfl

theorem Mapped.untouched (h : m.Mapped t) (hu : Untouched m m') :
    (∃ t', m'.Mapped t') ∧ ∀ v, m'.virtualByte v = m.virtualByte v := by
  obtain ⟨t', ht', -⟩ := h.confined hu.confined
  exact ⟨⟨t', ht'⟩, (h.unchanged hu.confined hu.mainMemory).2⟩

/-- The instruction that is next, and the address it gets. -/
structure Next (m : Machine) (raw : Word) (opCode : OpCode) (x : Word) : Prop where
  fetched : m.fetched = some raw
  opCode : (decode raw).opCode = opCode
  address : m.registers (decode raw).rs + (decode raw).extra = x

end Machine

open Machine

namespace Sim

variable {m : Machine} {t : PageTable} {raw x : Word} {merge : Word → Word → Word → Word}

theorem loadUnaligned_apply {instr : Instruction} {pcAfter : Word} {m₁ : Machine} {value : Word}
    (hread : readMem (alignedWord (m.registers instr.rs + instr.extra)) 4 m = .ok value m₁)
    (hregisters : m₁.registers = m.registers) :
    loadUnaligned instr pcAfter merge m = .ok ⟨BitVec.ofNat 32 instr.rt,
      merge (3 - ((m.registers instr.rs + instr.extra) &&& 0x3))
        (if m.registers LoadReg = BitVec.ofNat 32 instr.rt then m.registers LoadValueReg
          else m.registers instr.rt) value, pcAfter⟩ m₁ := by
  have hdo : loadUnaligned instr pcAfter merge m =
      (readMem (alignedWord (m.registers instr.rs + instr.extra)) 4 >>= fun value => do
        load instr (merge (3 - ((m.registers instr.rs + instr.extra) &&& 0x3))
          (← pendingRt instr) value) pcAfter) m := rfl
  have hpending : pendingRt instr m₁ =
      .ok (if m.registers LoadReg = BitVec.ofNat 32 instr.rt then m.registers LoadValueReg
        else m.registers instr.rt) m₁ := by
    have hbind : pendingRt instr m₁ = (if m₁.registers LoadReg = BitVec.ofNat 32 instr.rt
      then reg LoadValueReg else reg instr.rt) m₁ := rfl
    rw [hbind, hregisters]
    split_ifs
    · exact congrArg (Outcome.ok · m₁) (congrFun hregisters _)
    · exact congrArg (Outcome.ok · m₁) (congrFun hregisters _)
  rw [hdo, bind_apply, hread]
  dsimp only
  rw [bind_apply, hpending]
  rfl

/-- One of the two loads, up to where it has started the delayed load. -/
theorem loadUnaligned_step (hmapped : m.Mapped t) (hload : (m.registers LoadReg).toNat < 32)
    {opCode : OpCode} (hnext : m.Next raw opCode x)
    (hexecute : ∀ pcAfter m₁, execute (decode raw) pcAfter m₁ =
      loadUnaligned (decode raw) pcAfter merge m₁)
    (hw : m.Writable (alignedWord x, 4)) :
    ∃ value m', oneInstruction m = .ok () m' ∧
      (∀ j < 4, m.virtualByte (alignedWord x + BitVec.ofNat 32 j) = some (byteOf value j)) ∧
      m'.registers LoadReg = BitVec.ofNat 32 (decode raw).rt ∧
      m'.registers LoadValueReg = merge (3 - (x &&& 0x3))
        (if m.registers LoadReg = BitVec.ofNat 32 (decode raw).rt then m.registers LoadValueReg
          else m.registers (decode raw).rt) value ∧
      (∀ r : Fin NumTotalRegs, (r : ℕ) < 34 → m'.registers r = m.delivered r) ∧
      m'.mainMemory = m.mainMemory ∧ Confined m m' := by
  obtain ⟨m₁, hfetched, hone⟩ := oneInstruction_of_fetched hnext.fetched
  obtain ⟨⟨t₁, hmapped₁⟩, hbytes⟩ := hmapped.untouched hfetched
  have hw₁ : m₁.Writable (alignedWord x, 4) := (hfetched.confined.writable_iff _).mpr hw
  obtain ⟨value, m₂, hread, hu, hvalue⟩ := hmapped₁.readWord hw₁
  have haddress : m₁.registers (decode raw).rs + (decode raw).extra = x := by
    rw [hfetched.registers]
    exact hnext.address
  have hread' := hread
  rw [← haddress] at hread'
  have happly : loadUnaligned (decode raw) (m.registers NextPCReg + 4) merge m₁ = _ :=
    loadUnaligned_apply hread' hu.registers
  rw [haddress, hfetched.registers] at happly
  have hregisters : m₂.registers = m.registers := hu.registers.trans hfetched.registers
  have hload₂ : (m₂.registers LoadReg).toNat < 32 := by
    rw [hregisters]
    exact hload
  obtain ⟨m', hfinish, hm'⟩ := finish_finished ⟨BitVec.ofNat 32 (decode raw).rt,
    merge (3 - (x &&& 0x3)) (if m.registers LoadReg = BitVec.ofNat 32 (decode raw).rt
      then m.registers LoadValueReg else m.registers (decode raw).rt) value,
    m.registers NextPCReg + 4⟩ hload₂
  have hok : oneInstruction m = .ok () m' := by
    rw [hone, bind_apply, hexecute, happly]
    exact hfinish
  refine ⟨value, m', hok, ?_, hm'.loadReg, hm'.loadValue, ?_, ?_, ?_⟩
  · intro j hj
    rw [← hbytes]
    exact hvalue j hj
  · intro r hr
    rw [hm'.delivered r hr, delivered, delivered, hregisters]
  · rw [hm'.rest]
    exact hu.mainMemory.trans hfetched.mainMemory
  · have hc := hfetched.confined.trans hu.confined
    rw [hm'.rest]
    exact ⟨hc.pageTable, hc.pageTableSize, hc.mapping, hc.memory⟩

theorem storeUnaligned_apply {instr : Instruction} {m₁ m₂ : Machine} {value : Word}
    (hread : readMem (alignedWord (m.registers instr.rs + instr.extra)) 4 m = .ok value m₁)
    (hregisters : m₁.registers = m.registers)
    (hwrite : writeMem (alignedWord (m.registers instr.rs + instr.extra)) 4
      (merge (3 - ((m.registers instr.rs + instr.extra) &&& 0x3)) value (m.registers instr.rt)) m₁ =
        .ok () m₂) :
    storeUnaligned instr merge m = .ok () m₂ := by
  have hdo : storeUnaligned instr merge m =
      (readMem (alignedWord (m.registers instr.rs + instr.extra)) 4 >>= fun value => do
        writeMem (alignedWord (m.registers instr.rs + instr.extra)) 4
          (merge (3 - ((m.registers instr.rs + instr.extra) &&& 0x3)) value
            (← reg instr.rt))) m := rfl
  have hrt : reg instr.rt m₁ = .ok (m.registers instr.rt) m₁ :=
    congrArg (Outcome.ok · m₁) (congrFun hregisters _)
  rw [hdo, bind_apply, hread]
  dsimp only
  rw [bind_apply, hrt]
  exact hwrite

/-- One of the two stores: the merged word is in memory. -/
theorem storeUnaligned_step (hmapped : m.Mapped t) (hload : (m.registers LoadReg).toNat < 32)
    {opCode : OpCode} (hnext : m.Next raw opCode x)
    (hexecute : ∀ pcAfter m₁, execute (decode raw) pcAfter m₁ =
      (storeUnaligned (decode raw) merge >>= fun _ => done pcAfter) m₁)
    (hw : m.Writable (alignedWord x, 4)) :
    ∃ value m', oneInstruction m = .ok () m' ∧
      (∀ j < 4, m.virtualByte (alignedWord x + BitVec.ofNat 32 j) = some (byteOf value j)) ∧
      (∀ v, m'.virtualByte v =
        if (alignedWord x).toNat ≤ v.toNat ∧ v.toNat < (alignedWord x).toNat + 4
        then some (byteOf (merge (3 - (x &&& 0x3)) value (m.registers (decode raw).rt))
          (v.toNat - (alignedWord x).toNat)) else m.virtualByte v) ∧
      m'.registers LoadReg = 0 ∧
      (∀ r : Fin NumTotalRegs, (r : ℕ) < 34 → m'.registers r = m.delivered r) ∧
      Confined m m' := by
  obtain ⟨m₁, hfetched, hone⟩ := oneInstruction_of_fetched hnext.fetched
  obtain ⟨⟨t₁, hmapped₁⟩, hbytes⟩ := hmapped.untouched hfetched
  have hw₁ : m₁.Writable (alignedWord x, 4) := (hfetched.confined.writable_iff _).mpr hw
  obtain ⟨value, m₂, hread, hu, hvalue⟩ := hmapped₁.readWord hw₁
  obtain ⟨⟨t₂, hmapped₂⟩, hbytes₂⟩ := hmapped₁.untouched hu
  have hw₂ : m₂.Writable (alignedWord x, 4) := (hu.confined.writable_iff _).mpr hw₁
  obtain ⟨m₃, hwrite⟩ := (writeMem_ok_iff (merge (3 - (x &&& 0x3)) value
    (m.registers (decode raw).rt)) (.inr (.inr rfl))).mpr hw₂
  obtain ⟨address, physAddr, entry, -, -, hm₃⟩ := writeMem_ok hwrite
  have hwritten := hmapped₂.written (.inr (.inr rfl)) hwrite
  have hconfined := (hfetched.confined.trans hu.confined).trans
    ((keeps_writeMem _ _ _).confined hwrite)
  have hregisters : m₃.registers = m.registers := by
    rw [hm₃]
    exact hu.registers.trans hfetched.registers
  have haddress : m₁.registers (decode raw).rs + (decode raw).extra = x := by
    rw [hfetched.registers]
    exact hnext.address
  have hread' := hread
  rw [← haddress] at hread'
  have hwrite' := hwrite
  rw [← haddress, ← hfetched.registers] at hwrite'
  have hstore : storeUnaligned (decode raw) merge m₁ = .ok () m₃ :=
    storeUnaligned_apply hread' hu.registers hwrite'
  have hload₃ : (m₃.registers LoadReg).toNat < 32 := by
    rw [hregisters]
    exact hload
  obtain ⟨m', hfinish, hm'⟩ := finish_finished ⟨0, 0, m.registers NextPCReg + 4⟩ hload₃
  have hok : oneInstruction m = .ok () m' := by
    rw [hone, bind_apply, hexecute, bind_apply, hstore]
    exact hfinish
  have hbyte (v : Word) : m'.virtualByte v = m₃.virtualByte v := by
    rw [hm'.rest]
    rfl
  refine ⟨value, m', hok, ?_, ?_, hm'.loadReg, ?_, ?_⟩
  · intro j hj
    rw [← hbytes]
    exact hvalue j hj
  · intro v
    rw [hbyte, hwritten, hbytes₂, hbytes]
  · intro r hr
    rw [hm'.delivered r hr, delivered, delivered, hregisters]
  · rw [hm'.rest]
    exact ⟨hconfined.pageTable, hconfined.pageTableSize, hconfined.mapping, hconfined.memory⟩

end Sim

/-- The byte of the register that an instruction of the pair at `x` moves to or from `v`. -/
def part (isLeft : Bool) (x v : Word) : Option ℕ :=
  if v.toNat / 4 ≠ x.toNat / 4 then none
  else if isLeft then if lane v ≤ lane x then some (lane v + 3 - lane x) else none
  else if lane x ≤ lane v then some (lane v - lane x) else none

/-- The address that an instruction of the pair at `a` gets. -/
def half (isLeft : Bool) (a : Word) : Word := if isLeft then a + 3 else a

section Part

variable {a v : Word} {isLeft : Bool} {i : ℕ}

theorem toNat_add_3 (a : Word) : (a + 3).toNat = (a.toNat + 3) % 2 ^ 32 := BitVec.toNat_add ..

theorem toNat_add_ofNat (a : Word) :
    (a + BitVec.ofNat 32 i).toNat = (a.toNat + i) % 2 ^ 32 := by
  rw [BitVec.toNat_add, BitVec.toNat_ofNat]
  omega

theorem part_eq_some (h : part isLeft (half isLeft a) v = some i) :
    i < 4 ∧ v = a + BitVec.ofNat 32 i := by
  have ha := a.isLt
  have hv := v.isLt
  have h3 := toNat_add_3 a
  have hi : i < 4 ∧ v.toNat = (a.toNat + i) % 2 ^ 32 := by
    cases isLeft with
    | true =>
      simp only [part, half, lane, if_true] at h
      split_ifs at h
      cases h
      omega
    | false =>
      simp only [part, half, lane, Bool.false_eq_true, if_false] at h
      split_ifs at h
      cases h
      omega
  refine ⟨hi.1, BitVec.eq_of_toNat_eq ?_⟩
  rw [toNat_add_ofNat a, hi.2]

/-- Which of the four bytes an instruction moves. -/
theorem part_eq_some_iff (a : Word) (hi : i < 4) (isLeft : Bool) :
    part isLeft (half isLeft a) (a + BitVec.ofNat 32 i) = some i ↔
      if isLeft then 3 ≤ lane (half true a) + i else lane a + i < 4 := by
  have ha := a.isLt
  have h3 := toNat_add_3 a
  have hv := toNat_add_ofNat a (i := i)
  cases isLeft with
  | true =>
    simp only [part, half, lane, if_true]
    split_ifs with hword hlane
    · simp only [false_iff]
      omega
    · rw [Option.some_inj]
      omega
    · simp only [false_iff]
      omega
  | false =>
    simp only [part, half, lane, Bool.false_eq_true, if_false]
    split_ifs with hword hlane
    · simp only [false_iff]
      omega
    · rw [Option.some_inj]
      omega
    · simp only [false_iff]
      omega

/-- The two instructions move the four bytes between them. -/
theorem part_covers (a : Word) (hi : i < 4) (isLeft : Bool) :
    part isLeft (half isLeft a) (a + BitVec.ofNat 32 i) = some i ∨
      part (!isLeft) (half (!isLeft) a) (a + BitVec.ofNat 32 i) = some i := by
  have ha := a.isLt
  have h3 := toNat_add_3 a
  rw [part_eq_some_iff a hi, part_eq_some_iff a hi]
  cases isLeft <;> simp only [half, lane, Bool.not_true, Bool.not_false, Bool.false_eq_true,
    if_true, if_false] <;> omega

theorem part_unique {j : ℕ} (hi : i < 4)
    (h : part isLeft (half isLeft a) (a + BitVec.ofNat 32 i) = some j) : j = i := by
  obtain ⟨hj, heq⟩ := part_eq_some h
  have hnat := congrArg BitVec.toNat heq
  rw [toNat_add_ofNat a, toNat_add_ofNat a] at hnat
  have ha := a.isLt
  omega

end Part

theorem alignedWord_add {x v : Word} (h : v.toNat / 4 = x.toNat / 4) :
    alignedWord x + BitVec.ofNat 32 (lane v) = v := by
  have hx := x.isLt
  apply BitVec.eq_of_toNat_eq
  rw [toNat_add_ofNat, toNat_alignedWord]
  unfold lane
  omega

namespace Machine

variable {m m' : Machine} {t : PageTable} {raw a : Word} {rt : Fin NumTotalRegs} {isLeft : Bool}

/-- The next instruction is one of the pair `left` and `right` that moves `rt` at `a`. -/
def NextOf (m : Machine) (left right : OpCode) (isLeft : Bool) (rt : Fin NumTotalRegs)
    (a : Word) : Prop :=
  ∃ raw, m.Next raw (if isLeft then left else right) (half isLeft a) ∧
    (decode raw).rt = rt ∧ (decode raw).rs ≠ rt

/-- The words that enclose the four bytes can be written. -/
def EnclosingWritable (m : Machine) (a : Word) : Prop :=
  ∀ isLeft, m.Writable (alignedWord (half isLeft a), 4)

theorem EnclosingWritable.confined (h : m.EnclosingWritable a) (hc : Confined m m') :
    m'.EnclosingWritable a := fun isLeft => (hc.writable_iff _).mpr (h isLeft)

/-- `SWL` or `SWR` writes its part of the register. -/
theorem store_part (hmapped : m.Mapped t) (hload : (m.registers LoadReg).toNat < 32)
    (hw : m.EnclosingWritable a) (hnext : m.NextOf .swl .swr isLeft rt a) :
    ∃ m', Sim.oneInstruction m = .ok () m' ∧
      (∀ v, m'.virtualByte v = (part isLeft (half isLeft a) v).elim (m.virtualByte v)
        fun i => some (byteOf (m.registers rt) i)) ∧
      m'.registers LoadReg = 0 ∧
      (∀ r : Fin NumTotalRegs, (r : ℕ) < 34 → m'.registers r = m.delivered r) ∧
      Confined m m' := by
  obtain ⟨raw, hnext, rfl, -⟩ := hnext
  have hop := hnext.opCode
  have hexecute (pcAfter : Word) (m₁ : Machine) : Sim.execute (decode raw) pcAfter m₁ =
      (Sim.storeUnaligned (decode raw) (if isLeft then Sim.mergeSwl else Sim.mergeSwr) >>=
        fun _ => Sim.done pcAfter) m₁ := by
    generalize decode raw = instr at hop
    obtain ⟨opCode, rs, rt, rd, extra⟩ := instr
    cases isLeft <;> cases hop <;> rfl
  obtain ⟨value, m', hok, hvalue, hwritten, hrest⟩ :=
    Sim.storeUnaligned_step hmapped hload hnext hexecute (hw isLeft)
  refine ⟨m', hok, ?_, hrest⟩
  intro v
  have hlane := lane_lt v
  have hword := toNat_alignedWord (half isLeft a)
  rw [hwritten]
  by_cases hsame : v.toNat / 4 = (half isLeft a).toNat / 4
  · have hin : (alignedWord (half isLeft a)).toNat ≤ v.toNat ∧
        v.toNat < (alignedWord (half isLeft a)).toNat + 4 := by
      unfold lane at hword
      omega
    have hsub : v.toNat - (alignedWord (half isLeft a)).toNat = lane v := by
      unfold lane at hword ⊢
      omega
    have hold := hvalue (lane v) hlane
    rw [alignedWord_add hsame] at hold
    rw [if_pos hin, hsub, part, if_neg (not_not.mpr hsame)]
    cases isLeft with
    | true =>
      simp only [if_true, mergeSwl_eq, byteOf_joinHigh _ _ (lane_lt _) hlane, Nat.lt_succ_iff]
      split_ifs with hpart
      · have hindex : lane v + (4 - (lane (half true a) + 1)) =
            lane v + 3 - lane (half true a) := by
          have := lane_lt (half true a)
          omega
        rw [hindex]
        rfl
      · exact hold.symm
    | false =>
      simp only [Bool.false_eq_true, if_false, mergeSwr_eq, byteOf_joinLow _ _ hlane]
      split_ifs with hpart hpart'
      · omega
      · exact hold.symm
      · rfl
      · omega
  · have hout : ¬ ((alignedWord (half isLeft a)).toNat ≤ v.toNat ∧
        v.toNat < (alignedWord (half isLeft a)).toNat + 4) := by
      unfold lane at hword
      omega
    rw [if_neg hout, part, if_pos hsame]
    rfl

/-- `LWL` or `LWR` starts a load that has its part from memory and the rest from before. -/
theorem load_part (hmapped : m.Mapped t) (hload : (m.registers LoadReg).toNat < 32)
    (hw : m.EnclosingWritable a) (hnext : m.NextOf .lwl .lwr isLeft rt a) :
    ∃ m', Sim.oneInstruction m = .ok () m' ∧
      (∀ v i, part isLeft (half isLeft a) v = some i →
        m.virtualByte v = some (byteOf (m'.registers LoadValueReg) i)) ∧
      (∀ i < 4, part isLeft (half isLeft a) (a + BitVec.ofNat 32 i) ≠ some i →
        byteOf (m'.registers LoadValueReg) i = byteOf
          (if m.registers LoadReg = BitVec.ofNat 32 rt then m.registers LoadValueReg
            else m.registers rt) i) ∧
      m'.registers LoadReg = BitVec.ofNat 32 rt ∧
      (∀ r : Fin NumTotalRegs, (r : ℕ) < 34 → m'.registers r = m.delivered r) ∧
      m'.mainMemory = m.mainMemory ∧ Confined m m' := by
  obtain ⟨raw, hnext, rfl, -⟩ := hnext
  have hop := hnext.opCode
  have hexecute (pcAfter : Word) (m₁ : Machine) : Sim.execute (decode raw) pcAfter m₁ =
      Sim.loadUnaligned (decode raw) pcAfter
        (if isLeft then Sim.mergeLwl else Sim.mergeLwr) m₁ := by
    generalize decode raw = instr at hop
    obtain ⟨opCode, rs, rt, rd, extra⟩ := instr
    cases isLeft <;> cases hop <;> rfl
  obtain ⟨value, m', hok, hvalue, hloadReg, hloadValue, hrest⟩ :=
    Sim.loadUnaligned_step hmapped hload hnext hexecute (hw isLeft)
  refine ⟨m', hok, ?_, ?_, hloadReg, hrest⟩
  · intro v i hpart
    have hi := (part_eq_some hpart).1
    have hlane := lane_lt v
    have hhalf := lane_lt (half isLeft a)
    unfold part at hpart
    split_ifs at hpart with hword hleft hle hle
    · subst hleft
      cases hpart
      have hold := hvalue (lane v) hlane
      rw [alignedWord_add (not_not.mp hword)] at hold
      rw [hloadValue, hold]
      simp only [if_true, mergeLwl_eq, byteOf_joinLow _ _ hi]
      rw [if_neg (by omega)]
      congr 2
      omega
    · obtain rfl := Bool.eq_false_of_not_eq_true hleft
      cases hpart
      have hold := hvalue (lane v) hlane
      rw [alignedWord_add (not_not.mp hword)] at hold
      rw [hloadValue, hold]
      simp only [Bool.false_eq_true, if_false, mergeLwr_eq, byteOf_joinHigh _ _ (Nat.sub_le _ _) hi]
      rw [if_pos (by omega)]
      congr 2
      omega
  · intro i hi hpart
    rw [Ne, part_eq_some_iff a hi] at hpart
    rw [hloadValue]
    cases isLeft with
    | true =>
      simp only [if_true] at hpart ⊢
      rw [mergeLwl_eq, byteOf_joinLow _ _ hi, if_pos (by omega)]
    | false =>
      simp only [half, Bool.false_eq_true, if_false] at hpart ⊢
      rw [mergeLwr_eq, byteOf_joinHigh _ _ (Nat.sub_le _ _) hi, if_neg (by omega)]

/-- The pair of loads at `a`, in either order, makes any register the word there, also when an
interrupt comes between the two. -/
def LoadsWord (m : Machine) (a value : Word) : Prop :=
  ∀ isLeft rt, rt ≠ 0 → m.NextOf .lwl .lwr isLeft rt a →
    ∃ m₁, Sim.oneInstruction m = .ok () m₁ ∧
      ∀ m₁' ∈ [m₁, m₁.flush], m₁'.NextOf .lwl .lwr (!isLeft) rt a →
        ∃ m₂, Sim.oneInstruction m₁' = .ok () m₂ ∧ m₂.registers LoadReg = BitVec.ofNat 32 rt ∧
          m₂.registers LoadValueReg = value ∧ m₂.flush.registers rt = value

/-- The pair of stores at `a`, in either order, leaves a machine as `Q` says. -/
def StoresWord (m : Machine) (a : Word) (Q : Word → Machine → Prop) : Prop :=
  ∀ isLeft rt, rt ≠ 0 → m.NextOf .swl .swr isLeft rt a →
    ∃ m₁, Sim.oneInstruction m = .ok () m₁ ∧ (m₁.NextOf .swl .swr (!isLeft) rt a →
      ∃ m₂, Sim.oneInstruction m₁ = .ok () m₂ ∧ Q (m.registers rt) m₂)

theorem NextOf.rt_lt {left right : OpCode} (h : m.NextOf left right isLeft rt a) :
    (rt : ℕ) < 32 := by
  obtain ⟨raw, -, rfl, -⟩ := h
  exact regField_lt raw 16

/-- A pending load that lands. -/
theorem flush_apply (hload : (m.registers LoadReg).toNat < 32) :
    m.flush.registers LoadReg = 0 ∧
      (∀ r : Fin NumTotalRegs, (r : ℕ) < 32 → m.flush.registers r = m.delivered r) ∧
      m.flush.mainMemory = m.mainMemory ∧ Confined m m.flush := by
  have hlt : (m.registers LoadReg).toNat < NumTotalRegs := hload.trans (by decide)
  have hflush : m.flush =
      { m with registers := Sim.loadDelayed m.registers ⟨_, hlt⟩ 0 0 } := by
    rw [flush, Sim.delayedLoad_apply _ _ hlt]
  rw [hflush]
  refine ⟨rfl, ?_, rfl, rfl, rfl, fun _ => rfl, fun _ _ => rfl⟩
  intro r hr
  refine (Sim.loadDelayed_of_lt _ _ _ hr).trans ?_
  simp only [delivered, Sim.eq_mk_toNat_iff]

theorem toNat_ofNat_lt (hrt : (rt : ℕ) < 32) : (BitVec.ofNat 32 rt).toNat < 32 := by
  rw [BitVec.toNat_ofNat]
  omega

theorem Mapped.loadsWord (hmapped : m.Mapped t) (hload : m.registers LoadReg = 0)
    (hw : m.EnclosingWritable a) {value : Word} (hshows : m.Shows a (bytesOf value 4)) :
    m.LoadsWord a value := by
  intro isLeft rt hrt hnext
  have hlt := hnext.rt_lt
  have hbyte {i : ℕ} (hi : i < 4) :
      m.virtualByte (a + BitVec.ofNat 32 i) = some (byteOf value i) := by
    rw [hshows i (by rw [length_bytesOf]; exact hi)]
    simp [bytesOf, hi]
  obtain ⟨m₁, hok₁, hpart₁, -, hloadReg₁, -, hmem₁, hconf₁⟩ :=
    load_part hmapped (by rw [hload]; decide) hw hnext
  have hload₁ : (m₁.registers LoadReg).toNat < 32 := by
    rw [hloadReg₁]
    exact toNat_ofNat_lt hlt
  obtain ⟨hflushReg, hflushGeneral, hflushMem, hflushConf⟩ := flush_apply hload₁
  refine ⟨m₁, hok₁, ?_⟩
  intro m₁' hm₁' hnext'
  -- the value of the first load is found in either place
  have hfirst : (m₁'.registers LoadReg).toNat < 32 ∧ m₁'.mainMemory = m.mainMemory ∧
      Confined m m₁' ∧ (if m₁'.registers LoadReg = BitVec.ofNat 32 rt
        then m₁'.registers LoadValueReg else m₁'.registers rt) = m₁.registers LoadValueReg := by
    simp only [List.mem_cons, List.not_mem_nil, or_false] at hm₁'
    rcases hm₁' with rfl | rfl
    · exact ⟨hload₁, hmem₁, hconf₁, if_pos hloadReg₁⟩
    · refine ⟨by rw [hflushReg]; decide, hflushMem.trans hmem₁, hconf₁.trans hflushConf, ?_⟩
      have hne : m₁.flush.registers LoadReg ≠ BitVec.ofNat 32 rt := by
        rw [hflushReg]
        intro heq
        exact hrt (Sim.ofNat_inj (q := 0) heq).symm
      rw [if_neg hne, hflushGeneral rt hlt, delivered, if_neg hrt, if_pos hloadReg₁]
  obtain ⟨hload', hmem', hconf', hpending⟩ := hfirst
  obtain ⟨t', hmapped', -⟩ := hmapped.confined hconf'
  obtain ⟨m₂, hok₂, hpart₂, hold₂, hloadReg₂, -⟩ :=
    load_part hmapped' hload' (hw.confined hconf') hnext'
  have hsame (v : Word) : m₁'.virtualByte v = m.virtualByte v :=
    (hmapped.unchanged hconf' hmem').2 v
  have hvalue : m₂.registers LoadValueReg = value := by
    apply eq_of_byteOf_eq (n := 4) rfl
    intro i hi
    by_cases hsecond : part (!isLeft) (half (!isLeft) a) (a + BitVec.ofNat 32 i) = some i
    · have hread := hpart₂ _ i hsecond
      rw [hsame, hbyte hi] at hread
      exact (Option.some.inj hread).symm
    · have hread := hpart₁ _ i ((part_covers a hi isLeft).resolve_right hsecond)
      rw [hbyte hi] at hread
      rw [hold₂ i hi hsecond, hpending]
      exact (Option.some.inj hread).symm
  have hload₂ : (m₂.registers LoadReg).toNat < 32 := by
    rw [hloadReg₂]
    exact toNat_ofNat_lt hlt
  refine ⟨m₂, hok₂, hloadReg₂, hvalue, ?_⟩
  rw [(flush_apply hload₂).2.1 rt hlt, delivered, if_neg hrt, if_pos hloadReg₂, hvalue]

theorem Mapped.storesWord (hmapped : m.Mapped t) (hload : m.registers LoadReg = 0)
    (hw : m.EnclosingWritable a) : m.StoresWord a fun value m₂ =>
      m₂.Shows a (bytesOf value 4) ∧
      (∀ v, (∀ i < 4, v ≠ a + BitVec.ofNat 32 i) → m₂.virtualByte v = m.virtualByte v) ∧
      m₂.registers LoadReg = 0 ∧ Confined m m₂ := by
  intro isLeft rt hrt hnext
  have hlt := hnext.rt_lt
  obtain ⟨m₁, hok₁, hpart₁, hloadReg₁, hgeneral₁, hconf₁⟩ :=
    store_part hmapped (by rw [hload]; decide) hw hnext
  refine ⟨m₁, hok₁, ?_⟩
  intro hnext'
  obtain ⟨t', hmapped', -⟩ := hmapped.confined hconf₁
  obtain ⟨m₂, hok₂, hpart₂, hloadReg₂, -, hconf₂⟩ :=
    store_part hmapped' (by rw [hloadReg₁]; decide) (hw.confined hconf₁) hnext'
  have hvalue : m₁.registers rt = m.registers rt := by
    rw [hgeneral₁ rt (hlt.trans (by decide)), delivered_of_ne hrt]
    rw [hload]
    intro heq
    exact hrt (Sim.ofNat_inj (q := 0) heq).symm
  refine ⟨m₂, hok₂, ?_, ?_, hloadReg₂, hconf₁.trans hconf₂⟩
  · intro i hi
    rw [length_bytesOf] at hi
    have hget : (bytesOf (m.registers rt) 4)[i]? = some (byteOf (m.registers rt) i) := by
      simp [bytesOf, hi]
    rw [hget, hpart₂, hpart₁, hvalue]
    rcases part_covers a hi isLeft with hfirst | hsecond
    · rw [hfirst]
      cases hpart : part (!isLeft) (half (!isLeft) a) (a + BitVec.ofNat 32 i) with
      | none => rfl
      | some j =>
        rw [part_unique hi hpart]
        rfl
    · rw [hsecond]
      rfl
  · intro v hv
    have hnone (side : Bool) : part side (half side a) v = none := by
      apply Option.eq_none_iff_forall_ne_some.mpr
      intro i hpart
      obtain ⟨hi, heq⟩ := part_eq_some hpart
      exact hv i hi heq
    rw [hpart₂, hnone, Option.elim_none, hpart₁, hnone, Option.elim_none]

end Machine

/-- Where the words around `a` can be written, the pair of stores writes exactly the bytes of the
register, the pair of loads reads the word there, and one after the other they give it back. -/
theorem unaligned_pairs {m : Machine} {t : PageTable} {a : Word} (hmapped : m.Mapped t)
    (hload : m.registers LoadReg = 0) (hw : m.EnclosingWritable a) :
    (∀ value, m.Shows a (bytesOf value 4) → m.LoadsWord a value) ∧
    m.StoresWord a fun value m₂ => m₂.Shows a (bytesOf value 4) ∧
      (∀ v, (∀ i < 4, v ≠ a + BitVec.ofNat 32 i) → m₂.virtualByte v = m.virtualByte v) ∧
      Confined m m₂ ∧ m₂.LoadsWord a value := by
  refine ⟨fun value hshows => hmapped.loadsWord hload hw hshows, ?_⟩
  intro isLeft rt hrt hnext
  obtain ⟨m₁, hok₁, hthen⟩ := hmapped.storesWord hload hw isLeft rt hrt hnext
  refine ⟨m₁, hok₁, ?_⟩
  intro hnext'
  obtain ⟨m₂, hok₂, hshows, hothers, hload₂, hconf⟩ := hthen hnext'
  obtain ⟨t₂, hmapped₂, -⟩ := hmapped.confined hconf
  exact ⟨m₂, hok₂, hshows, hothers, hconf,
    hmapped₂.loadsWord hload₂ (hw.confined hconf) hshows⟩

/-- `swl $2, 3($1)` and `swr $2, 0($1)`, with an address two bytes before the end of a page. -/
def acrossPages : Machine where
  registers r := if r = 1 then 126 else if r = 2 then 0xdeadbeef
    else if r = NextPCReg then 4 else 0
  mainMemory a := match a with
    | 640 => 0x03 | 642 => 0x22 | 643 => 0xa8 | 646 => 0x22 | 647 => 0xb8 | _ => 0
  pageTable := some 0
  pageTableSize := 2
  tables _ := [⟨0, 5, true, false, false, false⟩, ⟨1, 3, true, false, false, false⟩]

theorem mapped_acrossPages : acrossPages.Mapped (acrossPages.tables 0) :=
  ⟨rfl, mapped_twoPages.complete, mapped_twoPages.frame_lt, mapped_twoPages.injective⟩

theorem unaligned_pairs_acrossPages : ∃ m₁ m₂, Sim.oneInstruction acrossPages = .ok () m₁ ∧
    Sim.oneInstruction m₁ = .ok () m₂ ∧ m₂.Shows 126 (bytesOf (0xdeadbeef : Word) 4) ∧
    m₂.LoadsWord 126 0xdeadbeef := by
  have hw : acrossPages.EnclosingWritable 126 := by
    intro isLeft
    cases isLeft with
    | false =>
      refine ⟨_, 5 * 128 + 124, ⟨0, 5, true, false, false, false⟩, rfl, ?_⟩
      constructor <;> decide
    | true =>
      refine ⟨_, 3 * 128, ⟨1, 3, true, false, false, false⟩, rfl, ?_⟩
      constructor <;> decide
  obtain ⟨-, hstores⟩ := unaligned_pairs mapped_acrossPages rfl hw
  have hnext : acrossPages.NextOf .swl .swr true 2 126 :=
    ⟨0xa8220003, ⟨by decide +kernel, by decide, by decide⟩, by decide, by decide⟩
  obtain ⟨m₁, hok₁, hthen⟩ := hstores true 2 (by decide) hnext
  have hview : (Sim.oneInstruction acrossPages).machine.map (fun m => (m.fetched, m.registers 1)) =
      some (some 0xb8220000, 126) := by decide +kernel
  rw [hok₁] at hview
  obtain ⟨hfetched, hbase⟩ := Prod.mk.inj (Option.some.inj hview)
  have hnext' : m₁.NextOf .swl .swr false 2 126 := by
    refine ⟨0xb8220000, ⟨hfetched, by decide, ?_⟩, by decide, by decide⟩
    show m₁.registers 1 + 0 = 126
    rw [hbase]
    rfl
  obtain ⟨m₂, hok₂, hshows, -, -, hloads⟩ := hthen hnext'
  exact ⟨m₁, m₂, hok₁, hok₂, hshows, hloads⟩

end Nachos

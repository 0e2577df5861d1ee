import Nachos.Machine.Executed
import Nachos.Machine.Multiplication

/-! The instructions that trap when a sum or a difference does not fit a word, and those that
divide. The host does not survive one division. -/
namespace Nachos

/-- The integers that a word can stand for. -/
def FitsWord (n : ℤ) : Prop := -(2 ^ 31) ≤ n ∧ n < 2 ^ 31

instance (n : ℤ) : Decidable (FitsWord n) := inferInstanceAs (Decidable (_ ∧ _))

theorem fitsWord_toInt (a : Word) : FitsWord a.toInt := ⟨BitVec.le_toInt a, BitVec.toInt_lt⟩

theorem bmod_of_fits {n : ℤ} (h : FitsWord n) : n.bmod (2 ^ 32) = n := by
  obtain ⟨hle, hlt⟩ := h
  rw [Int.bmod_eq_emod]
  split <;> omega

section Overflow

variable (a b : Word)

theorem xor_sign_iff : (a ^^^ b) &&& SIGN_BIT ≠ 0 ↔ (a.toInt < 0 ↔ ¬ b.toInt < 0) := by
  have hmsb (x : Word) : x.msb = true ↔ x.toInt < 0 := by
    rw [BitVec.msb_eq_toInt, decide_eq_true_eq]
  rw [← hmsb, ← hmsb]
  refine (top_bit_iff _).trans ?_
  rw [BitVec.msb_xor]
  cases a.msb <;> cases b.msb <;> decide

/-- The test of `ADD`: operands of one sign, and a sum of the other. -/
theorem add_overflow_iff : ((a ^^^ b) &&& SIGN_BIT = 0 ∧ (a ^^^ (a + b)) &&& SIGN_BIT ≠ 0) ↔
    ¬ FitsWord (a.toInt + b.toInt) := by
  obtain ⟨ha, ha'⟩ := fitsWord_toInt a
  obtain ⟨hb, hb'⟩ := fitsWord_toInt b
  have hsame := not_congr (xor_sign_iff a b)
  rw [ne_eq, not_not] at hsame
  rw [hsame, xor_sign_iff, BitVec.toInt_add, Int.bmod_eq_emod, FitsWord]
  split <;> omega

/-- The test of `SUB`: operands of different signs, and a difference with the sign of the
second. -/
theorem sub_overflow_iff : ((a ^^^ b) &&& SIGN_BIT ≠ 0 ∧ (a ^^^ (a - b)) &&& SIGN_BIT ≠ 0) ↔
    ¬ FitsWord (a.toInt - b.toInt) := by
  obtain ⟨ha, ha'⟩ := fitsWord_toInt a
  obtain ⟨hb, hb'⟩ := fitsWord_toInt b
  rw [xor_sign_iff, xor_sign_iff, BitVec.toInt_sub, Int.bmod_eq_emod, FitsWord]
  split <;> omega

end Overflow

/-- The target of an instruction that may overflow, and its exact result. The immediate operand
is the low half of the instruction, as a signed number. -/
def Machine.exact (m : Machine) (raw : Word) : Option (Fin NumTotalRegs × ℤ) :=
  let instr := decode raw
  let rs := (m.registers instr.rs).toInt
  let rt := (m.registers instr.rt).toInt
  match instr.opCode with
  | .add => some (instr.rd, rs + rt)
  | .addi => some (instr.rt, rs + (raw.setWidth 16).toInt)
  | .sub => some (instr.rd, rs - rt)
  | _ => none

/-- An instruction that has an immediate operand has it sign-extended. -/
theorem toInt_extra_of_addi {raw : Word} (h : (decode raw).opCode = .addi) :
    (decode raw).extra.toInt = (raw.setWidth 16).toInt := by
  have htable : ∀ i : Fin 64, (opTable.get i).1 = .addi → (opTable.get i).2 = .ifmt := by decide
  have hspecial : ∀ i : Fin 64, specialTable.get i ≠ .addi := by decide
  have hentry := htable (raw.extractLsb' 26 6).toFin
  unfold decode at h ⊢
  generalize opTable.get (raw.extractLsb' 26 6).toFin = entry at *
  obtain ⟨opCode, format⟩ := entry
  dsimp only at hentry h ⊢
  split at h
  · exact absurd h (hspecial _)
  · exfalso
    split_ifs at h
  · rw [hentry h]
    have hextend : (if raw &&& 0x8000 ≠ 0 then raw &&& 0xffff ||| 0xffff0000 else raw &&& 0xffff) =
        (raw.setWidth 16).signExtend 32 := by
      have hsign : raw &&& 0x8000 ≠ 0 ↔ (raw.setWidth 16).msb = true := by
        rw [BitVec.msb_setWidth]
        exact PackedBits.and_mask_ne_zero (by decide) raw 15
      apply BitVec.eq_of_getLsbD_eq
      intro i hi
      rw [BitVec.getLsbD_signExtend, BitVec.getLsbD_setWidth]
      split_ifs with hset <;> rw [hsign] at hset <;> interval_cases i <;> simp [hset]
    show BitVec.toInt (if raw &&& 0x8000 ≠ 0 then raw &&& 0xffff ||| 0xffff0000
      else raw &&& 0xffff) = _
    rw [hextend]
    exact BitVec.toInt_signExtend_of_le (by decide)

theorem toInt_of_fits {n : ℤ} (h : FitsWord n) : (BitVec.ofInt 32 n).toInt = n := by
  rw [BitVec.toInt_ofInt]
  exact bmod_of_fits h

/-- A result that is stored unless the test for overflow succeeds. -/
theorem checked_eq {m : Machine} {overflow : Prop} [Decidable overflow] {exact : ℤ} {value : Word}
    (htest : overflow ↔ ¬ FitsWord exact) (hvalue : BitVec.ofInt 32 exact = value)
    (target : Fin NumTotalRegs) (pcAfter : Word) :
    (if overflow then Sim.raiseException .overflowException 0 else do
        Sim.setReg target value
        Sim.done pcAfter) m =
      if FitsWord exact then .ok ⟨0, 0, pcAfter⟩ { m with
        registers := Function.update m.registers target (BitVec.ofInt 32 exact) }
      else (Sim.raiseException .overflowException 0) m := by
  by_cases hfits : FitsWord exact
  · rw [if_pos hfits, if_neg (mt htest.mp (not_not.mpr hfits)), hvalue]
    rfl
  · rw [if_neg hfits, if_pos (htest.mpr hfits)]

/-- The three instructions store the exact result if it fits, and else trap. -/
theorem execute_exact {m : Machine} {raw : Word} {target : Fin NumTotalRegs} {exact : ℤ}
    (hop : m.exact raw = some (target, exact)) (pcAfter : Word) :
    Sim.execute (decode raw) pcAfter m = if FitsWord exact then .ok ⟨0, 0, pcAfter⟩ { m with
        registers := Function.update m.registers target (BitVec.ofInt 32 exact) }
      else (Sim.raiseException .overflowException 0) m := by
  have hextra := @toInt_extra_of_addi raw
  unfold Machine.exact at hop
  generalize (raw.setWidth 16).toInt = immediate at hextra hop
  generalize decode raw = instr at hextra hop
  obtain ⟨opCode, rs, rt, rd, extra⟩ := instr
  cases opCode <;> cases hop
  case add =>
    refine checked_eq (add_overflow_iff _ _) ?_ rd pcAfter
    rw [BitVec.ofInt_add, BitVec.ofInt_toInt, BitVec.ofInt_toInt]
  case addi =>
    have himmediate := hextra rfl
    dsimp only at himmediate ⊢
    rw [← himmediate]
    -- `ADDI` compares the sign of the sum with that of the immediate
    have htest := add_overflow_iff extra (m.registers rs)
    rw [BitVec.xor_comm extra (m.registers rs), add_comm extra, add_comm extra.toInt] at htest
    refine checked_eq htest ?_ rt pcAfter
    rw [BitVec.ofInt_add, BitVec.ofInt_toInt, BitVec.ofInt_toInt]
  case sub =>
    refine checked_eq (sub_overflow_iff _ _) ?_ rd pcAfter
    apply BitVec.eq_of_toInt_eq
    rw [BitVec.toInt_ofInt, BitVec.toInt_sub]

theorem exact_target_lt {m : Machine} {raw : Word} {target : Fin NumTotalRegs} {exact : ℤ}
    (hop : m.exact raw = some (target, exact)) : (target : ℕ) < 32 := by
  unfold Machine.exact at hop
  dsimp only at hop
  split at hop <;> cases hop
  · exact regField_lt raw 11
  · exact regField_lt raw 16
  · exact regField_lt raw 11

/-- `ADD`, `ADDI` and `SUB` trap exactly when the result does not fit, and then leave their
target alone. -/
theorem overflow_exact {m : Machine} {raw : Word} {target : Fin NumTotalRegs} {exact : ℤ}
    (hload : (m.registers LoadReg).toNat < 32) (hfetch : m.fetched = some raw)
    (hop : m.exact raw = some (target, exact)) (htarget : target ≠ 0)
    (hpending : m.registers LoadReg ≠ BitVec.ofNat 32 target) :
    ((∃ m', Sim.oneInstruction m = .trap .overflowException m') ↔ ¬ FitsWord exact) ∧
    (∀ m', Sim.oneInstruction m = .trap .overflowException m' →
      m'.registers target = m.registers target) ∧
    (FitsWord exact → ∃ m', Sim.oneInstruction m = .ok () m' ∧
      (m'.registers target).toInt = exact ∧ m.Advanced [target] m') := by
  have hlt := exact_target_lt hop
  have hop' {m₁ : Machine} (h : m₁.registers = m.registers) :
      m₁.exact raw = some (target, exact) := by
    rw [Machine.exact, h]
    exact hop
  by_cases hfits : FitsWord exact
  · have hexecute (m₁ : Machine) (h : m₁.registers = m.registers) :
        Sim.execute (decode raw) (m.registers NextPCReg + 4) m₁ =
          .ok ⟨0, 0, m.registers NextPCReg + 4⟩ { m₁ with
            registers := Function.update m.registers target (BitVec.ofInt 32 exact) } := by
      rw [execute_exact (hop' h), if_pos hfits, h]
    have htargets : ∀ r ∈ [target], (r : ℕ) < 34 := by
      intro r hr
      rw [List.mem_singleton.mp hr]
      exact hlt.trans (by decide)
    obtain ⟨m', hok, hadvanced, hresult⟩ := Sim.oneInstruction_of_execute hload hfetch hexecute
      htargets fun r hr => Function.update_of_ne (fun heq => hr (List.mem_singleton.mpr heq)) ..
    have hvalue := hresult _ (List.mem_singleton.mpr rfl) htarget hpending
    rw [Function.update_self] at hvalue
    refine ⟨iff_of_false ?_ (not_not.mpr hfits), ?_, fun _ => ⟨m', hok, ?_, hadvanced⟩⟩
    · rintro ⟨m'', htrap⟩
      cases hok.symm.trans htrap
    · intro m'' htrap
      cases hok.symm.trans htrap
    · rw [hvalue]
      exact toInt_of_fits hfits
  · have hexecute (m₁ : Machine) (h : m₁.registers = m.registers) :
        Sim.execute (decode raw) (m.registers NextPCReg + 4) m₁ =
          Sim.raiseException .overflowException 0 m₁ := by
      rw [execute_exact (hop' h), if_neg hfits]
    obtain ⟨m', htrap, -, hgeneral⟩ := Sim.oneInstruction_of_trap hload hfetch hexecute
    refine ⟨iff_of_true ⟨m', htrap⟩ hfits, ?_, fun h => absurd h hfits⟩
    intro m'' htrap'
    cases htrap.symm.trans htrap'
    rw [hgeneral target hlt, Machine.delivered_of_ne htarget hpending]

theorem overflow_exact_overflowing :
    (∃ m', Sim.oneInstruction overflowing = .trap .overflowException m') ∧
      overflowing.exact 0x00221820 = some (3, 0xfffffffe) := by
  have hfetch : overflowing.fetched = some 0x00221820 := by decide +kernel
  have hexact : overflowing.exact 0x00221820 = some (3, 0xfffffffe) := by decide +kernel
  have htrap := (overflow_exact (by decide) hfetch hexact (by decide) (by decide)).1
  exact ⟨htrap.mpr (by decide), hexact⟩

/-- `DIV` or `DIVU` completes, and unless it divides by zero, `Lo` and `Hi` are a quotient and
its remainder. -/
def Machine.Divides (m : Machine) (raw : Word) (signedArith : Bool) : Prop :=
  ∃ m', Sim.oneInstruction m = .ok () m' ∧ m.Advanced [HiReg, LoReg] m' ∧
    let dividend := m.registers (decode raw).rs
    let divisor := m.registers (decode raw).rt
    let lo := m'.registers LoReg
    let hi := m'.registers HiReg
    divisor ≠ 0 → lo * divisor + hi = dividend ∧
      if signedArith then hi.toInt.natAbs < divisor.toInt.natAbs ∧
        (hi = 0 ∨ (hi.toInt < 0 ↔ dividend.toInt < 0))
      else hi.toNat < divisor.toNat

/-- The two results of a division that the host survives. -/
def divided (signedArith : Bool) (dividend divisor : Word) : Word × Word :=
  if divisor = 0 then (0, 0)
  else if signedArith then (dividend.srem divisor, dividend.sdiv divisor)
  else (dividend % divisor, dividend / divisor)

theorem divided_unsigned {dividend divisor : Word} (h : divisor ≠ 0) :
    (divided false dividend divisor).2 * divisor + (divided false dividend divisor).1 = dividend ∧
      (divided false dividend divisor).1.toNat < divisor.toNat := by
  have hpos : 0 < divisor.toNat := Nat.pos_of_ne_zero fun hzero => h (BitVec.eq_of_toNat_eq hzero)
  have hdiv := Nat.div_add_mod' dividend.toNat divisor.toNat
  rw [divided, if_neg h]
  refine ⟨?_, Nat.mod_lt _ hpos⟩
  apply BitVec.eq_of_toNat_eq
  show ((dividend / divisor) * divisor + dividend % divisor).toNat = dividend.toNat
  rw [BitVec.toNat_add, BitVec.toNat_mul, BitVec.toNat_udiv, BitVec.toNat_umod, Nat.mod_add_mod,
    hdiv]
  exact Nat.mod_eq_of_lt dividend.isLt

theorem divided_signed {dividend divisor : Word} (h : divisor ≠ 0) :
    (divided true dividend divisor).2 * divisor + (divided true dividend divisor).1 = dividend ∧
      (divided true dividend divisor).1.toInt.natAbs < divisor.toInt.natAbs ∧
      ((divided true dividend divisor).1 = 0 ∨
        ((divided true dividend divisor).1.toInt < 0 ↔ dividend.toInt < 0)) := by
  have hne : divisor.toInt ≠ 0 := fun hzero => h (BitVec.eq_of_toInt_eq hzero)
  have hrem : (dividend.srem divisor).toInt = dividend.toInt.tmod divisor.toInt :=
    BitVec.toInt_srem ..
  rw [divided, if_neg h]
  refine ⟨?_, ?_, ?_⟩
  · have hdiv : dividend.sdiv divisor = BitVec.ofInt 32 (dividend.toInt.tdiv divisor.toInt) := by
      apply BitVec.eq_of_toInt_eq
      rw [BitVec.toInt_sdiv, BitVec.toInt_ofInt]
    have hrem' : dividend.srem divisor = BitVec.ofInt 32 (dividend.toInt.tmod divisor.toInt) := by
      rw [← hrem, BitVec.ofInt_toInt]
    show dividend.sdiv divisor * divisor + dividend.srem divisor = dividend
    calc dividend.sdiv divisor * divisor + dividend.srem divisor
        = BitVec.ofInt 32 (dividend.toInt.tdiv divisor.toInt) * BitVec.ofInt 32 divisor.toInt +
            BitVec.ofInt 32 (dividend.toInt.tmod divisor.toInt) := by
          rw [hdiv, hrem', BitVec.ofInt_toInt]
      _ = BitVec.ofInt 32 dividend.toInt := by
          rw [← BitVec.ofInt_mul, ← BitVec.ofInt_add, Int.tdiv_mul_add_tmod]
      _ = dividend := BitVec.ofInt_toInt
  · show (dividend.srem divisor).toInt.natAbs < _
    rw [hrem, Int.natAbs_tmod]
    exact Nat.mod_lt _ (Int.natAbs_pos.mpr hne)
  · show dividend.srem divisor = 0 ∨ ((dividend.srem divisor).toInt < 0 ↔ dividend.toInt < 0)
    by_cases hzero : (dividend.srem divisor).toInt = 0
    · exact .inl (BitVec.eq_of_toInt_eq hzero)
    right
    rw [hrem] at hzero ⊢
    rcases le_total 0 dividend.toInt with hsign | hsign
    · exact iff_of_false (Int.tmod_nonneg _ hsign).not_gt hsign.not_gt
    · have hnonpos := Int.tmod_nonneg divisor.toInt (Int.neg_nonneg.mpr hsign)
      rw [Int.neg_tmod] at hnonpos
      refine iff_of_true (by omega) (lt_of_le_of_ne hsign ?_)
      intro heq
      rw [heq, Int.zero_tmod] at hzero
      exact hzero rfl

/-- The switch divides `rs` by `rt`, unless the host does not survive it. -/
theorem execute_divide {m : Machine} {raw : Word} {signedArith : Bool}
    (hop : (decode raw).opCode = if signedArith then .div else .divu)
    (h : ¬ (signedArith = true ∧ m.registers (decode raw).rs = SIGN_BIT ∧
      m.registers (decode raw).rt = -1)) (pcAfter : Word) :
    Sim.execute (decode raw) pcAfter m = .ok ⟨0, 0, pcAfter⟩ { m with
      registers := Function.update (Function.update m.registers LoReg
        (divided signedArith (m.registers (decode raw).rs) (m.registers (decode raw).rt)).2)
        HiReg (divided signedArith (m.registers (decode raw).rs)
          (m.registers (decode raw).rt)).1 } := by
  have hrs : (decode raw).rs ≠ LoReg := fun heq => absurd (regField_lt raw 21) (by
    rw [show regField raw 21 = LoReg from heq]
    decide)
  have hrt : (decode raw).rt ≠ LoReg := fun heq => absurd (regField_lt raw 16) (by
    rw [show regField raw 16 = LoReg from heq]
    decide)
  generalize decode raw = instr at *
  obtain ⟨opCode, rs, rt, rd, extra⟩ := instr
  dsimp only at hop hrs hrt h ⊢
  cases signedArith with
  | false =>
    obtain rfl : opCode = .divu := hop
    have hdo : Sim.execute ⟨.divu, rs, rt, rd, extra⟩ pcAfter m =
        (if m.registers rt = 0 then do
            Sim.setReg LoReg 0
            Sim.setReg HiReg 0
            Sim.done pcAfter
          else do
            Sim.setReg LoReg (m.registers rs / m.registers rt)
            Sim.setReg HiReg (m.registers rs % m.registers rt)
            Sim.done pcAfter) m := rfl
    rw [hdo, divided]
    by_cases hzero : m.registers rt = 0
    · rw [if_pos hzero, if_pos hzero]
      rfl
    · rw [if_neg hzero, if_neg hzero, if_neg Bool.false_ne_true]
      rfl
  | true =>
    obtain rfl : opCode = .div := hop
    have hdo : Sim.execute ⟨.div, rs, rt, rd, extra⟩ pcAfter m =
        (if m.registers rt = 0 then do
            Sim.setReg LoReg 0
            Sim.setReg HiReg 0
            Sim.done pcAfter
          else if m.registers rs = SIGN_BIT ∧ m.registers rt = -1 then do
            (Sim.abort : Sim Unit)
            Sim.done pcAfter
          else do
            Sim.setReg LoReg ((m.registers rs).sdiv (m.registers rt))
            Sim.setReg HiReg ((← Sim.reg rs).srem (← Sim.reg rt))
            Sim.done pcAfter) m := rfl
    rw [hdo, divided]
    by_cases hzero : m.registers rt = 0
    · rw [if_pos hzero, if_pos hzero]
      rfl
    · rw [if_neg hzero, if_neg hzero, if_neg fun hfault => h ⟨rfl, hfault⟩, if_pos rfl]
      -- the second division reads its operands when `Lo` has been written
      have hkept (r : Fin NumTotalRegs) (hr : r ≠ LoReg) : Function.update m.registers LoReg
          ((m.registers rs).sdiv (m.registers rt)) r = m.registers r := Function.update_of_ne hr ..
      simp only [Sim.bind_apply, Sim.setReg, Sim.reg, hkept rs hrs, hkept rt hrt]
      rfl

/-- Exactly one division is not what it should be: that of the least integer by -1. -/
theorem division_exact_iff {m : Machine} {raw : Word} {signedArith : Bool}
    (hload : (m.registers LoadReg).toNat < 32) (hfetch : m.fetched = some raw)
    (hop : (decode raw).opCode = if signedArith then .div else .divu) :
    m.Divides raw signedArith ↔ ¬ (signedArith = true ∧
      m.registers (decode raw).rs = SIGN_BIT ∧ m.registers (decode raw).rt = -1) := by
  constructor
  · rintro ⟨m', hok, -⟩ ⟨rfl, hrs, hrt⟩
    obtain ⟨m₁, hfetched, heq⟩ := Sim.oneInstruction_of_fetched hfetch
    rw [← hfetched.registers] at hrs hrt
    rw [heq, Sim.bind_apply, Sim.execute_div_fault hop hrs hrt] at hok
    cases hok
  · intro hfault
    have hexecute (m₁ : Machine) (h : m₁.registers = m.registers) :
        Sim.execute (decode raw) (m.registers NextPCReg + 4) m₁ =
          .ok ⟨0, 0, m.registers NextPCReg + 4⟩ { m₁ with
            registers := Function.update (Function.update m.registers LoReg (divided signedArith
              (m.registers (decode raw).rs) (m.registers (decode raw).rt)).2) HiReg
              (divided signedArith (m.registers (decode raw).rs)
                (m.registers (decode raw).rt)).1 } := by
      have hexecute := execute_divide (m := m₁) hop (by rw [h]; exact hfault)
        (m.registers NextPCReg + 4)
      rw [h] at hexecute
      exact hexecute
    have htargets : ∀ r ∈ [HiReg, LoReg], (r : ℕ) < 34 := by decide
    obtain ⟨m', hok, hadvanced, hresult⟩ := Sim.oneInstruction_of_execute hload hfetch hexecute
      htargets (by
        intro r hr
        simp only [List.mem_cons, List.not_mem_nil, or_false, not_or] at hr
        rw [Function.update_of_ne hr.1, Function.update_of_ne hr.2])
    have hpending {r : Fin NumTotalRegs} (hr : 32 ≤ (r : ℕ)) :
        m.registers LoadReg ≠ BitVec.ofNat 32 r := by
      intro heq
      have hlt : (r : ℕ) < 40 := r.isLt
      rw [heq, BitVec.toNat_ofNat] at hload
      omega
    have hhi := hresult HiReg (by decide) (by decide) (hpending (by decide))
    have hlo := hresult LoReg (by decide) (by decide) (hpending (by decide))
    rw [Function.update_self] at hhi
    rw [Function.update_of_ne (by decide), Function.update_self] at hlo
    refine ⟨m', hok, hadvanced, ?_⟩
    intro dividend divisor lo hi hdivisor
    have hlo : lo = (divided signedArith dividend divisor).2 := hlo
    have hhi : hi = (divided signedArith dividend divisor).1 := hhi
    rw [hlo, hhi]
    cases signedArith with
    | false => exact divided_unsigned hdivisor
    | true => exact divided_signed hdivisor

/-- `div $1, $2`, or `divu` with 0x1b in the last byte. -/
def dividing (dividend divisor : Word) (funct : UInt8) : Machine where
  registers r := if r = 1 then dividend else if r = 2 then divisor
    else if r = NextPCReg then 4 else 0
  mainMemory a := if a = 0 then funct else if a = 2 then 0x22 else 0
  pageTable := some 0
  pageTableSize := 1
  tables _ := [⟨0, 0, true, false, false, false⟩]

theorem division_exact_iff_seven : (dividing (-7) 2 0x1a).Divides 0x0022001a true := by
  have hfetch : (dividing (-7) 2 0x1a).fetched = some 0x0022001a := by decide +kernel
  exact (division_exact_iff (by decide) hfetch (by decide)).mpr (by decide)

/-- Neither operand of the division that stops the host is zero. -/
theorem div_overflow : (dividing SIGN_BIT (-1) 0x1a).fetched = some 0x0022001a ∧
    (decode 0x0022001a).opCode = .div ∧
      ¬ (dividing SIGN_BIT (-1) 0x1a).Divides 0x0022001a true := by
  refine ⟨by decide +kernel, by decide, ?_⟩
  rintro ⟨m', hok, -⟩
  have hview : (Sim.oneInstruction (dividing SIGN_BIT (-1) 0x1a)).machine.isNone = true := by
    decide +kernel
  rw [hok] at hview
  cases hview

end Nachos

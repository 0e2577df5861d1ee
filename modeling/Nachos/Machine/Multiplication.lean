import Nachos.Library.DoubleWord
import Nachos.Library.PackedBits
import Nachos.Machine.Mipssim

/-! `Mult` of `machine/mipssim.cc` computes the double-length product. Its loop shifts the
multiplicand through a pair of words and adds it up in another pair, so it is followed in
64-bit arithmetic. -/
namespace Nachos

open DoubleWord

theorem toNat_and_one (a : Word) : (a &&& 1).toNat = a.toNat % 2 := by
  rw [BitVec.toNat_and]
  exact Nat.and_one_is_mod _

/-- An arithmetic shift keeps the sign in the top bit, which the loop never gets to. -/
theorem toNat_sshiftRight_one (a : Word) : (a.sshiftRight 1).toNat % 2 ^ 31 = a.toNat / 2 := by
  have h := a.isLt
  have hshift : (a.sshiftRight 1).toInt = a.toInt / 2 := by
    rw [BitVec.toInt_sshiftRight, Int.shiftRight_eq_div_pow]
    rfl
  have hnat := (BitVec.toInt_eq_toNat_cond (a.sshiftRight 1)).symm.trans hshift
  rw [BitVec.toInt_eq_toNat_cond] at hnat
  have h' := (a.sshiftRight 1).isLt
  split_ifs at hnat <;> omega

/-- A word is its lowest bit and twice the rest, as far as the loop looks. -/
theorem toNat_mod_two_pow_succ (a : Word) {rounds : ℕ} (h : rounds ≤ 31) :
    a.toNat % 2 ^ (rounds + 1) =
      (a &&& 1).toNat + 2 * ((a.sshiftRight 1).toNat % 2 ^ rounds) := by
  have hdvd : 2 ^ rounds ∣ 2 ^ 31 := Nat.pow_dvd_pow 2 h
  rw [← Nat.mod_mod_of_dvd _ hdvd, toNat_sshiftRight_one, toNat_and_one, Nat.pow_succ', Nat.mod_mul]

/-- The test of the early exit: no bit but the lowest is left. -/
theorem toNat_of_high_bits_zero {a : Word} (h : a &&& 0xfffffffe = 0) :
    a.toNat = (a &&& 1).toNat := by
  have hones : (0xfffffffe : Word) ||| 1 = BitVec.allOnes 32 := by decide
  have hsplit := BitVec.and_or_distrib_left (x := a) (y := 0xfffffffe) (z := 1)
  rw [hones, h, BitVec.and_allOnes] at hsplit
  exact congrArg BitVec.toNat (hsplit.trans BitVec.zero_or)

theorem top_bit_iff (x : Word) : x &&& 0x80000000 ≠ 0 ↔ x.msb = true :=
  PackedBits.and_mask_ne_zero (by decide) x 31

/-- One round: the multiplicand is added if the lowest bit is set. -/
theorem round_eq (a bHi bLo hi lo : Word) :
    let sum := if a &&& 1 ≠ 0 then
      ((if lo + bLo < bLo then hi + 1 else hi) + bHi, lo + bLo) else (hi, lo)
    sum.1 ++ sum.2 = (hi ++ lo) + BitVec.ofNat (32 + 32) (a &&& 1).toNat * (bHi ++ bLo) := by
  intro sum
  by_cases hbit : a &&& 1 = 0
  · have hsum : sum = (hi, lo) := if_neg (not_not.mpr hbit)
    rw [hsum, hbit]
    simp
  · have hsum : sum = ((if lo + bLo < bLo then hi + 1 else hi) + bHi, lo + bLo) := if_pos hbit
    have hodd : (a &&& 1).toNat = 1 := by
      have hne : (a &&& 1).toNat ≠ 0 := fun hzero => hbit (BitVec.eq_of_toNat_eq hzero)
      rw [toNat_and_one] at hne ⊢
      omega
    rw [hsum, append_add, hodd]
    congr 1
    exact (BitVec.one_mul _).symm

/-- The loop adds the multiplicand as often as the bits that are left of `a` say. -/
theorem multLoop_eq {rounds : ℕ} (h : rounds ≤ 32) (a bHi bLo hi lo : Word) :
    (multLoop rounds a bHi bLo hi lo).1 ++ (multLoop rounds a bHi bLo hi lo).2 =
      (hi ++ lo) + BitVec.ofNat (32 + 32) (a.toNat % 2 ^ rounds) * (bHi ++ bLo) := by
  induction rounds generalizing a bHi bLo hi lo with
  | zero => simp [multLoop, Nat.mod_one]
  | succ rounds ih =>
    have hround := round_eq a bHi bLo hi lo
    have hbits := toNat_mod_two_pow_succ a (Nat.le_of_succ_le_succ h)
    simp only [multLoop]
    generalize (if a &&& 1 ≠ 0 then
      ((if lo + bLo < bLo then hi + 1 else hi) + bHi, lo + bLo) else (hi, lo)) = sum at hround ⊢
    by_cases hexit : a &&& 1 ≠ 0 ∧ a &&& 0xfffffffe = 0
    · have hlow : a.toNat % 2 ^ (rounds + 1) = (a &&& 1).toNat := by
        have hhigh := toNat_of_high_bits_zero hexit.2
        rw [Nat.mod_eq_of_lt, hhigh]
        rw [hhigh, toNat_and_one, Nat.pow_succ']
        exact Nat.lt_of_lt_of_le (Nat.mod_lt _ two_pos) (Nat.le_mul_of_pos_right 2 (by positivity))
      rw [if_pos hexit, hround, hlow]
    · have hshift := @append_shiftLeft 32 bHi bLo
      simp only [← top_bit_iff] at hshift
      have htwo : BitVec.ofNat (32 + 32) 2 = 2 := rfl
      rw [if_neg hexit, ih (by omega), hround, hshift, hbits, BitVec.ofNat_add, BitVec.ofNat_mul,
        htwo]
      ring

/-- The absolute value of a word, which the main loop works on. -/
theorem toNat_abs (a : Word) : (if a.slt 0 then -a else a).toNat = a.toInt.natAbs := by
  have h := a.isLt
  have hslt : a.slt 0 = decide (a.toInt < 0) := rfl
  rw [hslt]
  split_ifs with hneg
  · rw [decide_eq_true_eq] at hneg
    rw [BitVec.toNat_neg]
    rw [BitVec.toInt_eq_toNat_cond] at hneg ⊢
    split_ifs at hneg ⊢ <;> omega
  · rw [decide_eq_true_eq] at hneg
    rw [BitVec.toInt_eq_toNat_cond] at hneg ⊢
    split_ifs at hneg ⊢ <;> omega

theorem multLoop_product (a b : Word) :
    (multLoop 32 a 0 b 0 0).1 ++ (multLoop 32 a 0 b 0 0).2 =
      BitVec.ofNat (32 + 32) (a.toNat * b.toNat) := by
  have hzero : (0 : Word) ++ b = BitVec.ofNat (32 + 32) b.toNat := by
    rw [append_eq_ofNat]
    simp
  rw [multLoop_eq le_rfl, Nat.mod_eq_of_lt a.isLt, hzero, BitVec.ofNat_mul]
  exact BitVec.zero_add _

theorem mult_unsigned (a b : Word) : (mult a b false).1 ++ (mult a b false).2 =
    BitVec.ofNat (32 + 32) (a.toNat * b.toNat) := by
  by_cases hzero : a = 0 ∨ b = 0
  · rw [mult, if_pos hzero]
    rcases hzero with rfl | rfl <;> simp
  · have hmult : mult a b false = multLoop 32 a 0 b 0 0 := if_neg hzero
    rw [hmult]
    exact multLoop_product a b

/-- The product is negative if one of its factors is. -/
theorem xor_slt_zero {a b : Word} (ha : a ≠ 0) (hb : b ≠ 0) :
    (a.slt 0 ^^ b.slt 0) = decide (a.toInt * b.toInt < 0) := by
  have hslt (x : Word) : x.slt 0 = decide (x.toInt < 0) := rfl
  have hne {x : Word} (hx : x ≠ 0) : x.toInt ≠ 0 := fun h => hx (BitVec.eq_of_toInt_eq h)
  rw [hslt, hslt]
  rcases lt_or_gt_of_ne (hne ha) with ha | ha <;> rcases lt_or_gt_of_ne (hne hb) with hb | hb
  · simp only [ha, hb, (mul_pos_of_neg_of_neg ha hb).not_gt, decide_true, decide_false,
      Bool.xor_self]
  · simp only [ha, hb.not_gt, mul_neg_of_neg_of_pos ha hb, decide_true, decide_false,
      Bool.xor_false]
  · simp only [ha.not_gt, hb, mul_neg_of_pos_of_neg ha hb, decide_true, decide_false,
      Bool.false_xor]
  · simp only [ha.not_gt, hb.not_gt, (mul_pos ha hb).not_gt, decide_false, Bool.xor_self]

theorem mult_signed (a b : Word) : (mult a b true).1 ++ (mult a b true).2 =
    BitVec.ofInt (32 + 32) (a.toInt * b.toInt) := by
  by_cases hzero : a = 0 ∨ b = 0
  · rw [mult, if_pos hzero]
    rcases hzero with rfl | rfl <;> simp
  obtain ⟨ha, hb⟩ := not_or.mp hzero
  have hproduct := multLoop_product (if a.slt 0 then -a else a) (if b.slt 0 then -b else b)
  rw [toNat_abs, toNat_abs, ← Int.natAbs_mul] at hproduct
  rw [mult, if_neg hzero]
  simp only [Bool.true_and, xor_slt_zero ha hb, decide_eq_true_eq]
  generalize multLoop 32 _ 0 _ 0 0 = product at hproduct ⊢
  by_cases hsign : a.toInt * b.toInt < 0
  · have hneg := @append_neg 32 product.1 product.2 (by decide)
    rw [if_pos hsign, hneg, hproduct, ← BitVec.ofInt_natCast, ← BitVec.ofInt_neg]
    congr 1
    omega
  · rw [if_neg hsign, hproduct, ← BitVec.ofInt_natCast]
    congr 1
    omega

theorem toInt_mult_signed (a b : Word) :
    ((mult a b true).1 ++ (mult a b true).2).toInt = a.toInt * b.toInt := by
  have hle : a.toInt * b.toInt ≤ 2 ^ 62 := BitVec.toInt_mul_toInt_le
  have hge : -(2 ^ 62) ≤ a.toInt * b.toInt := BitVec.le_toInt_mul_toInt
  rw [mult_signed]
  exact BitVec.toInt_ofInt_eq_self (by decide) (by omega) (by omega)

theorem toNat_mult_unsigned (a b : Word) :
    ((mult a b false).1 ++ (mult a b false).2).toNat = a.toNat * b.toNat := by
  have hlt : a.toNat * b.toNat < 2 ^ 32 * 2 ^ 32 := Nat.mul_lt_mul'' a.isLt b.isLt
  rw [mult_unsigned, BitVec.toNat_ofNat, Nat.pow_add, Nat.mod_eq_of_lt hlt]

/-- The double word in `Hi` and `Lo`. -/
def Machine.hiLo (m : Machine) : BitVec 64 := m.registers HiReg ++ m.registers LoReg

/-- What `MULT` and `MULTU` do. -/
theorem execute_mult (signedArith : Bool) (rs rt rd : Fin NumTotalRegs) (extra pcAfter : Word)
    (m : Machine) :
    Sim.execute ⟨if signedArith then .mult else .multu, rs, rt, rd, extra⟩ pcAfter m =
      .ok ⟨0, 0, pcAfter⟩ { m with
        registers := Function.update
          (Function.update m.registers HiReg (mult (m.registers rs) (m.registers rt) signedArith).1)
          LoReg (mult (m.registers rs) (m.registers rt) signedArith).2 } := by
  cases signedArith <;> rfl

theorem hiLo_update (m : Machine) (hi lo : Word) : Machine.hiLo { m with
    registers := Function.update (Function.update m.registers HiReg hi) LoReg lo } = hi ++ lo := by
  have hne : HiReg ≠ LoReg := by decide
  simp only [Machine.hiLo, Function.update_self, Function.update_of_ne hne]

/-- `Mult` is exact, and the two instructions leave its result in `Hi` and `Lo`. -/
theorem multiplication_exact (a b : Word) :
    ((mult a b true).1 ++ (mult a b true).2).toInt = a.toInt * b.toInt ∧
    ((mult a b false).1 ++ (mult a b false).2).toNat = a.toNat * b.toNat ∧
    ∀ (rs rt rd : Fin NumTotalRegs) (extra pcAfter : Word) (m : Machine),
      (∃ m', Sim.execute ⟨.mult, rs, rt, rd, extra⟩ pcAfter m = .ok ⟨0, 0, pcAfter⟩ m' ∧
        m'.hiLo.toInt = (m.registers rs).toInt * (m.registers rt).toInt) ∧
      ∃ m', Sim.execute ⟨.multu, rs, rt, rd, extra⟩ pcAfter m = .ok ⟨0, 0, pcAfter⟩ m' ∧
        m'.hiLo.toNat = (m.registers rs).toNat * (m.registers rt).toNat := by
  refine ⟨toInt_mult_signed a b, toNat_mult_unsigned a b, ?_⟩
  intro rs rt rd extra pcAfter m
  constructor
  · refine ⟨_, execute_mult true rs rt rd extra pcAfter m, ?_⟩
    rw [hiLo_update]
    exact toInt_mult_signed _ _
  · refine ⟨_, execute_mult false rs rt rd extra pcAfter m, ?_⟩
    rw [hiLo_update]
    exact toNat_mult_unsigned _ _

end Nachos

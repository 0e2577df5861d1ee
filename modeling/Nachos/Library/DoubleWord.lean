import Mathlib.Data.BitVec
import Mathlib.Tactic

/-! Double-length arithmetic on pairs of words: the high word is appended to the low one. -/
namespace DoubleWord

variable {w : ℕ} {hi lo hi' lo' : BitVec w}

theorem toNat_append (hi lo : BitVec w) : (hi ++ lo).toNat = hi.toNat * 2 ^ w + lo.toNat := by
  rw [BitVec.toNat_append, Nat.shiftLeft_eq, Nat.mul_comm,
    ← Nat.two_pow_add_eq_or_of_lt lo.isLt, Nat.mul_comm]

theorem append_eq_ofNat (hi lo : BitVec w) :
    hi ++ lo = BitVec.ofNat (w + w) (hi.toNat * 2 ^ w + lo.toNat) := by
  rw [← toNat_append, BitVec.ofNat_toNat, BitVec.setWidth_eq]

/-- Multiples of the low word's range may be reduced in the high word. -/
theorem ofNat_mod_mul (a b : ℕ) : BitVec.ofNat (w + w) (a % 2 ^ w * 2 ^ w + b) =
    BitVec.ofNat (w + w) (a * 2 ^ w + b) := by
  have hmod : a % 2 ^ w * 2 ^ w ≡ a * 2 ^ w [MOD 2 ^ (w + w)] := by
    rw [Nat.pow_add]
    exact Nat.ModEq.mul_right' _ (Nat.mod_modEq a _)
  apply BitVec.eq_of_toNat_eq
  rw [BitVec.toNat_ofNat, BitVec.toNat_ofNat]
  exact hmod.add_right b

/-- The low words add up to less than a summand exactly if there is a carry. -/
theorem carry_iff (lo lo' : BitVec w) : lo + lo' < lo' ↔ 2 ^ w ≤ lo.toNat + lo'.toNat := by
  have h := lo.isLt
  have h' := lo'.isLt
  rw [BitVec.lt_def, BitVec.toNat_add]
  rcases Nat.lt_or_ge (lo.toNat + lo'.toNat) (2 ^ w) with hlt | hge
  · rw [Nat.mod_eq_of_lt hlt]
    omega
  · rw [Nat.mod_eq_sub_mod hge, Nat.mod_eq_of_lt (by omega)]
    omega

theorem append_add : (if lo + lo' < lo' then hi + 1 else hi) + hi' ++ (lo + lo') =
    (hi ++ lo) + (hi' ++ lo') := by
  have hone : (1 : BitVec w).toNat = 1 % 2 ^ w := BitVec.toNat_ofNat 1 w
  rw [append_eq_ofNat, append_eq_ofNat hi, append_eq_ofNat hi', ← BitVec.ofNat_add,
    BitVec.toNat_add, BitVec.toNat_add]
  rw [ofNat_mod_mul]
  split_ifs with hcarry
  · have hge := (carry_iff lo lo').mp hcarry
    have h := lo.isLt
    have h' := lo'.isLt
    rw [BitVec.toNat_add, hone, Nat.add_mod_mod, Nat.mod_eq_sub_mod hge,
      Nat.mod_eq_of_lt (show lo.toNat + lo'.toNat - 2 ^ w < 2 ^ w by omega), ← ofNat_mod_mul,
      Nat.mod_add_mod, ofNat_mod_mul]
    congr 1
    have hsplit := Nat.sub_add_cancel hge
    nlinarith
  · have hlt : lo.toNat + lo'.toNat < 2 ^ w := not_le.mp (mt (carry_iff lo lo').mpr hcarry)
    rw [Nat.mod_eq_of_lt hlt]
    congr 1
    ring

theorem shiftLeft_one (x : BitVec w) : x <<< 1 = x + x := by
  rw [BitVec.shiftLeft_eq_mul_twoPow]
  apply BitVec.eq_of_toNat_eq
  rw [BitVec.toNat_mul, BitVec.toNat_twoPow, Nat.mul_mod_mod, BitVec.toNat_add]
  congr 1
  omega

theorem shiftLeft_one_or_one (x : BitVec w) : x <<< 1 ||| 1 = x + x + 1 := by
  have hdisjoint : x <<< 1 &&& 1 = 0 := by
    apply BitVec.eq_of_getLsbD_eq
    intro i hi
    have hone : (1 : BitVec w).getLsbD i = (decide (i < w) && decide (i = 0)) := by
      rw [show (1 : BitVec w) = BitVec.ofNat w 1 from rfl, BitVec.getLsbD_ofNat]
      rcases i with _ | i <;> simp [Nat.testBit_succ]
    rw [BitVec.getLsbD_and, BitVec.getLsbD_shiftLeft, hone]
    rcases i with _ | i <;> simp
  rw [← shiftLeft_one, BitVec.add_eq_or_of_and_eq_zero _ _ hdisjoint]

/-- Shifting a pair moves the top bit of the low word into the high one. -/
theorem append_shiftLeft : (if lo.msb then hi <<< 1 ||| 1 else hi <<< 1) ++ lo <<< 1 =
    (hi ++ lo) + (hi ++ lo) := by
  have hcarry : lo + lo < lo ↔ lo.msb = true := by
    rw [carry_iff, BitVec.msb_eq_decide, decide_eq_true_eq]
    rcases w with _ | w
    · have h : lo.toNat < 1 := lo.isLt
      simp only [Nat.pow_zero]
      omega
    · rw [Nat.add_sub_cancel, Nat.pow_succ]
      omega
  rw [← append_add, shiftLeft_one lo, shiftLeft_one_or_one, shiftLeft_one]
  congr 1
  simp only [hcarry]
  split_ifs
  · ring
  · rfl

theorem append_add_one (hw : 0 < w) :
    (if lo + 1 = 0 then hi + 1 else hi) ++ (lo + 1) = (hi ++ lo) + (1 : BitVec (w + w)) := by
  have honeNat {n : ℕ} (hn : 0 < n) : (1 : BitVec n).toNat = 1 :=
    (BitVec.toNat_ofNat 1 n).trans (Nat.mod_eq_of_lt (Nat.one_lt_two_pow hn.ne'))
  have hone : (0 : BitVec w) ++ (1 : BitVec w) = (1 : BitVec (w + w)) := by
    apply BitVec.eq_of_toNat_eq
    rw [toNat_append, honeNat hw, honeNat (by omega)]
    simp
  have hcarry : lo + 1 < 1 ↔ lo + 1 = 0 := by
    rw [BitVec.lt_def, honeNat hw, Nat.lt_one_iff]
    exact BitVec.toNat_inj (y := 0)
  rw [← hone, ← append_add]
  simp only [hcarry, add_zero]

/-- The complement of both words, and one more. -/
theorem append_neg (hw : 0 < w) :
    (if ~~~lo + 1 = 0 then ~~~hi + 1 else ~~~hi) ++ (~~~lo + 1) = -(hi ++ lo) := by
  rw [append_add_one hw, ← BitVec.not_append, BitVec.neg_eq_not_add]
  rfl

end DoubleWord

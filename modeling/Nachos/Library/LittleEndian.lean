import Mathlib.Data.Nat.Digits.Lemmas
import Mathlib.Data.BitVec
import Mathlib.Tactic

/-! Bit vectors and their bytes, least significant first. -/
namespace LittleEndian

/-- Byte `i` of a bit vector. -/
def byteOf {w : ℕ} (v : BitVec w) (i : ℕ) : UInt8 := UInt8.ofBitVec (v.extractLsb' (8 * i) 8)

/-- The first `n` bytes of a bit vector. -/
def bytesOf {w : ℕ} (v : BitVec w) (n : ℕ) : List UInt8 := (List.range n).map (byteOf v)

/-- The number with these bytes. -/
def value (bytes : List UInt8) : ℕ := Nat.ofDigits 256 (bytes.map UInt8.toNat)

variable {w : ℕ} {v v' : BitVec w}

theorem toNat_byteOf (v : BitVec w) (i : ℕ) : (byteOf v i).toNat = v.toNat / 256 ^ i % 256 := by
  show (v.extractLsb' (8 * i) 8).toNat = _
  rw [BitVec.extractLsb'_toNat, Nat.shiftRight_eq_div_pow, Nat.pow_mul]

theorem byteOf_eq_ofNat (v : BitVec w) (i : ℕ) :
    byteOf v i = UInt8.ofNat (v.toNat / 256 ^ i % 256) := by
  apply UInt8.toNat_inj.mp
  rw [toNat_byteOf, UInt8.toNat_ofNat']
  exact (Nat.mod_mod _ _).symm

theorem eq_of_byteOf_eq {n : ℕ} (hw : w = 8 * n) (h : ∀ i < n, byteOf v i = byteOf v' i) :
    v = v' := by
  apply BitVec.eq_of_getLsbD_eq
  intro k hk
  have hbyte : v.extractLsb' (8 * (k / 8)) 8 = v'.extractLsb' (8 * (k / 8)) 8 :=
    congrArg UInt8.toBitVec (h (k / 8) (by omega))
  have hbit := congrArg (fun b => BitVec.getLsbD b (k % 8)) hbyte
  simp only [BitVec.getLsbD_extractLsb', Nat.mod_lt k (show 0 < 8 by decide), decide_true,
    Bool.true_and, Nat.div_add_mod] at hbit
  exact hbit

theorem value_cons (b : UInt8) (bytes : List UInt8) :
    value (b :: bytes) = b.toNat + 256 * value bytes := Nat.ofDigits_cons ..

theorem value_lt (bytes : List UInt8) : value bytes < 256 ^ bytes.length := by
  have h : ∀ d ∈ bytes.map UInt8.toNat, d < 256 := by
    intro d hd
    obtain ⟨b, -, rfl⟩ := List.mem_map.mp hd
    exact b.toNat_lt
  simpa [value] using Nat.ofDigits_lt_base_pow_length (by decide) h

theorem value_div_mod (bytes : List UInt8) (i : ℕ) :
    value bytes / 256 ^ i % 256 = (bytes.getD i 0).toNat := by
  induction bytes generalizing i with
  | nil => simp [value]
  | cons b bytes ih =>
    have hb := b.toNat_lt
    rw [value_cons]
    cases i with
    | zero =>
      rw [Nat.pow_zero, Nat.div_one, List.getD_cons_zero]
      omega
    | succ i =>
      have hdiv : (b.toNat + 256 * value bytes) / 256 = value bytes := by omega
      rw [List.getD_cons_succ, ← ih, Nat.pow_succ', ← Nat.div_div_eq_div_mul, hdiv]

theorem byteOf_value (bytes : List UInt8) {i : ℕ} (hi : 8 * i + 8 ≤ w) :
    byteOf (BitVec.ofNat w (value bytes)) i = bytes.getD i 0 := by
  apply UInt8.toNat_inj.mp
  rw [toNat_byteOf, ← value_div_mod, BitVec.toNat_ofNat]
  obtain ⟨k, rfl⟩ := Nat.exists_eq_add_of_le hi
  have hpow : 2 ^ (8 * i + 8 + k) = 256 ^ i * (256 * 2 ^ k) := by
    rw [Nat.pow_add, Nat.pow_add, Nat.pow_mul, Nat.mul_assoc]
  rw [hpow, Nat.mod_mul_right_div_self]
  exact Nat.mod_mod_of_dvd _ (Nat.dvd_mul_right ..)

theorem length_bytesOf (v : BitVec w) (n : ℕ) : (bytesOf v n).length = n := by
  simp [bytesOf]

/-- All the bytes of a bit vector determine it. -/
theorem ofNat_value_bytesOf {n : ℕ} (hw : w = 8 * n) (v : BitVec w) :
    BitVec.ofNat w (value (bytesOf v n)) = v := by
  apply eq_of_byteOf_eq hw
  intro i hi
  rw [byteOf_value _ (by omega)]
  simp [bytesOf, List.getD_eq_getElem?_getD, hi]

/-- The function puts the `n` bytes of a bit vector in the opposite order. -/
def Swaps (n : ℕ) (f : BitVec w → BitVec w) : Prop :=
  ∀ v, ∀ i < n, byteOf (f v) i = byteOf v (n - 1 - i)

theorem Swaps.value {n : ℕ} {f : BitVec w → BitVec w} (hf : Swaps n f) (hw : w = 8 * n)
    {bytes : List UInt8} (hlength : bytes.length = n) :
    f (BitVec.ofNat w (value bytes.reverse)) = BitVec.ofNat w (value bytes) := by
  apply eq_of_byteOf_eq hw
  intro i hi
  rw [hf _ i hi, byteOf_value _ (by omega), byteOf_value _ (by omega)]
  simp only [List.getD_eq_getElem?_getD]
  rw [List.getElem?_reverse (by omega), hlength]
  congr 2
  omega

theorem Swaps.bytesOf {n : ℕ} {f : BitVec w → BitVec w} (hf : Swaps n f) (v : BitVec w) :
    (bytesOf (f v) n).reverse = bytesOf v n := by
  apply List.ext_getElem
  · simp [LittleEndian.bytesOf]
  · intro i hi _
    simp only [LittleEndian.bytesOf, List.length_reverse, List.length_map, List.length_range] at hi
    simp only [LittleEndian.bytesOf, List.getElem_reverse, List.getElem_map, List.getElem_range,
      List.length_map, List.length_range]
    rw [hf v _ (by omega)]
    congr 1
    omega

end LittleEndian

import Mathlib.Data.Nat.Digits.Lemmas
import Mathlib.Data.UInt

/-! Decimal numerals as lists of characters, the highest digit first. -/
namespace Decimal

/-- The character of a digit. -/
def digitChar (d : ℕ) : UInt8 := UInt8.ofNat (48 + d)

/-- The digit a character stands for. -/
def digitOf (c : UInt8) : ℕ := c.toNat - 48

def IsDigit (c : UInt8) : Prop := 48 ≤ c.toNat ∧ c.toNat ≤ 57

instance (c : UInt8) : Decidable (IsDigit c) := inferInstanceAs (Decidable (_ ∧ _))

/-- The digits of a number, without zeros in front: none for 0. -/
def digits (n : ℕ) : List UInt8 := (Nat.digits 10 n).reverse.map digitChar

/-- The canonical form of a number. -/
def ofNat (n : ℕ) : List UInt8 := if n = 0 then [48] else digits n

def ofInt (x : ℤ) : List UInt8 := if x < 0 then 45 :: ofNat x.natAbs else ofNat x.natAbs

/-- One more digit. -/
def push (n : ℕ) (c : UInt8) : ℕ := 10 * n + digitOf c

/-- The number that digits stand for. -/
def value (cs : List UInt8) : ℕ := cs.foldl push 0

theorem toNat_digitChar {d : ℕ} (hd : d < 10) : (digitChar d).toNat = 48 + d := by
  rw [digitChar, UInt8.toNat_ofNat']
  omega

theorem isDigit_digitChar {d : ℕ} (hd : d < 10) : IsDigit (digitChar d) := by
  unfold IsDigit
  rw [toNat_digitChar hd]
  omega

theorem digitOf_digitChar {d : ℕ} (hd : d < 10) : digitOf (digitChar d) = d := by
  rw [digitOf, toNat_digitChar hd]
  omega

theorem digitOf_lt {c : UInt8} (hc : IsDigit c) : digitOf c < 10 := by
  unfold IsDigit at hc
  unfold digitOf
  omega

theorem digitChar_digitOf {c : UInt8} (hc : IsDigit c) : digitChar (digitOf c) = c := by
  apply UInt8.toNat_inj.mp
  rw [toNat_digitChar (digitOf_lt hc)]
  unfold IsDigit at hc
  unfold digitOf
  omega

theorem digitChar_inj {d e : ℕ} (hd : d < 10) (he : e < 10) :
    digitChar d = digitChar e ↔ d = e := by
  refine ⟨fun h => ?_, congrArg _⟩
  rw [← digitOf_digitChar hd, h, digitOf_digitChar he]

/-- The last digit of a number, and those before it. -/
theorem digits_of_pos {n : ℕ} (hn : 0 < n) :
    digits n = digits (n / 10) ++ [digitChar (n % 10)] := by
  rw [digits, Nat.digits_def' (by decide) hn, List.reverse_cons, List.map_append]
  rfl

theorem digits_zero : digits 0 = [] := rfl

theorem isDigit_of_mem_digits {n : ℕ} {c : UInt8} (hc : c ∈ digits n) : IsDigit c := by
  obtain ⟨d, hd, rfl⟩ := List.mem_map.mp hc
  exact isDigit_digitChar (Nat.digits_lt_base (by decide) (List.mem_reverse.mp hd))

theorem isDigit_of_mem_ofNat {n : ℕ} {c : UInt8} (hc : c ∈ ofNat n) : IsDigit c := by
  unfold ofNat at hc
  split at hc
  · rw [List.mem_singleton.mp hc]
    decide
  · exact isDigit_of_mem_digits hc

theorem length_digits_le {n k : ℕ} (hn : n < 10 ^ k) : (digits n).length ≤ k := by
  rw [digits, List.length_map, List.length_reverse]
  exact (Nat.digits_length_le_iff (by decide) n).mpr hn

theorem length_ofNat_le {n k : ℕ} (hk : 0 < k) (hn : n < 10 ^ k) : (ofNat n).length ≤ k := by
  unfold ofNat
  split
  · exact hk
  · exact length_digits_le hn

theorem ofNat_ne_nil (n : ℕ) : ofNat n ≠ [] := by
  unfold ofNat
  split
  · exact List.cons_ne_nil _ _
  · next hn =>
    rw [digits_of_pos (Nat.pos_of_ne_zero hn)]
    simp

theorem value_eq_ofDigits (cs : List UInt8) :
    value cs = Nat.ofDigits 10 (cs.reverse.map digitOf) := by
  induction cs using List.reverseRecOn with
  | nil => rfl
  | append_singleton cs c ih =>
    rw [value, List.foldl_append, ← value, ih, List.reverse_append]
    show push _ c = Nat.ofDigits 10 (digitOf c :: cs.reverse.map digitOf)
    rw [Nat.ofDigits_cons, push]
    ring

theorem value_lt {cs : List UInt8} (h : ∀ c ∈ cs, IsDigit c) : value cs < 10 ^ cs.length := by
  rw [value_eq_ofDigits, ← List.length_reverse, ← List.length_map digitOf]
  refine Nat.ofDigits_lt_base_pow_length (by decide) fun d hd => ?_
  obtain ⟨c, hc, rfl⟩ := List.mem_map.mp hd
  exact digitOf_lt (h c (List.mem_reverse.mp hc))

theorem map_digitOf_digits (n : ℕ) : (digits n).map digitOf = (Nat.digits 10 n).reverse := by
  rw [digits, List.map_map]
  refine (List.map_congr_left fun d hd => ?_).trans (List.map_id _)
  exact digitOf_digitChar (Nat.digits_lt_base (by decide) (List.mem_reverse.mp hd))

theorem value_digits (n : ℕ) : value (digits n) = n := by
  rw [value_eq_ofDigits, List.map_reverse, map_digitOf_digits, List.reverse_reverse,
    Nat.ofDigits_digits]

theorem value_ofNat (n : ℕ) : value (ofNat n) = n := by
  unfold ofNat
  split
  · next hn =>
    rw [hn]
    rfl
  · exact value_digits n

/-- Digits without a zero in front are those of their value. -/
theorem digits_value {cs : List UInt8} (h : ∀ c ∈ cs, IsDigit c) (hhead : cs.head? ≠ some 48) :
    digits (value cs) = cs := by
  have hlast : ∀ hne : cs.reverse.map digitOf ≠ [], (cs.reverse.map digitOf).getLast hne ≠ 0 := by
    intro hne hzero
    cases cs with
    | nil => exact hne rfl
    | cons c cs =>
      rw [List.getLast_map, List.getLast_reverse] at hzero
      apply hhead
      have hc := digitChar_digitOf (h c List.mem_cons_self)
      rw [show digitOf c = 0 from hzero] at hc
      rw [List.head?_cons, ← hc]
      rfl
  rw [digits, value_eq_ofDigits, Nat.digits_ofDigits 10 (by decide) _ ?_ hlast, ← List.map_reverse,
    List.reverse_reverse, List.map_map]
  · refine (List.map_congr_left fun c hc => ?_).trans (List.map_id _)
    exact digitChar_digitOf (h c hc)
  · intro d hd
    obtain ⟨c, hc, rfl⟩ := List.mem_map.mp hd
    exact digitOf_lt (h c (List.mem_reverse.mp hc))

/-- A zero stands in front only of 0 itself. -/
theorem head_digits (n : ℕ) : (digits n).head? ≠ some 48 := by
  rcases Nat.eq_zero_or_pos n with rfl | hn
  · simp [digits_zero]
  intro hhead
  have hne := Nat.getLast_digit_ne_zero 10 hn.ne'
  rw [digits, List.head?_map, List.head?_reverse, List.getLast?_eq_getLast_of_ne_nil
    (Nat.digits_ne_nil_iff_ne_zero.mpr hn.ne')] at hhead
  have hlt := Nat.digits_lt_base (b := 10) (m := n) (by decide)
    (List.getLast_mem (Nat.digits_ne_nil_iff_ne_zero.mpr hn.ne'))
  exact hne ((digitChar_inj hlt (show 0 < 10 by decide)).mp (Option.some.inj hhead))

theorem ofNat_value {cs : List UInt8} (h : ∀ c ∈ cs, IsDigit c) (hne : cs ≠ [])
    (hhead : cs.head? ≠ some 48) : ofNat (value cs) = cs := by
  unfold ofNat
  have hdigits := digits_value h hhead
  split
  · next hzero =>
    rw [hzero, digits_zero] at hdigits
    exact absurd hdigits.symm hne
  · exact hdigits

theorem digits_ne_nil {n : ℕ} (hn : 0 < n) : digits n ≠ [] := by
  rw [digits_of_pos hn]
  simp

theorem ofInt_of_neg {x : ℤ} (hx : x < 0) : ofInt x = 45 :: digits x.natAbs := by
  rw [ofInt, if_pos hx, ofNat, if_neg (by omega)]

theorem ofInt_of_pos {x : ℤ} (hx : 0 < x) : ofInt x = digits x.natAbs := by
  rw [ofInt, if_neg (by omega), ofNat, if_neg (by omega)]

theorem not_isDigit_minus : ¬ IsDigit 45 := by decide

theorem head_ofInt_of_nonneg {x : ℤ} (hx : 0 ≤ x) : (ofInt x).head? ≠ some 45 := by
  rw [ofInt, if_neg (by omega)]
  intro hhead
  exact not_isDigit_minus (isDigit_of_mem_ofNat (List.mem_of_mem_head? hhead))

theorem head_ofInt (x : ℤ) : (ofInt x).head? = some 45 ↔ x < 0 := by
  constructor
  · intro h
    by_contra hx
    exact head_ofInt_of_nonneg (by omega) h
  · intro hx
    rw [ofInt_of_neg hx]
    rfl

end Decimal

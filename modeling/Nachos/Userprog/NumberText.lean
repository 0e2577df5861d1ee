import Nachos.Library.Decimal
import Nachos.Machine.Translate
import Nachos.Userprog.ConsoleInput

/-! `SysReadNum` (`userprog/ksyscall.h`). A number that is out of range has overflowed when it is
compared with its text, digit by digit. -/
namespace Nachos

namespace ReadNum

/-- The longest `int`, with its sign. -/
abbrev MAX_NUM_LENGTH : ℕ := 11

def isBlank (c : UInt8) : Bool := c = 10 ∨ c = 13 ∨ c = 9 ∨ c = 32

/-- The characters of a C string in a buffer. -/
def text (buffer : List UInt8) : List UInt8 := buffer.takeWhile (· ≠ 0)

/-- `strlen`, if the string ends in its buffer. -/
def strlen (buffer : List UInt8) : Option ℕ :=
  if 0 ∈ buffer then some (text buffer).length else none

/-- The loop of `compareNumAndString`, with `len` characters left. There is no result when it goes
on to `s[-1]`. -/
def compareDigits (s : List UInt8) : (len : ℕ) → (integer : Word) → Option Bool
  | 0, integer => if integer.toInt > 0 then none else some true
  | len + 1, integer =>
    if integer.toInt > 0 then
      s[len]?.bind fun c =>
        if charInt c - 48 ≠ integer.toInt.tmod 10 then some false
        else compareDigits s len (BitVec.ofInt 32 (integer.toInt.tdiv 10))
    else some false

def compareNumAndString (integer : Word) (s : List UInt8) : Option Bool := do
  let len ← strlen s
  if integer = 0 then return text s = [48]
  else if integer.toInt < 0 ∧ s.head? ≠ some 45 then return false
  else if integer.toInt < 0 then compareDigits s.tail (len - 1) (-integer)
  else compareDigits s len integer

/-- The loop of `SysReadNum` over the characters behind the sign: the zeros in front, and the
number. It ends early at a character that is no digit. -/
def scanDigits : List UInt8 → (zeros : ℕ) → (isLeading : Bool) → (num : Word) → Option (ℕ × Word)
  | [], zeros, _, num => some (zeros, num)
  | c :: cs, zeros, isLeading, num =>
    if charInt c < 48 ∨ charInt c > 57 then none
    else scanDigits cs (if c = 48 ∧ isLeading then zeros + 1 else zeros) (c = 48 ∧ isLeading)
      (num * 10 + BitVec.ofInt 32 (charInt c - 48))

/-- "-2147483648". -/
def minText : List UInt8 := [45, 50, 49, 52, 55, 52, 56, 51, 54, 52, 56]

/-- `SysReadNum` once the buffer is filled. There is no result when an index is out of range. -/
def parseNum (numberBuffer : List UInt8) : Option Word := do
  let len ← strlen numberBuffer
  if len = 0 then return 0
  else if text numberBuffer = minText then return BitVec.ofInt 32 (-2147483648)
  else
    let nega : Bool := numberBuffer.head? = some 45
    match scanDigits ((text numberBuffer).drop nega.toNat) 0 true 0 with
    | none => return 0
    | some (zeros, num) =>
      if zeros > 1 ∨ zeros ≠ 0 ∧ (num ≠ 0 ∨ nega) then return 0
      else
        let num := if nega then -num else num
        if len ≤ MAX_NUM_LENGTH - 2 then return num
        else
          let equal ← compareNumAndString num numberBuffer
          return if equal then num else 0

variable {cs t s buffer : List UInt8} {n : ℕ} {num : Word}

/-- The zeros in front of a number. -/
def leadingZeros (cs : List UInt8) : ℕ := (cs.takeWhile (· = 48)).length

theorem isDigit_iff {c : UInt8} : Decimal.IsDigit c ↔ ¬ (charInt c < 48 ∨ charInt c > 57) := by
  unfold Decimal.IsDigit charInt
  rw [BitVec.toInt_eq_toNat_cond]
  change 48 ≤ c.toNat ∧ c.toNat ≤ 57 ↔ ¬ ((if 2 * c.toNat < 2 ^ 8 then _ else _ : ℤ) < 48 ∨ _)
  have hlt := c.toNat_lt
  have hbits : c.toBitVec.toNat = c.toNat := rfl
  split <;> omega

theorem charInt_of_isDigit {c : UInt8} (hc : Decimal.IsDigit c) :
    charInt c - 48 = Decimal.digitOf c := by
  unfold Decimal.IsDigit at hc
  unfold Decimal.digitOf charInt
  rw [BitVec.toInt_eq_toNat_of_lt (by change 2 * c.toNat < 2 ^ 8; omega)]
  change (c.toNat : ℤ) - 48 = _
  omega

/-- The number wraps around, and nothing else is lost. -/
theorem push_wraps {c : UInt8} (hc : Decimal.IsDigit c) (n : ℕ) :
    BitVec.ofNat 32 n * 10 + BitVec.ofInt 32 (charInt c - 48) =
      BitVec.ofNat 32 (Decimal.push n c) := by
  rw [charInt_of_isDigit hc, BitVec.ofInt_natCast, Decimal.push, BitVec.ofNat_add,
    BitVec.ofNat_mul, BitVec.mul_comm]
  rfl

theorem scanDigits_of_digits (h : ∀ c ∈ cs, Decimal.IsDigit c) (zeros : ℕ) (isLeading : Bool)
    (n : ℕ) : scanDigits cs zeros isLeading (BitVec.ofNat 32 n) =
      some (zeros + if isLeading then leadingZeros cs else 0,
        BitVec.ofNat 32 (cs.foldl Decimal.push n)) := by
  induction cs generalizing zeros isLeading n with
  | nil => cases isLeading <;> rfl
  | cons c cs ih =>
    have hc := h c List.mem_cons_self
    rw [scanDigits, if_neg (isDigit_iff.mp hc), push_wraps hc,
      ih fun d hd => h d (List.mem_cons_of_mem _ hd)]
    congr 2
    by_cases h48 : c = 48 <;> cases isLeading <;> simp [leadingZeros, h48]
    omega

theorem scanDigits_eq_none (h : ¬ ∀ c ∈ cs, Decimal.IsDigit c) (zeros : ℕ) (isLeading : Bool)
    (num : Word) : scanDigits cs zeros isLeading num = none := by
  induction cs generalizing zeros isLeading num with
  | nil => simp at h
  | cons c cs ih =>
    rw [scanDigits]
    split
    · rfl
    · next hc =>
      refine ih (fun hall => h fun d hd => ?_) _ _ _
      rcases List.mem_cons.mp hd with rfl | hd
      · exact isDigit_iff.mpr hc
      · exact hall d hd

theorem toInt_ofNat (hn : n < 2 ^ 31) : (BitVec.ofNat 32 n).toInt = n := by
  rw [BitVec.toInt_ofNat', Int.bmod_def]
  omega

theorem concat_eq_iff {xs ys : List UInt8} {c d : UInt8} :
    xs ++ [c] = ys ++ [d] ↔ xs = ys ∧ c = d := by
  refine ⟨fun h => ?_, fun h => by rw [h.1, h.2]⟩
  have := List.append_inj' h rfl
  exact ⟨this.1, List.singleton_inj.mp this.2⟩

/-- The digits of the number are taken off together with those of the text. -/
theorem compareDigits_eq {len : ℕ} (hn : n < 2 ^ 31) (hdigits : (Decimal.digits n).length ≤ len)
    (hlen : len ≤ s.length) :
    compareDigits s len (BitVec.ofNat 32 n) = some (decide (s.take len = Decimal.digits n)) := by
  induction len generalizing n with
  | zero =>
    have hzero : n = 0 := by
      by_contra hpos
      rw [Decimal.digits_of_pos (Nat.pos_of_ne_zero hpos), List.length_append] at hdigits
      simp at hdigits
    subst hzero
    rfl
  | succ len ih =>
    rw [compareDigits, toInt_ofNat hn]
    split
    · next hpos =>
      have hpos : 0 < n := by omega
      have hc := List.getElem?_eq_getElem (show len < s.length by omega)
      rw [Decimal.digits_of_pos hpos] at hdigits ⊢
      rw [List.length_append, List.length_singleton] at hdigits
      have hmod : (n : ℤ).tmod 10 = (n % 10 : ℕ) := rfl
      have hdiv : (n : ℤ).tdiv 10 = (n / 10 : ℕ) := rfl
      rw [hc, Option.bind_some, hmod, hdiv, BitVec.ofInt_natCast,
        ih (by omega) (by omega) (by omega)]
      have hchar : charInt s[len] - 48 = (n % 10 : ℕ) ↔ s[len] = Decimal.digitChar (n % 10) := by
        have hlt : n % 10 < 10 := Nat.mod_lt _ (by decide)
        constructor
        · intro heq
          have hdigit : Decimal.IsDigit s[len] := isDigit_iff.mpr (by omega)
          rw [charInt_of_isDigit hdigit] at heq
          rw [← Decimal.digitChar_digitOf hdigit, Int.ofNat_inj.mp heq]
        · intro heq
          rw [heq, charInt_of_isDigit (Decimal.isDigit_digitChar hlt),
            Decimal.digitOf_digitChar hlt]
      have hsplit : s.take (len + 1) = s.take len ++ [s[len]] := by
        rw [List.take_add_one, hc]
        rfl
      simp only [ne_eq, hchar, hsplit, concat_eq_iff]
      split
      · next hne => simp [hne]
      · next heq => simp [not_not.mp heq]
    · next hpos =>
      have hzero : n = 0 := by omega
      subst hzero
      have hne : s.take (len + 1) ≠ [] := by
        intro hnil
        rw [List.take_eq_nil_iff] at hnil
        rcases hnil with hlen0 | rfl
        · omega
        · simp at hlen
      simp [Decimal.digits_zero, hne]

/-- The text is what `compareNumAndString` sees of its buffer. -/
structure Holds (buffer t : List UInt8) : Prop where
  text : text buffer = t
  ends : 0 ∈ buffer

theorem Holds.strlen (h : Holds buffer t) : strlen buffer = some t.length := by
  rw [ReadNum.strlen, if_pos h.ends, h.text]

theorem Holds.begins (h : Holds buffer t) : t <+: buffer := h.text ▸ List.takeWhile_prefix _

theorem Holds.head (h : Holds buffer t) (hne : t ≠ []) : buffer.head? = t.head? := by
  obtain ⟨rest, rfl⟩ := h.begins
  exact List.head?_append_of_ne_nil _ hne

theorem eq_of_pos (hpos : 0 < num.toInt) : num = BitVec.ofNat 32 num.toInt.natAbs := by
  apply BitVec.eq_of_toInt_eq
  have hlt := BitVec.toInt_lt (x := num)
  rw [toInt_ofNat (by omega)]
  omega

theorem neg_eq_of_neg (hneg : num.toInt < 0) (hmin : num.toInt ≠ -2 ^ 31) :
    -num = BitVec.ofNat 32 num.toInt.natAbs := by
  apply BitVec.eq_of_toInt_eq
  have hle := BitVec.le_toInt num
  rw [toInt_ofNat (by omega), BitVec.toInt_neg, Int.bmod_def]
  omega

/-- What stands behind the sign. -/
def body (t : List UInt8) : List UInt8 := t.drop (decide (t.head? = some 45)).toNat

theorem body_minus (t : List UInt8) : body (45 :: t) = t := rfl

theorem body_of_head (h : t.head? ≠ some 45) : body t = t := by
  rw [body, decide_eq_false h]
  rfl

theorem body_ofInt (x : ℤ) : body (Decimal.ofInt x) = Decimal.ofNat x.natAbs := by
  by_cases hx : x < 0
  · rw [Decimal.ofInt, if_pos hx, body_minus]
  · rw [body_of_head (Decimal.head_ofInt_of_nonneg (by omega)), Decimal.ofInt, if_neg hx]

theorem ofInt_inj {x y : ℤ} (h : Decimal.ofInt x = Decimal.ofInt y) : x = y := by
  have hvalue := congrArg (Decimal.value ∘ body) h
  simp only [Function.comp_apply, body_ofInt, Decimal.value_ofNat] at hvalue
  have hsign : x < 0 ↔ y < 0 := by rw [← Decimal.head_ofInt, ← Decimal.head_ofInt, h]
  omega

/-- The number and the text are compared without the sign. -/
theorem compareNumAndString_eq (h : Holds buffer t) (hmin : t ≠ minText)
    (hlen : (Decimal.digits num.toInt.natAbs).length ≤ (body t).length) :
    compareNumAndString num buffer = some (decide (t = Decimal.ofInt num.toInt)) := by
  have hlt := BitVec.toInt_lt (x := num)
  have hle := BitVec.le_toInt num
  simp only [compareNumAndString, h.strlen, Option.bind_eq_bind, Option.bind_some, h.text]
  obtain ⟨rest, hrest⟩ := h.begins
  rcases lt_trichotomy num.toInt 0 with hneg | hzero | hpos
  · have hne : num ≠ 0 := fun h0 => by simp [h0] at hneg
    rw [if_neg hne, Decimal.ofInt_of_neg hneg]
    have hdigits : Decimal.digits num.toInt.natAbs ≠ [] := Decimal.digits_ne_nil (by omega)
    split
    · next hsign =>
      have hother : t ≠ 45 :: Decimal.digits num.toInt.natAbs := by
        rintro rfl
        exact hsign.2 (h.head (List.cons_ne_nil _ _))
      simp [hother]
    · next hsign =>
      have hsign : buffer.head? = some 45 := by
        by_contra hother
        exact hsign ⟨hneg, hother⟩
      cases t with
      | nil => exact absurd (List.length_eq_zero_iff.mp (Nat.le_zero.mp hlen)) hdigits
      | cons c t =>
        obtain rfl : c = 45 := by
          rw [h.head (List.cons_ne_nil _ _)] at hsign
          exact Option.some.inj hsign
        rw [← hrest]
        by_cases hlow : num.toInt = -2 ^ 31
        · have hself : -num = num := BitVec.eq_of_toInt_eq (by
            rw [BitVec.toInt_neg, hlow]
            rfl)
          have hother : 45 :: t ≠ 45 :: Decimal.digits num.toInt.natAbs := by
            rw [hlow]
            exact hmin
          cases t with
          | nil => exact absurd (List.length_eq_zero_iff.mp (Nat.le_zero.mp hlen)) hdigits
          | cons d t =>
            rw [hself, List.length_cons, Nat.add_sub_cancel, List.length_cons, compareDigits,
              if_neg (by omega), decide_eq_false hother]
        · rw [neg_eq_of_neg hneg hlow]
          rw [body_minus] at hlen
          rw [List.length_cons, Nat.add_sub_cancel, compareDigits_eq (by omega) hlen (by simp)]
          simp
  · have h0 : num = 0 := BitVec.eq_of_toInt_eq hzero
    subst h0
    rfl
  · have hne : num ≠ 0 := fun h0 => by simp [h0] at hpos
    rw [if_neg hne, if_neg (by omega), if_neg (by omega), Decimal.ofInt_of_pos hpos]
    have hshort : (body t).length ≤ t.length := by
      rw [body, List.length_drop]
      omega
    have heq := compareDigits_eq (by omega) (hlen.trans hshort) h.begins.length_le
    rw [← eq_of_pos hpos] at heq
    rw [heq, ← hrest, List.take_left]

/-- The number that the digits of a text end with, with the sign of the text. -/
def scanned (t : List UInt8) : Word :=
  if decide (t.head? = some 45) then -BitVec.ofNat 32 (Decimal.value (body t))
  else BitVec.ofNat 32 (Decimal.value (body t))

theorem toInt_scanned (hv : Decimal.value (body t) < 2 ^ 31) :
    (scanned t).toInt = if decide (t.head? = some 45) then -(Decimal.value (body t) : ℤ)
      else Decimal.value (body t) := by
  unfold scanned
  split
  · rw [BitVec.toInt_neg, toInt_ofNat hv, Int.bmod_def]
    omega
  · exact toInt_ofNat hv

theorem scanned_ofInt (x : ℤ) : scanned (Decimal.ofInt x) = BitVec.ofInt 32 x := by
  simp only [scanned, Decimal.head_ofInt, body_ofInt, Decimal.value_ofNat, decide_eq_true_eq]
  split
  · rw [← BitVec.ofInt_natCast, ← BitVec.ofInt_neg]
    congr 1
    omega
  · rw [← BitVec.ofInt_natCast]
    congr 1
    omega

theorem eq_ofInt (hdigits : ∀ c ∈ body t, Decimal.IsDigit c) (hne : body t ≠ [])
    (hhead : (body t).head? ≠ some 48) :
    t = Decimal.ofInt (if decide (t.head? = some 45) then -(Decimal.value (body t) : ℤ)
      else Decimal.value (body t)) := by
  have hvalue := Decimal.ofNat_value hdigits hne hhead
  by_cases hsign : t.head? = some 45
  · obtain ⟨ds, rfl⟩ : ∃ ds, t = 45 :: ds := by
      cases t with
      | nil => exact absurd rfl hne
      | cons c ds => exact ⟨ds, by rw [Option.some.inj hsign]⟩
    rw [body_minus] at hvalue hne hhead hdigits ⊢
    have hpos : 0 < Decimal.value ds := by
      by_contra hzero
      rw [show Decimal.value ds = 0 by omega] at hvalue
      exact hhead (hvalue ▸ rfl)
    simp [Decimal.ofInt, hvalue, hpos]
  · rw [decide_eq_false hsign]
    rw [body_of_head hsign] at hvalue ⊢
    simp [Decimal.ofInt, hvalue]

theorem leadingZeros_eq_zero : leadingZeros cs = 0 ↔ cs.head? ≠ some 48 := by
  cases cs with
  | nil => simp [leadingZeros]
  | cons c cs => by_cases hc : c = 48 <;> simp [leadingZeros, hc]

theorem leadingZeros_ofNat (n : ℕ) : leadingZeros (Decimal.ofNat n) = if n = 0 then 1 else 0 := by
  unfold Decimal.ofNat
  split
  · rfl
  · exact leadingZeros_eq_zero.mpr (Decimal.head_digits n)

/-- A number that is 0 has digits only behind its zeros. -/
theorem eq_of_leadingZeros (hdigits : ∀ c ∈ cs, Decimal.IsDigit c)
    (hvalue : Decimal.value cs = 0) (hone : leadingZeros cs = 1) : cs = [48] := by
  cases cs with
  | nil => cases hone
  | cons c cs =>
    by_cases hc : c = 48
    · subst hc
      have hrest : leadingZeros cs = 0 := by simpa [leadingZeros] using hone
      have heq := Decimal.digits_value (fun d hd => hdigits d (List.mem_cons_of_mem _ hd))
        (leadingZeros_eq_zero.mp hrest)
      rw [show Decimal.value cs = 0 from hvalue] at heq
      rw [← heq]
      rfl
    · simp [leadingZeros, hc] at hone

theorem parseNum_eq (h : Holds buffer t) (hne : t ≠ []) (hmin : t ≠ minText) :
    parseNum buffer = match scanDigits (body t) 0 true 0 with
      | none => some 0
      | some (zeros, num) =>
        if zeros > 1 ∨ zeros ≠ 0 ∧ (num ≠ 0 ∨ decide (t.head? = some 45)) then some 0
        else
          let num := if decide (t.head? = some 45) then -num else num
          if t.length ≤ MAX_NUM_LENGTH - 2 then some num
          else (compareNumAndString num buffer).bind fun equal =>
            some (if equal then num else 0) := by
  have hlen : t.length ≠ 0 := fun h0 => hne (List.length_eq_zero_iff.mp h0)
  simp only [parseNum, h.strlen, h.text, h.head hne, Option.bind_eq_bind, Option.bind_some,
    if_neg hlen, if_neg hmin]
  rfl

/-- The canonical forms pass the checks, with their value. -/
theorem canonical {x : ℤ} (h : t = Decimal.ofInt x) :
    (∀ c ∈ body t, Decimal.IsDigit c) ∧ body t ≠ [] ∧ leadingZeros (body t) ≤ 1 ∧
      (leadingZeros (body t) ≠ 0 → Decimal.value (body t) = 0 ∧ t.head? ≠ some 45) ∧
      scanned t = BitVec.ofInt 32 x := by
  subst h
  simp only [body_ofInt, leadingZeros_ofNat, Decimal.value_ofNat, scanned_ofInt]
  refine ⟨fun c => Decimal.isDigit_of_mem_ofNat, Decimal.ofNat_ne_nil _, ?_, ?_, trivial⟩
  · split <;> decide
  · intro hzeros
    have hx : x.natAbs = 0 := by
      by_contra hne
      exact hzeros (if_neg hne)
    exact ⟨hx, fun hneg => by rw [Decimal.head_ofInt] at hneg; omega⟩

/-- Nine digits do not overflow. -/
theorem value_lt_of_length (hdigits : ∀ c ∈ cs, Decimal.IsDigit c) (hlen : cs.length ≤ 9) :
    Decimal.value cs < 10 ^ 9 :=
  (Decimal.value_lt hdigits).trans_le (Nat.pow_le_pow_right (by decide) hlen)

theorem length_body (t : List UInt8) :
    t.length - 1 ≤ (body t).length ∧ (body t).length ≤ t.length := by
  have hsign := Bool.toNat_le (decide (t.head? = some 45))
  rw [body, List.length_drop]
  omega

/-- A text without more digits than an `int` always has. -/
theorem short_eq (hdigits : ∀ c ∈ body t, Decimal.IsDigit c) (hne : body t ≠ [])
    (hlen : (body t).length ≤ 9)
    (hzeros : ¬ (leadingZeros (body t) > 1 ∨ leadingZeros (body t) ≠ 0 ∧
      (BitVec.ofNat 32 (Decimal.value (body t)) ≠ 0 ∨ decide (t.head? = some 45)))) :
    t = Decimal.ofInt (scanned t).toInt := by
  have hvalue := value_lt_of_length hdigits hlen
  rw [toInt_scanned (by omega)]
  by_cases hzero : leadingZeros (body t) = 0
  · exact eq_ofInt hdigits hne (leadingZeros_eq_zero.mp hzero)
  · have hsign : t.head? ≠ some 45 := fun hsign =>
      hzeros (.inr ⟨hzero, .inr (decide_eq_true hsign)⟩)
    have hnum : BitVec.ofNat 32 (Decimal.value (body t)) = 0 := by
      by_contra hnum
      exact hzeros (.inr ⟨hzero, .inl hnum⟩)
    have hval : Decimal.value (body t) = 0 := by
      have := congrArg BitVec.toInt hnum
      rw [toInt_ofNat (by omega)] at this
      exact Int.ofNat_inj.mp this
    rw [decide_eq_false hsign, hval]
    rw [← body_of_head hsign]
    exact eq_of_leadingZeros hdigits hval (by omega)

/-- An `int` has no more digits than a text that is compared with it. -/
theorem length_scanned_le (hdigits : ∀ c ∈ body t, Decimal.IsDigit c) (hlen : 9 ≤ (body t).length) :
    (Decimal.digits (scanned t).toInt.natAbs).length ≤ (body t).length := by
  apply Decimal.length_digits_le
  by_cases hnine : (body t).length = 9
  · have hvalue := value_lt_of_length hdigits hnine.le
    rw [toInt_scanned (by omega), hnine]
    split <;> omega
  · have hlt := BitVec.toInt_lt (x := scanned t)
    have hle := BitVec.le_toInt (scanned t)
    calc (scanned t).toInt.natAbs < 10 ^ 10 := by omega
      _ ≤ 10 ^ (body t).length := Nat.pow_le_pow_right (by decide) (by omega)

/-- What `SysReadNum` makes of a text. -/
theorem parseNum_spec (h : Holds buffer t) : ∃ num, parseNum buffer = some num ∧
    (t = Decimal.ofInt num.toInt ∨
      num = 0 ∧ ∀ x : ℤ, -2 ^ 31 ≤ x → x < 2 ^ 31 → t ≠ Decimal.ofInt x) := by
  by_cases hne : t = []
  · refine ⟨0, ?_, .inr ⟨rfl, fun x _ _ hx => (canonical hx).2.1 (by rw [hne]; rfl)⟩⟩
    simp [parseNum, h.strlen, hne]
  by_cases hmin : t = minText
  · refine ⟨BitVec.ofInt 32 (-2147483648), ?_, .inl (hmin.trans ?_)⟩
    · simp [parseNum, h.strlen, h.text, hmin, minText]
    · rw [show (BitVec.ofInt 32 (-2147483648)).toInt = -2147483648 from by decide]
      rfl
  rw [parseNum_eq h hne hmin]
  by_cases hdigits : ∀ c ∈ body t, Decimal.IsDigit c
  swap
  · rw [scanDigits_eq_none hdigits]
    exact ⟨0, rfl, .inr ⟨rfl, fun x _ _ hx => hdigits (canonical hx).1⟩⟩
  have hscan := scanDigits_of_digits hdigits 0 true 0
  rw [if_pos rfl, Nat.zero_add, ← Decimal.value] at hscan
  change scanDigits (body t) 0 true 0 = _ at hscan
  rw [hscan]
  simp only
  split
  · next hrejected =>
    refine ⟨0, rfl, .inr ⟨rfl, fun x _ _ hx => ?_⟩⟩
    obtain ⟨-, -, hone, hzero, -⟩ := canonical hx
    rcases hrejected with htwo | ⟨hzeros, hnum | hsign⟩
    · exact absurd hone (by omega)
    · exact hnum (by rw [(hzero hzeros).1]; rfl)
    · exact (hzero hzeros).2 (of_decide_eq_true hsign)
  next hzeros =>
  rw [← scanned]
  have hbody := length_body t
  split
  · next hshort =>
    by_cases hempty : body t = []
    · refine ⟨_, rfl, .inr ⟨?_, fun x _ _ hx => (canonical hx).2.1 hempty⟩⟩
      rw [scanned, hempty]
      split <;> rfl
    · exact ⟨_, rfl, .inl (short_eq hdigits hempty (hbody.2.trans hshort) hzeros)⟩
  · next hlong =>
    have hlong : 9 < t.length := Nat.lt_of_not_le hlong
    rw [compareNumAndString_eq h hmin (length_scanned_le hdigits (by omega)), Option.bind_some]
    by_cases heq : t = Decimal.ofInt (scanned t).toInt
    · rw [decide_eq_true heq, if_pos rfl]
      exact ⟨_, rfl, .inl heq⟩
    · rw [decide_eq_false heq, if_neg Bool.false_ne_true]
      refine ⟨0, rfl, .inr ⟨rfl, fun x hlow hhigh hx => heq ?_⟩⟩
      rw [(canonical hx).2.2.2.2, BitVec.toInt_ofInt, Int.bmod_eq_of_le (by omega) (by omega)]
      exact hx

end ReadNum

end Nachos

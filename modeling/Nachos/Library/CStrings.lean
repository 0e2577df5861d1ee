import Mathlib.Data.List.Basic
import Mathlib.Logic.Function.Basic
import Mathlib.Tactic

/-! Strings in a memory of bytes that end at the first zero, and their copies. -/
namespace CStrings

abbrev Memory := ℕ → UInt8

/-- The number of bytes before the first zero, if it is one of the next `room` bytes. -/
def strlen (memory : Memory) (addr : ℕ) : ℕ → Option ℕ
  | 0 => none
  | room + 1 =>
    if memory addr = 0 then some 0 else (strlen memory (addr + 1) room).map (· + 1)

/-- The bytes before the first zero. -/
def stringAt (memory : Memory) (addr room : ℕ) : Option (List UInt8) :=
  (strlen memory addr room).map fun n => (List.range n).map fun i => memory (addr + i)

/-- Zeroes in `n` places. -/
def fill (memory : Memory) (dest : ℕ) : ℕ → Memory
  | 0 => memory
  | n + 1 => fill (Function.update memory dest 0) (dest + 1) n

/-- `strncpy`: bytes up to the first zero, and zeroes for the rest of the `n`. -/
def strncpy (memory : Memory) (dest src : ℕ) : ℕ → Memory
  | 0 => memory
  | n + 1 =>
    if memory src = 0 then fill memory dest (n + 1)
    else strncpy (Function.update memory dest (memory src)) (dest + 1) (src + 1) n

variable {memory : Memory} {addr dest src room n : ℕ}

theorem strlen_eq_some_iff : strlen memory addr room = some n ↔
    n < room ∧ (∀ i < n, memory (addr + i) ≠ 0) ∧ memory (addr + n) = 0 := by
  induction room generalizing addr n with
  | zero => simp [strlen]
  | succ room ih =>
    rw [strlen]
    split_ifs with hzero
    · constructor
      · rintro ⟨⟩
        exact ⟨Nat.succ_pos _, fun i hi => absurd hi (Nat.not_lt_zero i), hzero⟩
      · rintro ⟨-, hne, -⟩
        cases n with
        | zero => rfl
        | succ n => exact absurd hzero (hne 0 (Nat.succ_pos n))
    · rw [Option.map_eq_some_iff]
      constructor
      · rintro ⟨k, hk, rfl⟩
        obtain ⟨hlt, hne, hend⟩ := ih.mp hk
        refine ⟨Nat.succ_lt_succ hlt, ?_, ?_⟩
        · intro i hi
          cases i with
          | zero => exact hzero
          | succ i =>
            have h := hne i (Nat.lt_of_succ_lt_succ hi)
            rwa [Nat.add_assoc, Nat.add_comm 1] at h
        · rwa [Nat.add_assoc, Nat.add_comm 1] at hend
      · rintro ⟨hlt, hne, hend⟩
        cases n with
        | zero => exact absurd hend hzero
        | succ n =>
          refine ⟨n, ih.mpr ⟨Nat.lt_of_succ_lt_succ hlt, ?_, ?_⟩, rfl⟩
          · intro i hi
            have h := hne (i + 1) (Nat.succ_lt_succ hi)
            rwa [← Nat.add_assoc, Nat.add_right_comm] at h
          · rwa [← Nat.add_assoc, Nat.add_right_comm] at hend

/-- The bytes of a string are in memory, from `addr` on. -/
def Holds (memory : Memory) (addr : ℕ) (s : List UInt8) : Prop :=
  ∀ i < s.length, s[i]? = some (memory (addr + i))

theorem holds_append_singleton {s : List UInt8} {c : UInt8} :
    Holds memory addr (s ++ [c]) ↔ Holds memory addr s ∧ memory (addr + s.length) = c := by
  constructor
  · intro h
    have hlast := h s.length (by simp)
    rw [List.getElem?_append_right le_rfl, Nat.sub_self, List.getElem?_cons_zero] at hlast
    refine ⟨?_, (Option.some.inj hlast).symm⟩
    intro i hi
    have hget := h i (by rw [List.length_append]; omega)
    rwa [List.getElem?_append_left hi] at hget
  · rintro ⟨h, rfl⟩ i hi
    rw [List.length_append, List.length_singleton] at hi
    rcases Nat.lt_succ_iff_lt_or_eq.mp hi with hlt | rfl
    · rw [List.getElem?_append_left hlt, h i hlt]
    · rw [List.getElem?_append_right le_rfl, Nat.sub_self, List.getElem?_cons_zero]

theorem Holds.ne_zero {s : List UInt8} (h : Holds memory addr s) (hzero : 0 ∉ s) {i : ℕ}
    (hi : i < s.length) : memory (addr + i) ≠ 0 := by
  intro hbyte
  have hget := h i hi
  rw [hbyte] at hget
  exact hzero (List.mem_of_getElem? hget)

theorem stringAt_eq_some_iff {s : List UInt8} : stringAt memory addr room = some s ↔
    s.length < room ∧ 0 ∉ s ∧ Holds memory addr s ∧ memory (addr + s.length) = 0 := by
  rw [stringAt, Option.map_eq_some_iff]
  constructor
  · rintro ⟨n, hn, rfl⟩
    obtain ⟨hlt, hne, hend⟩ := strlen_eq_some_iff.mp hn
    rw [List.length_map, List.length_range]
    refine ⟨hlt, ?_, ?_, hend⟩
    · intro hmem
      obtain ⟨i, hi, hzero⟩ := List.mem_map.mp hmem
      exact hne i (List.mem_range.mp hi) hzero
    · intro i hi
      rw [List.length_map, List.length_range] at hi
      rw [List.getElem?_map, List.getElem?_range hi]
      rfl
  · rintro ⟨hlt, hzero, hholds, hend⟩
    refine ⟨s.length, strlen_eq_some_iff.mpr ⟨hlt, fun i => hholds.ne_zero hzero, hend⟩, ?_⟩
    · apply List.ext_getElem?
      intro i
      by_cases hi : i < s.length
      · rw [List.getElem?_map, List.getElem?_range hi, hholds i hi]
        rfl
      · rw [List.getElem?_eq_none (by simpa using hi), List.getElem?_eq_none (not_lt.mp hi)]

theorem fill_outside {a : ℕ} (ha : a < dest ∨ dest + n ≤ a) : fill memory dest n a = memory a := by
  induction n generalizing memory dest with
  | zero => rfl
  | succ n ih =>
    rw [fill, ih (by omega), Function.update_of_ne (by omega)]

/-- A copy changes no byte outside its destination. -/
theorem strncpy_outside {a : ℕ} (ha : a < dest ∨ dest + n ≤ a) :
    strncpy memory dest src n a = memory a := by
  induction n generalizing memory dest src with
  | zero => rfl
  | succ n ih =>
    rw [strncpy]
    split_ifs
    · exact fill_outside ha
    · rw [ih (by omega), Function.update_of_ne (by omega)]

/-- The bytes before the first zero arrive, if the destination does not overlap them. The source
may run into the destination behind them. -/
theorem strncpy_copies {k : ℕ} (hk : k ≤ n) (hne : ∀ i < k, memory (src + i) ≠ 0)
    (hdisjoint : src + k ≤ dest ∨ dest + n ≤ src) {i : ℕ} (hi : i < k) :
    strncpy memory dest src n (dest + i) = memory (src + i) := by
  induction n generalizing memory dest src k i with
  | zero => omega
  | succ n ih =>
    have hfirst : memory src ≠ 0 := hne 0 (by omega)
    rw [strncpy, if_neg hfirst]
    cases i with
    | zero => rw [strncpy_outside (by omega), Nat.add_zero, Function.update_self, Nat.add_zero]
    | succ i =>
      have hkept {j : ℕ} (hj : j < k - 1) :
          Function.update memory dest (memory src) (src + 1 + j) = memory (src + (j + 1)) := by
        rw [Function.update_of_ne (by omega)]
        congr 1
        omega
      have hindex : dest + (i + 1) = dest + 1 + i := by omega
      rw [hindex, ih (k := k - 1) (by omega) ?_ (by omega) (by omega), hkept (by omega)]
      intro j hj
      rw [hkept hj]
      exact hne (j + 1) (by omega)

/-- A copy of a whole string. -/
theorem Holds.strncpy {s : List UInt8} (h : Holds memory src s) (hzero : 0 ∉ s)
    (hn : s.length ≤ n) (hdisjoint : src + s.length ≤ dest ∨ dest + n ≤ src) :
    Holds (strncpy memory dest src n) dest s := by
  intro i hi
  rw [h i hi, strncpy_copies hn (fun j => h.ne_zero hzero) hdisjoint hi]

theorem Holds.congr {memory' : Memory} {s : List UInt8} (h : Holds memory addr s)
    (heq : ∀ i < s.length, memory' (addr + i) = memory (addr + i)) : Holds memory' addr s := by
  intro i hi
  rw [h i hi, heq i hi]

end CStrings

import Nachos.Library.PackedBits

/-! The word-packed bitmap of `lib/bitmap.cc`. An operation that fails one of its
assertions stops the whole simulator, so it has no result here (`none`). -/
namespace Nachos

/-- The macro `divRoundUp` of `lib/utility.h`. -/
def divRoundUp (n s : ℕ) : ℕ := n / s + if n % s > 0 then 1 else 0

def BitsInWord : ℕ := 32

/-- A bitmap of `numBits` bits; `numWords` is the length of the vector `map`. -/
structure Bitmap (numBits : ℕ) where
  map : PackedBits.Words BitsInWord (divRoundUp numBits BitsInWord)
  deriving DecidableEq

theorem div_lt_divRoundUp {i n s : ℕ} (h : i < n) : i / s < divRoundUp n s := by
  rcases Nat.eq_zero_or_pos s with rfl | hs
  · simp only [divRoundUp, Nat.div_zero, Nat.mod_zero]
    split <;> omega
  have hi := Nat.div_add_mod i s
  have hn := Nat.div_add_mod n s
  have him := Nat.mod_lt i hs
  unfold divRoundUp
  by_contra hge
  push Not at hge
  split at hge
  · have : s * (n / s + 1) ≤ s * (i / s) := Nat.mul_le_mul_left s hge
    have hnm := Nat.mod_lt n hs
    rw [Nat.mul_add] at this
    omega
  · have : s * (n / s) ≤ s * (i / s) := Nat.mul_le_mul_left s hge
    omega

namespace Bitmap
variable {n : ℕ}

/-- Whether bit `i` is on. This is the set the bitmap stands for. -/
def mem (b : Bitmap n) (i : ℕ) : Bool := PackedBits.bit b.map i

/-- `Bitmap::Test`. -/
def test (b : Bitmap n) (which : ℤ) : Option Bool :=
  if 0 ≤ which ∧ which < n then some (PackedBits.bit b.map which.toNat) else none

/-- `Bitmap::Mark`, with the assertion made after the update. -/
def mark (b : Bitmap n) (which : ℤ) : Option (Bitmap n) :=
  if 0 ≤ which ∧ which < n then do
    let b' : Bitmap n := ⟨PackedBits.setBit b.map which.toNat⟩
    if ← b'.test which then some b' else none
  else none

/-- `Bitmap::Clear`, with the assertion made after the update. -/
def clear (b : Bitmap n) (which : ℤ) : Option (Bitmap n) :=
  if 0 ≤ which ∧ which < n then do
    let b' : Bitmap n := ⟨PackedBits.clearBit b.map which.toNat⟩
    if ← b'.test which then none else some b'
  else none

/-- The constructor's second loop, clearing the bits from `i` on. -/
def clearLoop (b : Bitmap n) (i : ℕ) : ℕ → Option (Bitmap n)
  | 0 => some b
  | r + 1 => do clearLoop (← b.clear i) (i + 1) r

/-- `Bitmap::Bitmap`. -/
def new (numItems : ℕ) : Option (Bitmap numItems) :=
  if numItems > 0 then clearLoop ⟨Vector.replicate _ 0⟩ 0 numItems else none

/-- The scan of `FindAndSet` from bit `i`, with `r` bits left. -/
def findAndSetLoop (b : Bitmap n) (i : ℕ) : ℕ → Option (ℤ × Bitmap n)
  | 0 => some (-1, b)
  | r + 1 => do
    if ← b.test i then findAndSetLoop b (i + 1) r
    else some ((i : ℤ), ← b.mark i)

/-- `Bitmap::FindAndSet`. -/
def findAndSet (b : Bitmap n) : Option (ℤ × Bitmap n) := findAndSetLoop b 0 n

/-- The scan of `NumClear` from bit `i`, with `r` bits left. -/
def numClearLoop (b : Bitmap n) (i count : ℕ) : ℕ → Option ℕ
  | 0 => some count
  | r + 1 => do
    if ← b.test i then numClearLoop b (i + 1) count r
    else numClearLoop b (i + 1) (count + 1) r

/-- `Bitmap::NumClear`. -/
def numClear (b : Bitmap n) : Option ℕ := numClearLoop b 0 0 n

/-- The bitmap with bit `i` set, as `mark` leaves it. -/
def insert (b : Bitmap n) (i : ℕ) : Bitmap n := ⟨PackedBits.setBit b.map i⟩

/-- The bitmap with bit `i` clear, as `clear` leaves it. -/
def erase (b : Bitmap n) (i : ℕ) : Bitmap n := ⟨PackedBits.clearBit b.map i⟩

theorem mem_insert (b : Bitmap n) {i j : ℕ} (hi : i < n) (hj : j < n) :
    (b.insert i).mem j = (decide (i = j) || b.mem j) :=
  PackedBits.bit_setBit (by decide) _ (div_lt_divRoundUp hi) (div_lt_divRoundUp hj)

theorem mem_erase (b : Bitmap n) {i j : ℕ} (hi : i < n) (hj : j < n) :
    (b.erase i).mem j = (b.mem j && !decide (i = j)) :=
  PackedBits.bit_clearBit (by decide) _ (div_lt_divRoundUp hi) (div_lt_divRoundUp hj)

theorem test_of_lt (b : Bitmap n) {i : ℕ} (hi : i < n) : b.test i = some (b.mem i) := by
  simp [test, mem, hi]

theorem mark_of_lt (b : Bitmap n) {i : ℕ} (hi : i < n) : b.mark i = some (b.insert i) := by
  have ht : (b.insert i).test i = some true := by
    rw [test_of_lt _ hi, mem_insert b hi hi]
    simp
  have hr : (0 : ℤ) ≤ i ∧ (i : ℤ) < n := by omega
  simp only [mark, hr, and_self, ↓reduceIte, Int.toNat_natCast]
  change (do if ← (b.insert i).test i then some (b.insert i) else none) = _
  rw [ht]
  rfl

theorem clear_of_lt (b : Bitmap n) {i : ℕ} (hi : i < n) : b.clear i = some (b.erase i) := by
  have ht : (b.erase i).test i = some false := by
    rw [test_of_lt _ hi, mem_erase b hi hi]
    simp
  have hr : (0 : ℤ) ≤ i ∧ (i : ℤ) < n := by omega
  simp only [clear, hr, and_self, ↓reduceIte, Int.toNat_natCast]
  change (do if ← (b.erase i).test i then none else some (b.erase i)) = _
  rw [ht]
  rfl

/-- The positions below `n` whose bit is clear, in increasing order. -/
def clearList (b : Bitmap n) : List ℕ := (List.range n).filter fun i => !b.mem i

theorem mem_clearList {b : Bitmap n} {i : ℕ} : i ∈ b.clearList ↔ i < n ∧ b.mem i = false := by
  simp [clearList]

theorem clearList_sortedLT (b : Bitmap n) : b.clearList.Pairwise (· < ·) :=
  List.pairwise_lt_range.filter _

theorem clearList_nodup (b : Bitmap n) : b.clearList.Nodup :=
  List.nodup_range.filter _

private theorem findAndSetLoop_eq (b : Bitmap n) (r : ℕ) :
    ∀ i, i + r ≤ n → findAndSetLoop b i r =
      some (match ((List.range' i r).filter fun j => !b.mem j).head? with
        | none => (-1, b)
        | some j => ((j : ℤ), b.insert j)) := by
  induction r with
  | zero => intro i _; rfl
  | succ r ih =>
    intro i hi
    have hlt : i < n := by omega
    rw [findAndSetLoop, test_of_lt b hlt, List.range'_succ]
    cases hm : b.mem i with
    | true => simpa [hm] using ih (i + 1) (by omega)
    | false => simp [hm, mark_of_lt b hlt]

/-- `FindAndSet` takes the least clear bit, or reports -1 and changes nothing. -/
theorem findAndSet_eq (b : Bitmap n) : b.findAndSet =
    some (match b.clearList.head? with
      | none => (-1, b)
      | some i => ((i : ℤ), b.insert i)) := by
  rw [findAndSet, findAndSetLoop_eq b n 0 (by omega), clearList, List.range_eq_range']

private theorem numClearLoop_eq (b : Bitmap n) (r : ℕ) :
    ∀ i count, i + r ≤ n → numClearLoop b i count r =
      some (count + ((List.range' i r).filter fun j => !b.mem j).length) := by
  induction r with
  | zero => intro i count _; simp [numClearLoop]
  | succ r ih =>
    intro i count hi
    have hlt : i < n := by omega
    rw [numClearLoop, test_of_lt b hlt, List.range'_succ]
    cases hm : b.mem i with
    | true => simpa [hm] using ih (i + 1) count (by omega)
    | false =>
      simp only [Option.bind_eq_bind, Option.bind_some, Bool.false_eq_true, ↓reduceIte,
        ih (i + 1) (count + 1) (by omega), hm, Bool.not_false, List.filter_cons_of_pos,
        List.length_cons]
      congr 1
      omega

/-- `NumClear` counts the clear bits. -/
theorem numClear_eq (b : Bitmap n) : b.numClear = some b.clearList.length := by
  rw [numClear, numClearLoop_eq b n 0 0 (by omega), clearList, List.range_eq_range']
  simp

/-- Taking the least clear bit removes the head of the list of clear bits. -/
theorem clearList_insert {b : Bitmap n} {i : ℕ} {rest : List ℕ} (h : b.clearList = i :: rest) :
    (b.insert i).clearList = rest := by
  have hi : i < n := (mem_clearList.mp (h ▸ List.mem_cons_self)).1
  have hfilter : (b.insert i).clearList = b.clearList.filter fun j => j ≠ i := by
    unfold clearList
    rw [List.filter_filter]
    apply List.filter_congr
    intro j hj
    rw [mem_insert b hi (List.mem_range.mp hj)]
    by_cases hij : i = j <;> simp [hij, eq_comm]
  have hs := h ▸ clearList_sortedLT b
  rw [hfilter, h, List.filter_cons_of_neg (by simp)]
  apply List.filter_eq_self.mpr
  intro j hj
  have := List.rel_of_pairwise_cons hs hj
  simp only [decide_eq_true_eq]
  omega

theorem mem_foldl_insert {is : List ℕ} (his : ∀ i ∈ is, i < n) {j : ℕ} (hj : j < n)
    (b : Bitmap n) : (is.foldl insert b).mem j = (decide (j ∈ is) || b.mem j) := by
  induction is generalizing b with
  | nil => simp
  | cons i is ih =>
    rw [List.foldl_cons, ih (fun k hk => his k (List.mem_cons_of_mem i hk)),
      mem_insert b (his i List.mem_cons_self) hj]
    by_cases hij : i = j
    · simp [hij]
    · simp [hij, Ne.symm hij]

theorem mem_foldl_erase {is : List ℕ} (his : ∀ i ∈ is, i < n) {j : ℕ} (hj : j < n)
    (b : Bitmap n) : (is.foldl erase b).mem j = (b.mem j && !decide (j ∈ is)) := by
  induction is generalizing b with
  | nil => simp
  | cons i is ih =>
    rw [List.foldl_cons, ih (fun k hk => his k (List.mem_cons_of_mem i hk)),
      mem_erase b (his i List.mem_cons_self) hj]
    by_cases hij : i = j
    · simp [hij]
    · simp [hij, Ne.symm hij]

/-- A newly made bitmap is empty. -/
theorem new_spec (hn : 0 < n) : ∃ b : Bitmap n, new n = some b ∧ ∀ i < n, b.mem i = false := by
  have hloop : ∀ r i (b : Bitmap n), i + r ≤ n → (∀ j < n, b.mem j = false) →
      ∃ b', clearLoop b i r = some b' ∧ ∀ j < n, b'.mem j = false := by
    intro r
    induction r with
    | zero => intro i b _ hb; exact ⟨b, rfl, hb⟩
    | succ r ih =>
      intro i b hi hb
      have hlt : i < n := by omega
      obtain ⟨b', hb', hm⟩ := ih (i + 1) (b.erase i) (by omega) (by
        intro j hj
        rw [mem_erase b hlt hj, hb j hj]
        rfl)
      exact ⟨b', by rw [clearLoop, clear_of_lt b hlt]; exact hb', hm⟩
  obtain ⟨b, hb, hm⟩ := hloop n 0 ⟨Vector.replicate _ 0⟩ (by omega) (by
    intro j _
    exact PackedBits.bit_replicate_zero j)
  exact ⟨b, by rw [new, if_pos hn]; exact hb, hm⟩

end Bitmap
end Nachos

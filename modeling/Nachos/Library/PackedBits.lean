import Mathlib.Data.Nat.Find
import Mathlib.Data.Finset.Card
import Mathlib.Data.Finset.Sort
import Mathlib.Data.Vector.Basic
import Mathlib.Tactic

/-! Sets of natural numbers packed into machine words. Bit `i` lives in word
`i / w` at position `i % w`; updating one bit leaves every other one alone. -/
namespace PackedBits

/-- A row of `m` words of `w` bits each. -/
abbrev Words (w m : ℕ) := Vector (BitVec w) m

variable {w m : ℕ}

/-- The one-bit mask selecting position `i % w` inside a word. -/
def mask (w i : ℕ) : BitVec w := 1#w <<< (i % w)

/-- The bit `i`; bits past the last word read as clear. -/
def bit (words : Words w m) (i : ℕ) : Bool :=
  if h : i / w < m then words[i / w] &&& mask w i ≠ 0 else false

def setBit (words : Words w m) (i : ℕ) : Words w m :=
  if h : i / w < m then words.set (i / w) (words[i / w] ||| mask w i) else words

def clearBit (words : Words w m) (i : ℕ) : Words w m :=
  if h : i / w < m then words.set (i / w) (words[i / w] &&& ~~~ mask w i) else words

theorem getLsbD_mask (hw : 0 < w) (i j : ℕ) :
    (mask w i).getLsbD j = decide (j = i % w) := by
  have hi := Nat.mod_lt i hw
  simp only [mask, BitVec.getLsbD_shiftLeft, BitVec.getLsbD_one]
  by_cases hj : j = i % w
  · subst hj
    simp [hi, hw]
  · have : j < i % w ∨ j - i % w ≠ 0 := by omega
    rcases this with h | h <;> simp [h, hj]

theorem and_mask_ne_zero (hw : 0 < w) (x : BitVec w) (i : ℕ) :
    (x &&& mask w i ≠ 0) ↔ x.getLsbD (i % w) = true := by
  constructor
  · intro h
    by_contra hx
    apply h
    apply BitVec.eq_of_getLsbD_eq
    intro j _
    rw [BitVec.getLsbD_and, getLsbD_mask hw]
    by_cases hj : j = i % w
    · rw [hj, Bool.eq_false_of_not_eq_true hx]
      simp
    · simp [hj]
  · intro hx h
    have := congrArg (fun y => BitVec.getLsbD y (i % w)) h
    simp [BitVec.getLsbD_and, getLsbD_mask hw, hx] at this

theorem bit_eq_getLsbD (hw : 0 < w) (words : Words w m) {i : ℕ} (h : i / w < m) :
    bit words i = words[i / w].getLsbD (i % w) := by
  simp only [bit, h, ↓reduceDIte]
  rw [Bool.eq_iff_iff, decide_eq_true_eq]
  exact and_mask_ne_zero hw _ i

theorem div_mod_inj {i j : ℕ} (hd : i / w = j / w) (hm : i % w = j % w) : i = j := by
  rw [← Nat.div_add_mod i w, ← Nat.div_add_mod j w, hd, hm]

@[simp] theorem bit_setBit (hw : 0 < w) (words : Words w m) {i j : ℕ}
    (hi : i / w < m) (hj : j / w < m) :
    bit (setBit words i) j = (decide (i = j) || bit words j) := by
  rw [bit_eq_getLsbD hw _ hj, bit_eq_getLsbD hw _ hj]
  simp only [setBit, hi, ↓reduceDIte]
  by_cases hd : i / w = j / w
  · have hij : (j % w = i % w) ↔ i = j :=
      ⟨fun hm => div_mod_inj hd hm.symm, fun h => by rw [h]⟩
    simp only [hd, Vector.getElem_set_self, BitVec.getLsbD_or, getLsbD_mask hw, hij]
    exact Bool.or_comm _ _
  · have hne : i ≠ j := fun h => hd (by rw [h])
    simp [Vector.getElem_set_ne _ _ hd, hne]

@[simp] theorem bit_clearBit (hw : 0 < w) (words : Words w m) {i j : ℕ}
    (hi : i / w < m) (hj : j / w < m) :
    bit (clearBit words i) j = (bit words j && !decide (i = j)) := by
  rw [bit_eq_getLsbD hw _ hj, bit_eq_getLsbD hw _ hj]
  simp only [clearBit, hi, ↓reduceDIte]
  by_cases hd : i / w = j / w
  · have hij : (j % w = i % w) ↔ i = j :=
      ⟨fun hm => div_mod_inj hd hm.symm, fun h => by rw [h]⟩
    have hlt := Nat.mod_lt j hw
    simp only [hd, Vector.getElem_set_self, BitVec.getLsbD_and, BitVec.getLsbD_not, hlt,
      decide_true, Bool.true_and, getLsbD_mask hw, hij]
  · have hne : i ≠ j := fun h => hd (by rw [h])
    simp [Vector.getElem_set_ne _ _ hd, hne]

@[simp] theorem bit_replicate_zero (i : ℕ) :
    bit (Vector.replicate m (0#w)) i = false := by
  simp [bit]

end PackedBits

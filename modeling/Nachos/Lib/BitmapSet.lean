import Nachos.Library.Simulation
import Nachos.Lib.Bitmap
import Mathlib.Data.Finset.Sort

/-! The bitmap of `lib/bitmap.cc` as a finite set. -/
namespace Nachos.BitmapSet

inductive Op where
  | mark (which : ℤ)
  | clear (which : ℤ)
  | test (which : ℤ)
  | findAndSet
  | numClear
  deriving DecidableEq

inductive Answer where
  | done
  | found (on : Bool)
  | number (i : ℤ)
  deriving DecidableEq

variable {n : ℕ}

def step (b : Bitmap n) : Op → Option (Answer × Bitmap n)
  | .mark which => (b.mark which).map fun b => (.done, b)
  | .clear which => (b.clear which).map fun b => (.done, b)
  | .test which => (b.test which).map fun on => (.found on, b)
  | .findAndSet => b.findAndSet.map fun r => (.number r.1, r.2)
  | .numClear => b.numClear.map fun count => (.number count, b)

/-- What is not in the set. -/
def absent (n : ℕ) (s : Finset ℕ) : Finset ℕ := Finset.range n \ s

/-- The operations on a subset of the numbers below `n`. An index is to be in range. -/
def setStep (n : ℕ) (s : Finset ℕ) : Op → Option (Answer × Finset ℕ)
  | .mark which => if 0 ≤ which ∧ which < n then some (.done, insert which.toNat s) else none
  | .clear which => if 0 ≤ which ∧ which < n then some (.done, s.erase which.toNat) else none
  | .test which => if 0 ≤ which ∧ which < n then some (.found (which.toNat ∈ s), s) else none
  | .findAndSet => some <|
    if h : (absent n s).Nonempty then
      (.number ((absent n s).min' h), insert ((absent n s).min' h) s)
    else (.number (-1), s)
  | .numClear => some (.number (absent n s).card, s)

/-- The set a bitmap stands for. -/
def IsSet (s : Finset ℕ) (b : Bitmap n) : Prop :=
  s ⊆ Finset.range n ∧ ∀ i < n, b.mem i = decide (i ∈ s)

namespace IsSet

variable {s : Finset ℕ} {b : Bitmap n}

theorem insert (h : IsSet s b) {i : ℕ} (hi : i < n) : IsSet (insert i s) (b.insert i) := by
  refine ⟨Finset.insert_subset (Finset.mem_range.mpr hi) h.1, fun j hj => ?_⟩
  rw [Bitmap.mem_insert b hi hj, h.2 j hj]
  simp [eq_comm]

theorem erase (h : IsSet s b) {i : ℕ} (hi : i < n) : IsSet (s.erase i) (b.erase i) := by
  refine ⟨(Finset.erase_subset i s).trans h.1, fun j hj => ?_⟩
  rw [Bitmap.mem_erase b hi hj, h.2 j hj]
  simp [eq_comm, Bool.and_comm]

theorem mem_clearList (h : IsSet s b) {i : ℕ} : i ∈ b.clearList ↔ i ∈ absent n s := by
  rw [Bitmap.mem_clearList, absent, Finset.mem_sdiff, Finset.mem_range]
  refine and_congr_right fun hi => ?_
  rw [h.2 i hi, decide_eq_false_iff_not]

theorem test (h : IsSet s b) {i : ℕ} (hi : i < n) : b.test i = some (decide (i ∈ s)) := by
  rw [Bitmap.test_of_lt b hi, h.2 i hi]

theorem numClear (h : IsSet s b) : b.numClear = some (absent n s).card := by
  have hset : b.clearList.toFinset = absent n s := by
    ext i
    rw [List.mem_toFinset, h.mem_clearList]
  rw [Bitmap.numClear_eq, ← List.toFinset_card_of_nodup b.clearList_nodup, hset]

theorem findAndSet_of_nonempty (h : IsSet s b) (hfree : (absent n s).Nonempty) :
    b.findAndSet =
      some ((((absent n s).min' hfree : ℕ) : ℤ), b.insert ((absent n s).min' hfree)) := by
  have hmem := h.mem_clearList.mpr ((absent n s).min'_mem hfree)
  obtain ⟨i, rest, hcons⟩ := List.exists_cons_of_ne_nil (List.ne_nil_of_mem hmem)
  have hi := h.mem_clearList.mp (hcons ▸ List.mem_cons_self)
  have hleast : (absent n s).min' hfree = i := by
    refine le_antisymm ((absent n s).min'_le i hi) ?_
    rw [hcons] at hmem
    rcases List.mem_cons.mp hmem with heq | hrest
    · exact heq.ge
    · exact (List.rel_of_pairwise_cons (hcons ▸ b.clearList_sortedLT) hrest).le
  rw [Bitmap.findAndSet_eq, hcons, hleast]
  rfl

theorem findAndSet_of_full (h : IsSet s b) (hfull : ¬ (absent n s).Nonempty) :
    b.findAndSet = some (-1, b) := by
  have hnil : b.clearList = [] := by
    refine List.eq_nil_iff_forall_not_mem.mpr fun i hi => ?_
    exact hfull ⟨i, h.mem_clearList.mp hi⟩
  rw [Bitmap.findAndSet_eq, hnil]
  rfl

end IsSet

theorem simulates : Simulation.Simulates (setStep n) step (IsSet (n := n)) := by
  intro s b op answer s' h hstep
  cases op with
  | mark which =>
    simp only [setStep] at hstep
    split at hstep
    · next hrange =>
      cases hstep
      obtain ⟨i, rfl⟩ := Int.eq_ofNat_of_zero_le hrange.1
      have hi : i < n := by omega
      exact ⟨b.insert i, by simp only [step]; rw [Bitmap.mark_of_lt b hi]; rfl, h.insert hi⟩
    · cases hstep
  | clear which =>
    simp only [setStep] at hstep
    split at hstep
    · next hrange =>
      cases hstep
      obtain ⟨i, rfl⟩ := Int.eq_ofNat_of_zero_le hrange.1
      have hi : i < n := by omega
      exact ⟨b.erase i, by simp only [step]; rw [Bitmap.clear_of_lt b hi]; rfl, h.erase hi⟩
    · cases hstep
  | test which =>
    simp only [setStep] at hstep
    split at hstep
    · next hrange =>
      cases hstep
      obtain ⟨i, rfl⟩ := Int.eq_ofNat_of_zero_le hrange.1
      have hi : i < n := by omega
      exact ⟨b, by simp only [step]; rw [h.test hi]; rfl, h⟩
    · cases hstep
  | findAndSet =>
    simp only [setStep, Option.some.injEq] at hstep
    split at hstep
    · next hfree =>
      cases hstep
      have hleast := Finset.mem_range.mp (Finset.mem_sdiff.mp ((absent n s).min'_mem hfree)).1
      exact ⟨_, by simp only [step]; rw [h.findAndSet_of_nonempty hfree]; rfl, h.insert hleast⟩
    · next hfull =>
      cases hstep
      exact ⟨b, by simp only [step]; rw [h.findAndSet_of_full hfull]; rfl, h⟩
  | numClear =>
    cases hstep
    exact ⟨b, by simp only [step]; rw [h.numClear]; rfl, h⟩

/-- A bitmap of any size is a set of the numbers below its size, whatever is done with it. -/
theorem finite_set (hn : 0 < n) {ops : List Op} {answers : List Answer} {s : Finset ℕ}
    (h : Simulation.run (setStep n) ∅ ops = some (answers, s)) :
    ∃ b₀ b, Bitmap.new n = some b₀ ∧ Simulation.run step b₀ ops = some (answers, b) ∧ IsSet s b ∧
      ∃ i b' count, b.findAndSet = some (i, b') ∧ b.numClear = some count ∧
        (i ≠ -1 ↔ 0 < count) := by
  obtain ⟨b₀, hnew, hclear⟩ := Bitmap.new_spec hn
  have h₀ : IsSet ∅ b₀ := ⟨Finset.empty_subset _, fun i hi => by simp [hclear i hi]⟩
  obtain ⟨b, hrun, hb⟩ := simulates.run h₀ h
  refine ⟨b₀, b, hnew, hrun, hb, ?_⟩
  by_cases hfree : (absent n s).Nonempty
  · refine ⟨_, _, _, hb.findAndSet_of_nonempty hfree, hb.numClear, ?_⟩
    have hcard := hfree.card_pos
    omega
  · refine ⟨_, _, _, hb.findAndSet_of_full hfree, hb.numClear, ?_⟩
    rw [Finset.not_nonempty_iff_eq_empty.mp hfree, Finset.card_empty]
    omega

/-- The last of 33 elements is alone in its word. -/
def lastWord : List Op := [.mark 32, .test 32, .findAndSet, .numClear, .clear 32, .test 32]

theorem finite_set_lastWord : ∃ b₀ b, Bitmap.new 33 = some b₀ ∧
    Simulation.run step b₀ lastWord = some ([.done, .found true, .number 0, .number 31, .done,
      .found false], b) ∧ IsSet {0} b := by
  have hrun : Simulation.run (setStep 33) ∅ lastWord = some ([.done, .found true, .number 0,
      .number 31, .done, .found false], {0}) := by
    decide +kernel
  obtain ⟨b₀, b, hnew, hb, hset, -⟩ := finite_set (by decide) hrun
  exact ⟨b₀, b, hnew, hb, hset⟩

end Nachos.BitmapSet

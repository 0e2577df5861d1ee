import Mathlib.Tactic
import Mathlib.Data.List.Sort

/-! Stable sorting by a total preorder: the order of a sorted list, and the order of the items
that tie in it. The two determine the list. -/
namespace StableSort

variable {α : Type*} {le before : α → α → Prop} {xs ys zs : List α} {x : α}

structure TotalPreorder (le : α → α → Prop) : Prop where
  total : ∀ x y, le x y ∨ le y x
  trans : ∀ x y z, le x y → le y z → le x z

theorem TotalPreorder.refl (h : TotalPreorder le) (x : α) : le x x := (h.total x x).elim id id

theorem pairwise_orderedInsert [DecidableRel before] (h : TotalPreorder le)
    (hbefore : ∀ x y, before x y ↔ ¬le y x) (hys : ys.Pairwise le) :
    (ys.orderedInsert before x).Pairwise le := by
  induction ys with
  | nil => exact List.pairwise_singleton le x
  | cons y ys ih =>
    obtain ⟨hy, hys'⟩ := List.pairwise_cons.mp hys
    rw [List.orderedInsert_cons]
    split
    · next hxy =>
      have hle : le x y := (h.total x y).resolve_right ((hbefore x y).mp hxy)
      refine List.pairwise_cons.mpr ⟨fun z hz => ?_, hys⟩
      rcases List.mem_cons.mp hz with rfl | hz
      · exact hle
      · exact h.trans x y z hle (hy z hz)
    · next hxy =>
      refine List.pairwise_cons.mpr ⟨fun z hz => ?_, ih hys'⟩
      rcases (List.mem_orderedInsert before).mp hz with rfl | hz
      · exact not_not.mp fun hnot => hxy ((hbefore z y).mpr hnot)
      · exact hy z hz

section

variable [DecidableRel le]

/-- Whether two items rank equally. -/
def ties (le : α → α → Prop) [DecidableRel le] (x y : α) : Bool := le x y ∧ le y x

theorem ties_iff {y : α} : ties le x y = true ↔ le x y ∧ le y x := decide_eq_true_iff

/-- `ys` has the items of `xs` in order, and those that tie as they are in `xs`. -/
structure IsStableSort (le : α → α → Prop) [DecidableRel le] (xs ys : List α) : Prop where
  sorted : ys.Pairwise le
  stable : ∀ x, ys.filter (ties le x) = xs.filter (ties le x)

namespace TotalPreorder

theorem ties_self (h : TotalPreorder le) (x : α) : ties le x x = true :=
  ties_iff.mpr ⟨h.refl x, h.refl x⟩

theorem insertionSort_stable (h : TotalPreorder le) (xs : List α) :
    IsStableSort le xs (xs.insertionSort le) := by
  have : Std.Total le := ⟨h.total⟩
  have : IsTrans α le := ⟨h.trans⟩
  refine ⟨List.pairwise_insertionSort le xs, fun x => ?_⟩
  have htied : (xs.filter (ties le x)).Pairwise le := by
    refine List.pairwise_of_forall_mem_list fun y hy z hz => ?_
    have hy := ties_iff.mp (List.mem_filter.mp hy).2
    have hz := ties_iff.mp (List.mem_filter.mp hz).2
    exact h.trans _ _ _ hy.2 hz.1
  have hsub := (List.sublist_insertionSort htied List.filter_sublist).filter (ties le x)
  simp only [List.filter_filter, Bool.and_self] at hsub
  refine (hsub.eq_of_length ?_).symm
  exact ((List.perm_insertionSort le xs).filter _).length_eq.symm

end TotalPreorder

/-- Among the items that it ties with, the new one is the last. -/
theorem filter_orderedInsert [DecidableRel before] (h : TotalPreorder le)
    (hbefore : ∀ x y, before x y ↔ ¬le y x) (hys : ys.Pairwise le) (k : α) :
    (ys.orderedInsert before x).filter (ties le k) = (ys ++ [x]).filter (ties le k) := by
  induction ys with
  | nil => rfl
  | cons y ys ih =>
    rw [List.orderedInsert_cons]
    split
    · next hxy =>
      rw [List.filter_append]
      by_cases hk : ties le k x = true
      · have hnone : (y :: ys).filter (ties le k) = [] := by
          refine List.filter_eq_nil_iff.mpr fun z hz hkz => (hbefore x y).mp hxy ?_
          have hle : le z x := h.trans _ _ _ (ties_iff.mp hkz).2 (ties_iff.mp hk).1
          rcases List.mem_cons.mp hz with rfl | hz
          · exact hle
          · exact h.trans _ _ _ ((List.pairwise_cons.mp hys).1 z hz) hle
        rw [List.filter_cons_of_pos hk, hnone, List.filter_cons_of_pos hk, List.filter_nil,
          List.nil_append]
      · rw [List.filter_cons_of_neg hk, List.filter_cons_of_neg hk, List.filter_nil,
          List.append_nil]
    · rw [List.cons_append, List.filter_cons, List.filter_cons, ih (List.pairwise_cons.mp hys).2]

namespace IsStableSort

/-- There is only one stable sort. -/
theorem eq (h : TotalPreorder le) (hys : IsStableSort le xs ys) (hzs : IsStableSort le xs zs) :
    ys = zs := by
  have hties (x : α) : ys.filter (ties le x) = zs.filter (ties le x) :=
    (hys.stable x).trans (hzs.stable x).symm
  have hysorted := hys.sorted
  have hzsorted := hzs.sorted
  clear hys hzs
  induction ys generalizing zs with
  | nil =>
    cases zs with
    | nil => rfl
    | cons z zs => simpa [h.ties_self] using hties z
  | cons y ys ih =>
    cases zs with
    | nil => simpa [h.ties_self] using hties y
    | cons z zs =>
      -- The two heads tie, and so they are the first of their class.
      have hmem (x : α) : x ∈ y :: ys ↔ x ∈ z :: zs := by
        have heq := congrArg (x ∈ ·) (hties x)
        simpa only [List.mem_filter, h.ties_self, and_true, eq_iff_iff] using heq
      have hy := List.pairwise_cons.mp hysorted
      have hz := List.pairwise_cons.mp hzsorted
      have hyz : le y z := by
        rcases List.mem_cons.mp ((hmem z).mpr List.mem_cons_self) with heq | hin
        · exact heq ▸ h.refl z
        · exact hy.1 z hin
      have hzy : le z y := by
        rcases List.mem_cons.mp ((hmem y).mp List.mem_cons_self) with heq | hin
        · exact heq ▸ h.refl y
        · exact hz.1 y hin
      obtain rfl : y = z := by
        have heq := hties y
        rw [List.filter_cons_of_pos (h.ties_self y),
          List.filter_cons_of_pos (ties_iff.mpr ⟨hyz, hzy⟩)] at heq
        exact (List.cons.inj heq).1
      refine congrArg (y :: ·) (ih (fun x => ?_) hy.2 hz.2)
      have heq := hties x
      by_cases hx : ties le x y = true
      · rw [List.filter_cons_of_pos hx, List.filter_cons_of_pos hx] at heq
        exact (List.cons.inj heq).2
      · rwa [List.filter_cons_of_neg hx, List.filter_cons_of_neg hx] at heq

theorem eq_insertionSort (h : TotalPreorder le) (hys : IsStableSort le xs ys) :
    ys = xs.insertionSort le :=
  hys.eq h (h.insertionSort_stable xs)

theorem perm (h : TotalPreorder le) (hys : IsStableSort le xs ys) : ys.Perm xs :=
  hys.eq_insertionSort h ▸ List.perm_insertionSort le xs

/-- An item that arrives goes in front of the first one that ranks above it. -/
theorem orderedInsert [DecidableRel before] (h : TotalPreorder le)
    (hbefore : ∀ x y, before x y ↔ ¬le y x) (hys : IsStableSort le xs ys) :
    IsStableSort le (xs ++ [x]) (ys.orderedInsert before x) := by
  refine ⟨pairwise_orderedInsert h hbefore hys.sorted, fun y => ?_⟩
  rw [filter_orderedInsert h hbefore hys.sorted, List.filter_append, List.filter_append,
    hys.stable]

theorem erase [DecidableEq α] (hxs : xs.Nodup) (h : TotalPreorder le)
    (hys : IsStableSort le xs ys) (x : α) : IsStableSort le (xs.erase x) (ys.erase x) := by
  have hnodup := (hys.perm h).nodup_iff.mpr hxs
  refine ⟨hys.sorted.sublist (List.erase_sublist), fun y => ?_⟩
  rw [hxs.erase_eq_filter, hnodup.erase_eq_filter, List.filter_comm, hys.stable, List.filter_comm]

end IsStableSort

end

end StableSort

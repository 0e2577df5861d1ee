import Mathlib.Data.List.Nodup
import Mathlib.Tactic

/-! Resources that have one owner each, and the marks that tell which of them are taken. -/
namespace Ownership

variable {ι α : Type*}

/-- No resource is owned twice, and the ones that are owned are those that are marked. -/
structure Owned (parts : ι → List α) (marked : α → Prop) : Prop where
  nodup : ∀ i, (parts i).Nodup
  disjoint : ∀ i j, i ≠ j → ∀ a ∈ parts i, a ∉ parts j
  marked : ∀ a, marked a ↔ ∃ i, a ∈ parts i

variable {parts parts' : ι → List α} {marked marked' : α → Prop}

theorem owned_empty (h : ∀ a, ¬ marked a) : Owned (fun _ : ι => []) marked where
  nodup _ := List.nodup_nil
  disjoint _ _ _ _ ha := by cases ha
  marked a := ⟨fun ha => absurd ha (h a), fun ⟨_, ha⟩ => by cases ha⟩

namespace Owned

theorem congr (h : Owned parts marked) (hparts : ∀ i, parts' i = parts i)
    (hmarked : ∀ a, marked' a ↔ marked a) : Owned parts' marked' := by
  obtain rfl : parts' = parts := funext hparts
  exact ⟨h.nodup, h.disjoint, fun a => (hmarked a).trans (h.marked a)⟩

theorem marked_of_mem (h : Owned parts marked) {i : ι} {a : α} (ha : a ∈ parts i) : marked a :=
  (h.marked a).mpr ⟨i, ha⟩

theorem not_mem_of_not_marked (h : Owned parts marked) {a : α} (ha : ¬ marked a) (i : ι) :
    a ∉ parts i := fun hmem => ha (h.marked_of_mem hmem)

/-- The resources of some of the owners, one after the other. -/
theorem nodup_flatMap (h : Owned parts marked) {is : List ι} (his : is.Nodup) :
    (is.flatMap parts).Nodup := by
  rw [List.nodup_flatMap]
  refine ⟨fun i _ => h.nodup i, his.imp ?_⟩
  intro i j hij a hi hj
  exact h.disjoint i j hij a hi hj

/-- As many resources are marked as the owners have. -/
theorem length_filter (h : Owned parts marked) {is : List ι} (his : is.Nodup) (hall : ∀ i, i ∈ is)
    {as : List α} (has : as.Nodup) {p : α → Bool} (hp : ∀ a, a ∈ as ∧ p a = true ↔ marked a) :
    (as.filter p).length = (is.map fun i => (parts i).length).sum := by
  have hperm : (as.filter p).Perm (is.flatMap parts) := by
    refine (List.perm_ext_iff_of_nodup (has.filter p) (h.nodup_flatMap his)).mpr fun a => ?_
    rw [List.mem_filter, hp, h.marked, List.mem_flatMap]
    exact exists_congr fun i => (and_iff_right (hall i)).symm
  rw [hperm.length_eq, List.length_flatMap]

variable [DecidableEq ι]

/-- An owner takes resources that nobody has. -/
theorem grow (h : Owned parts marked) (i : ι) {more : List α} (hmore : more.Nodup)
    (hfree : ∀ a ∈ more, ¬ marked a) :
    Owned (Function.update parts i (parts i ++ more)) fun a => marked a ∨ a ∈ more := by
  have hmem (j : ι) (a : α) : a ∈ Function.update parts i (parts i ++ more) j ↔
      a ∈ parts j ∨ j = i ∧ a ∈ more := by
    by_cases hj : j = i
    · subst hj
      simp
    · simp [hj]
  constructor
  · intro j
    by_cases hj : j = i
    · subst hj
      rw [Function.update_self, List.nodup_append]
      refine ⟨h.nodup j, hmore, ?_⟩
      rintro a ha b hb rfl
      exact hfree a hb (h.marked_of_mem ha)
    · rw [Function.update_of_ne hj]
      exact h.nodup j
  · intro j k hjk a hj hk
    rw [hmem] at hj hk
    rcases hj with hj | ⟨rfl, hj⟩ <;> rcases hk with hk | ⟨rfl, hk⟩
    · exact h.disjoint j k hjk a hj hk
    · exact hfree a hk (h.marked_of_mem hj)
    · exact hfree a hj (h.marked_of_mem hk)
    · exact hjk rfl
  · intro a
    simp only [hmem, h.marked]
    constructor
    · rintro (⟨j, hj⟩ | ha)
      · exact ⟨j, .inl hj⟩
      · exact ⟨i, .inr ⟨rfl, ha⟩⟩
    · rintro ⟨j, hj | ⟨-, ha⟩⟩
      · exact .inl ⟨j, hj⟩
      · exact .inr ha

/-- An owner gives up all it has. -/
theorem drop (h : Owned parts marked) (i : ι) :
    Owned (Function.update parts i []) fun a => marked a ∧ a ∉ parts i := by
  have hmem (j : ι) (a : α) : a ∈ Function.update parts i [] j ↔ a ∈ parts j ∧ j ≠ i := by
    by_cases hj : j = i
    · subst hj
      simp
    · simp [hj]
  constructor
  · intro j
    by_cases hj : j = i
    · subst hj
      rw [Function.update_self]
      exact List.nodup_nil
    · rw [Function.update_of_ne hj]
      exact h.nodup j
  · intro j k hjk a hj hk
    rw [hmem] at hj hk
    exact h.disjoint j k hjk a hj.1 hk.1
  · intro a
    simp only [hmem, h.marked]
    constructor
    · rintro ⟨⟨j, hj⟩, ha⟩
      exact ⟨j, hj, fun heq => ha (heq ▸ hj)⟩
    · rintro ⟨j, hj, hne⟩
      exact ⟨⟨j, hj⟩, h.disjoint j i hne a hj⟩

end Owned

end Ownership

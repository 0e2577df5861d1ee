import Mathlib.Tactic
import Mathlib.Data.List.FinRange

/-! A table with a fixed number of slots, each free or with something in it. -/
namespace Slots

variable {β : Type*} {n : ℕ} {f g : Fin n → Option β} {i : Fin n} {x : β}

/-- What is in the slots. -/
def contents (f : Fin n → Option β) : List β := (List.finRange n).filterMap f

theorem mem_contents : x ∈ contents f ↔ ∃ i, f i = some x := by
  simp [contents]

/-- A slot that gets something has it besides what the others have. -/
theorem contents_fill (hi : f i = none) (hg : g i = some x) (hother : ∀ j ≠ i, g j = f j) :
    (contents g).Perm (x :: contents f) := by
  have hperm := List.perm_cons_erase (List.mem_finRange i)
  have hrest : ((List.finRange n).erase i).filterMap g = ((List.finRange n).erase i).filterMap f :=
    List.filterMap_congr fun j hj =>
      hother j ((List.nodup_finRange n).mem_erase_iff.mp hj).1
  have hfilled := hperm.filterMap g
  have hfree := hperm.filterMap f
  rw [List.filterMap_cons_some hg, hrest] at hfilled
  rw [List.filterMap_cons_none hi] at hfree
  exact hfilled.trans (hfree.symm.cons x)

/-- Where the things have distinct names, two slots do not have the same one. -/
theorem eq_of_nodup {γ : Type*} (name : β → γ) {j : Fin n} {y : β}
    (h : ((contents f).map name).Nodup) (hi : f i = some x) (hj : f j = some y)
    (hname : name x = name y) : i = j := by
  by_contra hne
  have hperm : (contents f).Perm (x :: contents (Function.update f i none)) :=
    contents_fill (Function.update_self i none f) hi fun k hk =>
      (Function.update_of_ne hk none f).symm
  have hnodup := (List.nodup_cons.mp ((hperm.map name).nodup_iff.mp h)).1
  rw [hname] at hnodup
  refine hnodup (List.mem_map_of_mem (mem_contents.mpr ⟨j, ?_⟩))
  rwa [Function.update_of_ne (Ne.symm hne)]

/-- There are as many things as slots when no slot is free. -/
theorem length_contents_eq_iff : (contents f).length = n ↔ ∀ i, (f i).isSome := by
  have hcount := List.countP_eq_length (p := fun i => (f i).isSome) (l := List.finRange n)
  rw [List.length_finRange, ← List.length_filterMap_eq_countP] at hcount
  exact hcount.trans (forall_congr' fun i => forall_prop_of_true (List.mem_finRange i))

/-- A sum over the things is one over the slots. -/
theorem sum_contents (g : β → ℕ) : ((contents f).map g).sum = ∑ i, (f i).elim 0 g := by
  rw [Fin.sum_univ_def, contents]
  induction List.finRange n with
  | nil => rfl
  | cons i is ih =>
    rw [List.map_cons, List.sum_cons, ← ih]
    cases hi : f i with
    | none => rw [List.filterMap_cons_none hi, Option.elim_none, Nat.zero_add]
    | some x => rw [List.filterMap_cons_some hi, List.map_cons, List.sum_cons, Option.elim_some]

end Slots

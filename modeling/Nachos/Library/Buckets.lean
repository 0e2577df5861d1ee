import Mathlib.Tactic
import Mathlib.Data.List.Perm.Basic

/-! A list of buckets, where a slot says for each item which bucket it belongs in. -/
namespace Buckets

variable {α κ : Type*} {bs : List (List α)} {b b' : List α} {slot : α → ℕ} {i : ℕ} {x : α}

/-- Every item sits in its bucket. -/
def Placed (slot : α → ℕ) (bs : List (List α)) : Prop :=
  ∀ i b, bs[i]? = some b → ∀ x ∈ b, slot x = i

theorem placed_replicate (n : ℕ) : Placed slot (List.replicate n []) := by
  intro i b hb x hx
  obtain ⟨_, rfl⟩ := List.getElem?_eq_some_iff.mp hb
  simp at hx

theorem Placed.set (h : Placed slot bs) (hb' : ∀ x ∈ b', slot x = i) :
    Placed slot (bs.set i b') := by
  intro j b hb x hx
  by_cases hij : i = j
  · subst hij
    obtain ⟨hi, rfl⟩ := List.getElem?_eq_some_iff.mp hb
    rw [List.getElem_set_self] at hx
    exact hb' x hx
  · rw [List.getElem?_set_ne hij] at hb
    exact h j b hb x hx

theorem Placed.mem_iff (h : Placed slot bs) (hb : bs[i]? = some b) :
    x ∈ b ↔ x ∈ bs.flatten ∧ slot x = i := by
  constructor
  · exact fun hx => ⟨List.mem_flatten.mpr ⟨b, List.mem_of_getElem? hb, hx⟩, h i b hb x hx⟩
  · rintro ⟨hx, hslot⟩
    obtain ⟨c, hc, hx⟩ := List.mem_flatten.mp hx
    obtain ⟨j, hj⟩ := List.getElem?_of_mem hc
    obtain rfl : j = i := (h j c hj x hx).symm.trans hslot
    rw [hb] at hj
    exact Option.some.inj hj ▸ hx

section

variable {β : Type*} {R : List α → β → Prop} {cs : List β} {c : β}

theorem exists_of_getElem? (h : List.Forall₂ R bs cs) (hb : bs[i]? = some b) :
    ∃ c, cs[i]? = some c ∧ R b c := by
  induction h generalizing i with
  | nil => cases hb
  | cons hR _ ih =>
    cases i with
    | zero => exact ⟨_, rfl, Option.some.inj hb ▸ hR⟩
    | succ i => exact ih hb

theorem forall₂_set (h : List.Forall₂ R bs cs) (hR : R b c) :
    List.Forall₂ R (bs.set i b) (cs.set i c) := by
  induction h generalizing i with
  | nil => exact List.Forall₂.nil
  | cons hd tl ih =>
    cases i with
    | zero => exact List.Forall₂.cons hR tl
    | succ i => exact List.Forall₂.cons hd ih

end

/-- One more item in a bucket is one more item in all. -/
theorem perm_set (hb : bs[i]? = some b) (hperm : b'.Perm (x :: b)) :
    (bs.set i b').flatten.Perm (x :: bs.flatten) := by
  obtain ⟨hi, rfl⟩ := List.getElem?_eq_some_iff.mp hb
  rw [List.set_eq_take_append_cons_drop, if_pos hi]
  conv_rhs => rw [← List.take_append_drop i bs, List.drop_eq_getElem_cons hi]
  rw [List.flatten_append, List.flatten_append, List.flatten_cons, List.flatten_cons]
  have hmid := (hperm.append_right (bs.drop (i + 1)).flatten).append_left (bs.take i).flatten
  exact hmid.trans List.perm_middle

/-- One less item in a bucket is one less in all. -/
theorem perm_of_set (hb : bs[i]? = some b) (hperm : b.Perm (x :: b')) :
    bs.flatten.Perm (x :: (bs.set i b').flatten) := by
  obtain ⟨hi, rfl⟩ := List.getElem?_eq_some_iff.mp hb
  have hback : ((bs.set i b').set i bs[i]).flatten.Perm (x :: (bs.set i b').flatten) :=
    perm_set (List.getElem?_set_self hi) hperm
  rwa [List.set_set, List.set_getElem_self] at hback

/-- With distinct keys, a search by key finds the item that has it. -/
theorem find?_eq_some_iff [DecidableEq κ] {getKey : α → κ} {key : κ}
    (h : (b.map getKey).Nodup) :
    (b.find? fun x => key = getKey x) = some x ↔ x ∈ b ∧ getKey x = key := by
  constructor
  · intro hx
    have hkey := List.find?_some hx
    exact ⟨List.mem_of_find?_eq_some hx, (of_decide_eq_true hkey).symm⟩
  · rintro ⟨hx, rfl⟩
    cases hfound : b.find? fun y => getKey x = getKey y with
    | none => simpa using List.find?_eq_none.mp hfound x hx
    | some y =>
      have hkey : getKey x = getKey y := by
        simpa using List.find?_some hfound
      exact congrArg some (List.inj_on_of_nodup_map h (List.mem_of_find?_eq_some hfound) hx
        hkey.symm)

/-- A search in all buckets comes down to a search in one. -/
theorem Placed.find?_eq [DecidableEq κ] {getKey : α → κ} {key : κ} {index : κ → ℕ}
    (h : Placed (fun x => index (getKey x)) bs) (hkeys : (bs.flatten.map getKey).Nodup)
    (hb : bs[index key]? = some b) :
    (b.find? fun x => key = getKey x) = bs.flatten.find? fun x => key = getKey x := by
  have hsub : (b.map getKey).Sublist (bs.flatten.map getKey) :=
    (List.sublist_flatten_of_mem (List.mem_of_getElem? hb)).map getKey
  refine Option.ext fun x => ?_
  rw [find?_eq_some_iff (hkeys.sublist hsub), find?_eq_some_iff hkeys, h.mem_iff hb, and_assoc]
  exact and_congr_right fun _ => and_iff_right_of_imp fun hkey => congrArg index hkey

end Buckets

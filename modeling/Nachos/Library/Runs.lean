import Mathlib.Tactic

/-! Runs of labelled step functions. A system is a partial step function; a run
may be restricted to steps that meet a condition on the state before the step. -/
namespace Runs

variable {σ ℓ : Type*} {step : σ → ℓ → Option σ} {allow : σ → ℓ → Prop} {s t u : σ}

/-- States reached from `s` by steps that all satisfy `allow`. -/
inductive Reach (step : σ → ℓ → Option σ) (allow : σ → ℓ → Prop) (s : σ) : σ → Prop
  | refl : Reach step allow s s
  | tail {t u : σ} {l : ℓ} : Reach step allow s t → allow t l → step t l = some u →
      Reach step allow s u

/-- The state after taking the given labels in order. -/
def exec (step : σ → ℓ → Option σ) (s : σ) : List ℓ → Option σ
  | [] => some s
  | l :: ls => (step s l).bind fun t => exec step t ls

/-- The same, as long as each label is allowed where it is taken. -/
def execIf (step : σ → ℓ → Option σ) (allow : σ → ℓ → Prop) [∀ s l, Decidable (allow s l)] (s : σ) :
    List ℓ → Option σ
  | [] => some s
  | l :: ls => if allow s l then (step s l).bind fun t => execIf step allow t ls else none

/-- Each label has the property where it is taken. -/
def Always (step : σ → ℓ → Option σ) (P : σ → ℓ → Prop) (s : σ) : List ℓ → Prop
  | [] => True
  | l :: ls => P s l ∧ ∀ t, step s l = some t → Always step P t ls

instance decidableAlways {P : σ → ℓ → Prop} [∀ s l, Decidable (P s l)] :
    (s : σ) → (ls : List ℓ) → Decidable (Always step P s ls)
  | _, [] => .isTrue trivial
  | s, l :: ls =>
    match hs : step s l with
    | none =>
      decidable_of_iff (P s l) ⟨fun h => ⟨h, fun t ht => by cases hs.symm.trans ht⟩, And.left⟩
    | some t =>
      have := decidableAlways (P := P) t ls
      decidable_of_iff (P s l ∧ Always step P t ls)
        ⟨fun h => ⟨h.1, fun t' ht => by cases hs.symm.trans ht; exact h.2⟩,
          fun h => ⟨h.1, h.2 t hs⟩⟩

theorem Always.mono {P Q : σ → ℓ → Prop} {ls : List ℓ} (h : Always step P s ls)
    (himp : ∀ s l, P s l → Q s l) : Always step Q s ls := by
  induction ls generalizing s with
  | nil => trivial
  | cons l ls ih => exact ⟨himp s l h.1, fun t ht => ih (h.2 t ht)⟩

/-- In a run that goes through every label is taken. -/
theorem Always.forall_mem {P : σ → ℓ → Prop} {Q : ℓ → Prop} {ls : List ℓ} (h : Always step P s ls)
    (hrun : exec step s ls = some t) (himp : ∀ s l, P s l → Q l) : ∀ l ∈ ls, Q l := by
  induction ls generalizing s with
  | nil => exact fun _ hl => (List.not_mem_nil hl).elim
  | cons l ls ih =>
    obtain ⟨s', hs, hrest⟩ := Option.bind_eq_some_iff.mp hrun
    rintro k (_ | ⟨_, hk⟩)
    · exact himp s l h.1
    · exact ih (h.2 s' hs) hrest k hk

/-- What holds at the start and is kept by every allowed step holds along the run. -/
theorem Reach.invariant {P : σ → Prop} (h : Reach step allow s t) (h0 : P s)
    (hstep : ∀ t l u, P t → allow t l → step t l = some u → P u) : P t := by
  induction h with
  | refl => exact h0
  | tail _ ha hs ih => exact hstep _ _ _ ih ha hs

theorem Reach.mono {allow' : σ → ℓ → Prop} (h : Reach step allow s t)
    (hallow : ∀ u l, allow u l → allow' u l) : Reach step allow' s t := by
  induction h with
  | refl => exact .refl
  | tail _ ha hs ih => exact .tail ih (hallow _ _ ha) hs

theorem Reach.head {l : ℓ} (ha : allow s l) (hs : step s l = some t)
    (h : Reach step allow t u) : Reach step allow s u := by
  induction h with
  | refl => exact .tail .refl ha hs
  | tail _ ha' hs' ih => exact .tail ih ha' hs'

/-- Executing a list of labels that are allowed everywhere reaches its final state. -/
theorem reach_of_exec_allowed {ls : List ℓ} (h : exec step s ls = some t)
    (hallow : ∀ u, ∀ l ∈ ls, allow u l) : Reach step allow s t := by
  induction ls generalizing s with
  | nil => cases h; exact .refl
  | cons l ls ih =>
    obtain ⟨s', hs, hrest⟩ := Option.bind_eq_some_iff.mp h
    have hreach := ih hrest fun u k hk => hallow u k (List.mem_cons_of_mem l hk)
    exact .head (hallow s l List.mem_cons_self) hs hreach

theorem Always.reach {ls : List ℓ} (ha : Always step allow s ls) (h : exec step s ls = some t) :
    Reach step allow s t := by
  induction ls generalizing s with
  | nil => cases h; exact .refl
  | cons l ls ih =>
    obtain ⟨s', hs, hrest⟩ := Option.bind_eq_some_iff.mp h
    exact .head ha.1 hs (ih (ha.2 s' hs) hrest)

theorem reach_of_exec {ls : List ℓ} (h : exec step s ls = some t) :
    Reach step (fun _ _ => True) s t :=
  reach_of_exec_allowed h fun _ _ _ => trivial

theorem reach_of_execIf [∀ s l, Decidable (allow s l)] {ls : List ℓ}
    (h : execIf step allow s ls = some t) : Reach step allow s t := by
  induction ls generalizing s with
  | nil => cases h; exact .refl
  | cons l ls ih =>
    unfold execIf at h
    split at h
    · next ha =>
      obtain ⟨s', hs, hrest⟩ := Option.bind_eq_some_iff.mp h
      exact .head ha hs (ih hrest)
    · cases h

end Runs

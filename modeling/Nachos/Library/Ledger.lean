import Mathlib.Tactic

/-! Accounts of what is in use. A ledger names an owner for everything that is in use, and
never two; what is lost has an owner of its own, so that losses show and stay. -/

/-- Everything in use, and nothing else, has an owner, and no two owners share anything. -/
structure Ledger {ρ ω : Type*} (inUse : ρ → Prop) (owns : ω → ρ → Prop) : Prop where
  inUse_iff : ∀ x, inUse x ↔ ∃ o, owns o x
  unique : ∀ {o o' x}, owns o x → owns o' x → o = o'

namespace Ledger

variable {ρ ω : Type*} {inUse inUse' : ρ → Prop} {owns owns' : ω → ρ → Prop}

theorem inUse_of_owns (h : Ledger inUse owns) {o : ω} {x : ρ} (ho : owns o x) : inUse x :=
  (h.inUse_iff x).mpr ⟨o, ho⟩

theorem congr (h : Ledger inUse owns) (huse : ∀ x, inUse' x ↔ inUse x)
    (howns : ∀ o x, owns' o x ↔ owns o x) : Ledger inUse' owns' := by
  obtain rfl : inUse' = inUse := funext fun x => propext (huse x)
  obtain rfl : owns' = owns := funext fun o => funext fun x => propext (howns o x)
  exact h

/-- Some things come into use, and `o` owns them all. -/
theorem extend (h : Ledger inUse owns) (o : ω) {X : ρ → Prop} (hX : ∀ x, X x → ¬ inUse x)
    (huse : ∀ y, inUse' y ↔ X y ∨ inUse y)
    (howns : ∀ o' y, owns' o' y ↔ o' = o ∧ X y ∨ owns o' y) : Ledger inUse' owns' := by
  have hfree : ∀ {o' y}, X y → ¬ owns o' y := fun hy ho' => hX _ hy (h.inUse_of_owns ho')
  constructor
  · intro y
    rw [huse, h.inUse_iff]
    constructor
    · rintro (hy | ⟨o', ho'⟩)
      · exact ⟨o, (howns o y).mpr (.inl ⟨rfl, hy⟩)⟩
      · exact ⟨o', (howns o' y).mpr (.inr ho')⟩
    · rintro ⟨o', ho'⟩
      rcases (howns o' y).mp ho' with ⟨-, hy⟩ | ho'
      · exact .inl hy
      · exact .inr ⟨o', ho'⟩
  · intro o₁ o₂ y h₁ h₂
    rcases (howns o₁ y).mp h₁ with ⟨rfl, hy⟩ | h₁ <;>
      rcases (howns o₂ y).mp h₂ with ⟨rfl, hy'⟩ | h₂
    · rfl
    · exact absurd h₂ (hfree hy)
    · exact absurd h₁ (hfree hy')
    · exact h.unique h₁ h₂

/-- Something comes into use, and `o` owns it. -/
theorem add (h : Ledger inUse owns) (o : ω) {x : ρ} (hx : ¬ inUse x)
    (huse : ∀ y, inUse' y ↔ y = x ∨ inUse y)
    (howns : ∀ o' y, owns' o' y ↔ o' = o ∧ y = x ∨ owns o' y) : Ledger inUse' owns' :=
  h.extend (X := (· = x)) o (fun _ hy => hy ▸ hx) huse howns

/-- What `o` owns goes out of use. -/
theorem remove (h : Ledger inUse owns) {o : ω} {x : ρ} (ho : owns o x)
    (huse : ∀ y, inUse' y ↔ y ≠ x ∧ inUse y)
    (howns : ∀ o' y, owns' o' y ↔ ¬ (o' = o ∧ y = x) ∧ owns o' y) : Ledger inUse' owns' := by
  constructor
  · intro y
    rw [huse, h.inUse_iff]
    constructor
    · rintro ⟨hne, o', ho'⟩
      exact ⟨o', (howns o' y).mpr ⟨fun heq => hne heq.2, ho'⟩⟩
    · rintro ⟨o', ho'⟩
      obtain ⟨hne, ho'⟩ := (howns o' y).mp ho'
      refine ⟨?_, o', ho'⟩
      rintro rfl
      exact hne ⟨h.unique ho' ho, rfl⟩
  · intro o₁ o₂ y h₁ h₂
    exact h.unique ((howns o₁ y).mp h₁).2 ((howns o₂ y).mp h₂).2

end Ledger

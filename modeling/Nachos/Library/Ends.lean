import Mathlib.Tactic

/-! Postconditions of procedures that can be cut short. A procedure of `EStateM` ends in a
value or in an error, and in a state either way; `Ends` says what holds there. The rules
are equivalences, so a procedure is worked through from its first statement on. -/
namespace EStateM

universe u

variable {ε σ α β : Type u}

/-- `x`, started in `s`, ends in a value with `Q`, or in an error with `E`. -/
def Ends (x : EStateM ε σ α) (s : σ) (Q : α → σ → Prop) (E : ε → σ → Prop) : Prop :=
  match x s with
  | .ok a s' => Q a s'
  | .error e s' => E e s'

variable {x : EStateM ε σ α} {s : σ} {Q Q' : α → σ → Prop} {E E' : ε → σ → Prop}

@[simp] theorem ends_pure (a : α) : Ends (pure a : EStateM ε σ α) s Q E ↔ Q a s := Iff.rfl

@[simp] theorem ends_throw (e : ε) : Ends (throw e : EStateM ε σ α) s Q E ↔ E e s := Iff.rfl

@[simp] theorem ends_bind {f : α → EStateM ε σ β} {R : β → σ → Prop} :
    Ends (x >>= f) s R E ↔ Ends x s (fun a s' => Ends (f a) s' R E) E := by
  simp only [Ends, bind, EStateM.bind]
  cases x s <;> rfl

@[simp] theorem ends_map {f : α → β} {R : β → σ → Prop} :
    Ends (f <$> x) s R E ↔ Ends x s (fun a s' => R (f a) s') E := by
  simp only [Ends, Functor.map, EStateM.map]
  cases x s <;> rfl

@[simp] theorem ends_ite {c : Prop} [Decidable c] {y : EStateM ε σ α} :
    Ends (if c then x else y) s Q E ↔ if c then Ends x s Q E else Ends y s Q E := by
  split <;> rfl

/-- What follows a conditional stands in both of its branches. -/
theorem ends_ite_bind {c : Prop} [Decidable c] {y : EStateM ε σ α} {f : α → EStateM ε σ β}
    {R : β → σ → Prop} : Ends (if c then x >>= f else y >>= f) s R E ↔
      Ends (if c then x else y) s (fun a s' => Ends (f a) s' R E) E := by
  split <;> exact ends_bind

theorem Ends.mono (h : Ends x s Q E) (hQ : ∀ a s', Q a s' → Q' a s')
    (hE : ∀ e s', E e s' → E' e s') : Ends x s Q' E' := by
  unfold Ends at *
  split at h
  · exact hQ _ _ h
  · exact hE _ _ h

/-- The rule for a call: what is known of the procedure serves what follows. -/
theorem Ends.bind {f : α → EStateM ε σ β} {R : β → σ → Prop} (h : Ends x s Q E')
    (hf : ∀ a s', Q a s' → Ends (f a) s' R E) (hE : ∀ e s', E' e s' → E e s') :
    Ends (x >>= f) s R E :=
  ends_bind.mpr (h.mono hf hE)

theorem Ends.and (h : Ends x s Q E) (h' : Ends x s Q' E') :
    Ends x s (fun a s' => Q a s' ∧ Q' a s') fun e s' => E e s' ∧ E' e s' := by
  unfold Ends at *
  cases hx : x s <;> rw [hx] at h h' <;> exact ⟨h, h'⟩

/-- A procedure has one end, so what is known of it decides any other postcondition. -/
theorem Ends.iff {P : Prop} (h : Ends x s Q fun _ _ => False)
    (hQ : ∀ a s', Q a s' → (Q' a s' ↔ P)) : Ends x s Q' (fun _ _ => False) ↔ P := by
  unfold Ends at *
  split at h
  · exact hQ _ _ h
  · exact h.elim

theorem Ends.refutes (h : Ends x s Q E) (hQ : ∀ a s', Q a s' → ¬ Q' a s') :
    ¬ Ends x s Q' fun _ _ => False := by
  unfold Ends at *
  split at h
  · exact hQ _ _ h
  · exact id

/-- What is known of any procedure. -/
theorem Ends.self : Ends x s (fun a s' => x s = .ok a s') fun e s' => x s = .error e s' := by
  unfold Ends
  cases x s <;> rfl

theorem bind_eq_ok_iff {f : α → EStateM ε σ β} {b : β} {s' : σ} :
    (x >>= f) s = .ok b s' ↔ ∃ a s₁, x s = .ok a s₁ ∧ f a s₁ = .ok b s' := by
  simp only [bind, EStateM.bind]
  constructor
  · intro h
    split at h
    · next a s₁ hx => exact ⟨a, s₁, hx, h⟩
    · cases h
  · rintro ⟨a, s₁, hx, hf⟩
    rw [hx]
    exact hf

end EStateM

import Mathlib.Tactic

/-! Objects that are asked to do one operation after another. An operation has an answer and a
state after it, or no result where it may not be asked or goes wrong. -/
namespace Simulation

variable {ω ρ σ τ : Type*}

/-- The answers to a sequence of operations, and the state behind the last. -/
def run (step : σ → ω → Option (ρ × σ)) (s : σ) : List ω → Option (List ρ × σ)
  | [] => some ([], s)
  | op :: ops => do
    let (answer, s) ← step s op
    let (answers, s) ← run step s ops
    return (answer :: answers, s)

/-- Whatever may be asked of the abstract object, the concrete one answers in the same way and
stays in the relation. -/
def Simulates (abs : τ → ω → Option (ρ × τ)) (conc : σ → ω → Option (ρ × σ))
    (R : τ → σ → Prop) : Prop :=
  ∀ a s op answer a', R a s → abs a op = some (answer, a') →
    ∃ s', conc s op = some (answer, s') ∧ R a' s'

/-- Whatever may be asked of the abstract object, the concrete one gives an answer that agrees. -/
def SimulatesUpTo {ρ' : Type*} (agrees : ρ' → ρ → Prop) (abs : τ → ω → Option (ρ' × τ))
    (conc : σ → ω → Option (ρ × σ)) (R : τ → σ → Prop) : Prop :=
  ∀ a s op answer a', R a s → abs a op = some (answer, a') →
    ∃ answer' s', conc s op = some (answer', s') ∧ agrees answer answer' ∧ R a' s'

variable {step : σ → ω → Option (ρ × σ)} {abs : τ → ω → Option (ρ × τ)}
  {conc : σ → ω → Option (ρ × σ)} {R : τ → σ → Prop} {s s' : σ} {op : ω} {ops : List ω}

theorem run_cons {answers : List ρ} : run step s (op :: ops) = some (answers, s') ↔
    ∃ answer t rest, step s op = some (answer, t) ∧ run step t ops = some (rest, s') ∧
      answers = answer :: rest := by
  constructor
  · intro h
    obtain ⟨⟨answer, t⟩, hstep, h⟩ := Option.bind_eq_some_iff.mp h
    obtain ⟨⟨rest, u⟩, hrest, h⟩ := Option.bind_eq_some_iff.mp h
    cases h
    exact ⟨answer, t, rest, hstep, hrest, rfl⟩
  · rintro ⟨answer, t, rest, hstep, hrest, rfl⟩
    simp only [run, hstep, Option.bind_eq_bind, Option.bind_some, hrest, Option.pure_def]

/-- If no operation is ever refused, no sequence of them is. -/
theorem exists_run (h : ∀ s op, (step s op).isSome) (s : σ) (ops : List ω) :
    ∃ answers s', run step s ops = some (answers, s') := by
  induction ops generalizing s with
  | nil => exact ⟨[], s, rfl⟩
  | cons op ops ih =>
    obtain ⟨⟨answer, t⟩, hstep⟩ := Option.isSome_iff_exists.mp (h s op)
    obtain ⟨rest, s', hrest⟩ := ih t
    exact ⟨answer :: rest, s', run_cons.mpr ⟨answer, t, rest, hstep, hrest, rfl⟩⟩

/-- An account of the operations that fits the state, and is kept up to date by each of them, fits
at the end. -/
theorem run_foldl {R : τ → σ → Prop} {next : τ → ω → τ} {a : τ} (h0 : R a s) {answers : List ρ}
    (hstep : ∀ a s op answer s', R a s → step s op = some (answer, s') → R (next a op) s')
    (h : run step s ops = some (answers, s')) : R (ops.foldl next a) s' := by
  induction ops generalizing a s answers with
  | nil =>
    cases h
    exact h0
  | cons op ops ih =>
    obtain ⟨answer, t, rest, hs, hrest, -⟩ := run_cons.mp h
    exact ih (hstep _ _ _ _ _ h0 hs) hrest

/-- The same for sequences of operations. -/
theorem Simulates.run (h : Simulates abs conc R) {a a' : τ} (h0 : R a s) {answers : List ρ}
    (hrun : Simulation.run abs a ops = some (answers, a')) :
    ∃ s', Simulation.run conc s ops = some (answers, s') ∧ R a' s' := by
  induction ops generalizing a s answers with
  | nil =>
    cases hrun
    exact ⟨s, rfl, h0⟩
  | cons op ops ih =>
    obtain ⟨answer, b, rest, hstep, hrest, rfl⟩ := run_cons.mp hrun
    obtain ⟨t, ht, hR⟩ := h a s op answer b h0 hstep
    obtain ⟨s', hs', hR'⟩ := ih hR hrest
    exact ⟨s', run_cons.mpr ⟨answer, t, rest, ht, hs', rfl⟩, hR'⟩

theorem SimulatesUpTo.run {ρ' : Type*} {agrees : ρ' → ρ → Prop} {abs : τ → ω → Option (ρ' × τ)}
    (h : SimulatesUpTo agrees abs conc R) {a a' : τ} (h0 : R a s) {answers : List ρ'}
    (hrun : Simulation.run abs a ops = some (answers, a')) :
    ∃ answers' s', Simulation.run conc s ops = some (answers', s') ∧
      List.Forall₂ agrees answers answers' ∧ R a' s' := by
  induction ops generalizing a s answers with
  | nil =>
    cases hrun
    exact ⟨[], s, rfl, .nil, h0⟩
  | cons op ops ih =>
    obtain ⟨answer, b, rest, hstep, hrest, rfl⟩ := run_cons.mp hrun
    obtain ⟨answer', t, ht, hagrees, hR⟩ := h a s op answer b h0 hstep
    obtain ⟨rest', s', hs', hagree, hR'⟩ := ih hR hrest
    exact ⟨answer' :: rest', s', run_cons.mpr ⟨answer', t, rest', ht, hs', rfl⟩,
      .cons hagrees hagree, hR'⟩

end Simulation

import Nachos.Threads.MonitorRoutines

/-! Threads that use one lock, each with a task of its own. A task says in which routine of the
lock its thread is, until the routine returns, and whether it holds the lock between two of them. -/
namespace Nachos.Monitor

structure Clients {τ : Type*} (routine : τ → Option Routine) (holds : τ → Bool) (m : State)
    (task : ThreadId → τ) : Prop where
  sound : Sound m
  fits : ∀ t, Fits m t (routine (task t)) (holds (task t) = true)

/-- The holder of the lock, if it has something left to do that is due. -/
def duty (m : State) (due : ThreadId → Bool) : List ThreadId :=
  m.lock.lockHolder.elim [] fun t => if m.pc t = .outside ∧ due t = true then [t] else []

section

variable {τ : Type*} {routine : τ → Option Routine} {holds : τ → Bool} {m m' : State}
  {task : ThreadId → τ} {t : ThreadId} {k : τ} {due due' : ThreadId → Bool}

theorem clients_start (hholds : holds k = false) :
    Clients routine holds start fun _ => k := by
  refine ⟨⟨⟨none, inv_start⟩, rfl, fun t ht => by cases ht⟩, fun t => ⟨.inr rfl, fun _ hk => ?_⟩⟩
  rw [hholds] at hk
  cases hk

namespace Clients

/-- A statement of `t` between two routines of the lock. -/
theorem goto (h : Clients routine holds m task) (hout : m.pc t = .outside)
    (hholds : holds k = true → m.Held t) :
    Clients routine holds m (Function.update task t k) := by
  refine ⟨h.sound, fun u => ?_⟩
  by_cases hu : u = t
  · subst hu
    rw [Function.update_self]
    exact ⟨.inr hout, fun _ => hholds⟩
  · rw [Function.update_of_ne hu]
    exact h.fits u

/-- The call of a routine. -/
theorem call {r : Routine} (h : Clients routine holds m task)
    (hm : step m (.call t r) = some m') (hheld : r ≠ .acquire → m.Held t) (hr : r ≠ .broadcast)
    (hroutine : routine k = some r) : Clients routine holds m' (Function.update task t k) := by
  obtain ⟨⟨token, hi⟩, -, -⟩ := h.sound
  obtain ⟨-, hmove, -⟩ := step_call hm hheld hr
  refine ⟨h.sound.call hm hheld, fun u => ?_⟩
  by_cases hu : u = t
  · subst hu
    rw [Function.update_self, hroutine]
    exact .call hm hheld hr
  · rw [Function.update_of_ne hu]
    exact (h.fits u).other hu hi.lock hmove

/-- A step inside a routine. -/
theorem run (h : Clients routine holds m task) (hin : m.pc t ≠ .outside)
    (hm : step m (.run t) = some m')
    (hreturns : holds (task t) = true → routine (task t) = some .acquire) :
    Clients routine holds m' task := by
  obtain ⟨⟨token, hi⟩, -, -⟩ := h.sound
  obtain ⟨hsound, hmove⟩ := h.sound.run hm
  refine ⟨hsound, fun u => ?_⟩
  by_cases hu : u = t
  · subst hu
    exact (h.fits u).move hin hi.lock hmove fun hholds => .inl (hreturns hholds)
  · exact (h.fits u).other hu hi.lock hmove

/-- The last statement of `Acquire` makes something due. -/
theorem duty_run (h : Clients routine holds m task) (hin : m.pc t ≠ .outside)
    (hm : step m (.run t) = some m')
    (hdue : due t = true ↔ routine (task t) = some .acquire) :
    duty m' due = duty m due ++ if m.pc t = .acquireSet .client then [t] else [] := by
  obtain ⟨⟨token, hi⟩, -, -⟩ := h.sound
  obtain ⟨-, hmove⟩ := h.sound.run hm
  have hroutine := (h.fits t).1.resolve_right hin
  unfold duty
  split_ifs with hset
  · obtain ⟨hfree, hheld, hout⟩ := hi.lock.obtains hset hm
    have hacquire : routine (task t) = some .acquire := by
      rw [← hroutine, hset]
      rfl
    rw [hfree, show m'.lock.lockHolder = some t from hheld]
    exact if_pos ⟨hout, hdue.mpr hacquire⟩
  · rw [List.append_nil]
    have hself : (if m'.pc t = .outside ∧ due t = true then [t] else []) = [] := by
      refine if_neg ?_
      rintro ⟨hout, hd⟩
      exact hset (hmove.acquireSet_of_returns hout (hroutine.trans (hdue.mp hd)))
    have hsame : (fun u => if m'.pc u = .outside ∧ due u = true then [u] else []) =
        fun u => if m.pc u = .outside ∧ due u = true then [u] else [] := by
      funext u
      by_cases hu : u = t
      · subst hu
        rw [hself, if_neg fun h => hin h.1]
      · rw [hmove.pc_of_ne hu]
    rw [hmove.elim_holder hi.lock hself, hsame]

end Clients

theorem duty_of_held (hheld : m.Held t) :
    duty m due = if m.pc t = .outside ∧ due t = true then [t] else [] := by
  unfold duty
  rw [show m.lock.lockHolder = some t from hheld]
  rfl

/-- Nothing becomes due. -/
theorem duty_congr (hlock : m'.lock.lockHolder = m.lock.lockHolder)
    (h : ∀ u, m'.pc u = .outside ∧ due' u = true ↔ m.pc u = .outside ∧ due u = true) :
    duty m' due' = duty m due := by
  unfold duty
  simp only [h, hlock]

end

end Nachos.Monitor

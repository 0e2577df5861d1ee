import Mathlib.Logic.Function.Basic
import Mathlib.Data.List.Basic

/-! Runs of writes to a memory in which a place may be missing. The last write to a place
decides what is there, so a run serves its purpose if each write is either wanted, or written
again later, or leaves what was there. -/
namespace LastWrite

universe u v

variable {α : Type u} {β : Type v} [DecidableEq α]

/-- The memory after a run of writes, first to last. -/
def after (memory : α → Option β) (ws : List (α × β)) : α → Option β :=
  ws.foldl (fun memory w => Function.update memory w.1 (some w.2)) memory

variable {memory : α → Option β} {ws ws' : List (α × β)} {w : α × β} {a : α} {b : β}

@[simp] theorem after_nil : after memory [] = memory := rfl

@[simp] theorem after_cons :
    after memory (w :: ws) = after (Function.update memory w.1 (some w.2)) ws := rfl

theorem after_append : after memory (ws ++ ws') = after (after memory ws) ws' :=
  List.foldl_append

theorem after_of_unwritten (h : ∀ w ∈ ws, w.1 ≠ a) : after memory ws a = memory a := by
  induction ws generalizing memory with
  | nil => rfl
  | cons w ws ih =>
    rw [after_cons, ih fun w' hw' => h w' (List.mem_cons_of_mem w hw')]
    exact Function.update_of_ne (h w List.mem_cons_self).symm _ _

/-- A write that nothing follows at its place. -/
theorem after_of_last (h : ∀ w' ∈ ws', w'.1 ≠ w.1) :
    after memory (ws ++ w :: ws') w.1 = some w.2 := by
  rw [after_append, after_cons, after_of_unwritten h, Function.update_self]

theorem exists_last (h : ∃ w ∈ ws, w.1 = a) :
    ∃ before w later, ws = before ++ w :: later ∧ w.1 = a ∧ ∀ w' ∈ later, w'.1 ≠ a := by
  induction ws with
  | nil => simp at h
  | cons w ws ih =>
    by_cases hrest : ∃ w' ∈ ws, w'.1 = a
    · obtain ⟨before, w', later, rfl, hw', hlater⟩ := ih hrest
      exact ⟨w :: before, w', later, rfl, hw', hlater⟩
    · obtain ⟨w', hw', ha⟩ := h
      rcases List.mem_cons.mp hw' with rfl | hw'
      · exact ⟨[], w', ws, rfl, ha, fun w'' hw'' h => hrest ⟨w'', hw'', h⟩⟩
      · exact absurd ⟨w', hw', ha⟩ hrest

/-- The memory holds what is wanted, and elsewhere what was there before. -/
structure Meets (wanted : α → β → Prop) (memory memory' : α → Option β) : Prop where
  holds : ∀ a b, wanted a b → memory' a = some b
  others : ∀ a, (∀ b, ¬wanted a b) → memory' a = memory a

/-- The writes that a run consists of, each by itself. -/
structure Suits (wanted : α → β → Prop) (memory : α → Option β) (ws : List (α × β)) : Prop where
  /-- Nothing else is wanted at the same place. -/
  agrees : ∀ a b b', wanted a b → wanted a b' → b = b'
  /-- What is not written is there. -/
  present : ∀ a b, wanted a b → (∃ w ∈ ws, w.1 = a) ∨ memory a = some b
  /-- A write that stays is wanted, or harmless. -/
  stays : ∀ before w later, ws = before ++ w :: later → wanted w.1 w.2 ∨
    (∃ w' ∈ later, w'.1 = w.1) ∨ (∀ b, ¬wanted w.1 b) ∧ memory w.1 = some w.2

variable {wanted : α → β → Prop}

theorem Meets.suits (h : Meets wanted memory (after memory ws)) : Suits wanted memory ws where
  agrees a b b' hb hb' := Option.some.inj ((h.holds a b hb).symm.trans (h.holds a b' hb'))
  present a b hb := by
    by_cases hw : ∃ w ∈ ws, w.1 = a
    · exact .inl hw
    · have hframe : after memory ws a = memory a :=
        after_of_unwritten fun w hmem ha => hw ⟨w, hmem, ha⟩
      exact .inr (hframe.symm.trans (h.holds a b hb))
  stays before w later hws := by
    by_cases hlater : ∃ w' ∈ later, w'.1 = w.1
    · exact .inr (.inl hlater)
    have hlast : after memory ws w.1 = some w.2 := by
      rw [hws]
      exact after_of_last fun w' hmem ha => hlater ⟨w', hmem, ha⟩
    by_cases hwanted : ∃ b, wanted w.1 b
    · obtain ⟨b, hb⟩ := hwanted
      obtain rfl : w.2 = b := Option.some.inj (hlast.symm.trans (h.holds _ _ hb))
      exact .inl hb
    · have hnone : ∀ b, ¬wanted w.1 b := not_exists.mp hwanted
      exact .inr (.inr ⟨hnone, (h.others _ hnone).symm.trans hlast⟩)

theorem Suits.meets (h : Suits wanted memory ws) : Meets wanted memory (after memory ws) := by
  have hplace (a : α) : (∀ b, wanted a b → after memory ws a = some b) ∧
      ((∀ b, ¬wanted a b) → after memory ws a = memory a) := by
    by_cases hw : ∃ w ∈ ws, w.1 = a
    · obtain ⟨before, w, later, rfl, rfl, hlater⟩ := exists_last hw
      rw [after_of_last hlater]
      rcases h.stays before w later rfl with hwanted | ⟨w', hmem, ha⟩ | ⟨hnone, hmemory⟩
      · exact ⟨fun b hb => congrArg some (h.agrees _ _ _ hwanted hb),
          fun hnone => absurd hwanted (hnone _)⟩
      · exact absurd ha (hlater w' hmem)
      · exact ⟨fun b hb => absurd hb (hnone b), fun _ => hmemory.symm⟩
    · have hframe : after memory ws a = memory a :=
        after_of_unwritten fun w hmem ha => hw ⟨w, hmem, ha⟩
      exact ⟨fun b hb => hframe.trans ((h.present a b hb).resolve_left hw), fun _ => hframe⟩
  exact ⟨fun a => (hplace a).1, fun a => (hplace a).2⟩

/-- A run of writes does what is wanted exactly if its writes do, each by itself. -/
theorem meets_iff : Meets wanted memory (after memory ws) ↔ Suits wanted memory ws :=
  ⟨Meets.suits, Suits.meets⟩

end LastWrite

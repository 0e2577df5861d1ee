import Mathlib.Tactic

/-! Byte-addressed stores and runs of range writes. A store is total on the
integers, so a write that misses the intended array still has a place to land;
what a run of writes leaves at an address is decided by the last one covering it. -/
namespace ByteStore

abbrev Store := ℤ → UInt8

/-- One contiguous write: `bytes` placed from index `dest` on. -/
structure Patch where
  dest : ℤ
  bytes : List UInt8
  deriving DecidableEq, Repr

namespace Patch

/-- The patch writes index `a`. -/
def Covers (p : Patch) (a : ℤ) : Prop := p.dest ≤ a ∧ a < p.dest + p.bytes.length

instance (p : Patch) (a : ℤ) : Decidable (p.Covers a) := inferInstanceAs (Decidable (_ ∧ _))

/-- The byte the patch puts at `a`, when it covers `a`. -/
def byteAt (p : Patch) (a : ℤ) : UInt8 := p.bytes.getD (a - p.dest).toNat 0

end Patch

/-- The store after one write. -/
def patch (m : Store) (p : Patch) : Store :=
  fun a => if p.Covers a then p.byteAt a else m a

/-- The store after a run of writes, first to last. -/
def patchAll (m : Store) (ps : List Patch) : Store := ps.foldl patch m

variable {m : Store} {p : Patch} {ps qs : List Patch} {a : ℤ}

theorem patch_of_covers (h : p.Covers a) : patch m p a = p.byteAt a := if_pos h

theorem patch_of_not_covers (h : ¬ p.Covers a) : patch m p a = m a := if_neg h

@[simp] theorem patchAll_nil : patchAll m [] = m := rfl

@[simp] theorem patchAll_cons : patchAll m (p :: ps) = patchAll (patch m p) ps := rfl

theorem patchAll_append : patchAll m (ps ++ qs) = patchAll (patchAll m ps) qs :=
  List.foldl_append ..

/-- An index no write covers keeps its byte. -/
theorem patchAll_of_not_covered (h : ∀ p ∈ ps, ¬ p.Covers a) : patchAll m ps a = m a := by
  induction ps generalizing m with
  | nil => rfl
  | cons p ps ih =>
    rw [patchAll_cons, ih fun q hq => h q (List.mem_cons_of_mem p hq)]
    exact patch_of_not_covers (h p List.mem_cons_self)

/-- If no index is written twice, a covered index holds the byte written there. -/
theorem patchAll_of_mem (hd : ps.Pairwise fun p q => ¬ (p.Covers a ∧ q.Covers a))
    (hp : p ∈ ps) (h : p.Covers a) : patchAll m ps a = p.byteAt a := by
  induction ps generalizing m with
  | nil => simp at hp
  | cons q ps ih =>
    rw [patchAll_cons]
    rcases List.mem_cons.mp hp with rfl | hp
    · rw [patchAll_of_not_covered, patch_of_covers h]
      intro r hr hc
      exact List.rel_of_pairwise_cons hd hr ⟨h, hc⟩
    · exact ih hd.of_cons hp

/-- The index is written by some patch of the run. -/
def Touched (ps : List Patch) (a : ℤ) : Prop := ∃ p ∈ ps, p.Covers a

theorem touched_append : Touched (ps ++ qs) a ↔ Touched ps a ∨ Touched qs a := by
  simp only [Touched, List.mem_append]
  constructor
  · rintro ⟨p, hp | hp, hc⟩
    · exact .inl ⟨p, hp, hc⟩
    · exact .inr ⟨p, hp, hc⟩
  · rintro (⟨p, hp, hc⟩ | ⟨p, hp, hc⟩)
    · exact ⟨p, .inl hp, hc⟩
    · exact ⟨p, .inr hp, hc⟩

theorem patchAll_of_not_touched (h : ¬ Touched ps a) : patchAll m ps a = m a :=
  patchAll_of_not_covered fun p hp hc => h ⟨p, hp, hc⟩

end ByteStore

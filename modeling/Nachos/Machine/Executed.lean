import Nachos.Machine.LoadDelay
import Nachos.Machine.VirtualMemory

/-! One instruction of the MIPS simulator, from the fetch to the end: what it leaves in the
registers is what the switch put there, once the pending load has arrived. -/
namespace Nachos

/-- The machine after an operation that comes to its end. -/
def Outcome.machine {α : Type} : Outcome α → Option Machine
  | .ok _ m => some m
  | .trap _ _ => none
  | .abort => none

theorem Outcome.eq_ok {x : Outcome Unit} {m : Machine} (h : x.machine = some m) :
    x = .ok () m := by
  cases x with
  | ok value m' =>
    cases h
    rfl
  | trap which m' => cases h
  | abort => cases h

namespace Machine

/-- What the end of `OneInstruction` makes of the machine after the switch. -/
structure Finished (completion : Completion) (m m' : Machine) : Prop where
  delivered : ∀ r : Fin NumTotalRegs, (r : ℕ) < 34 → m'.registers r = m.delivered r
  prevPC : m'.registers PrevPCReg = m.registers PCReg
  pc : m'.registers PCReg = m.registers NextPCReg
  nextPC : m'.registers NextPCReg = completion.pcAfter
  loadReg : m'.registers LoadReg = completion.nextLoadReg
  loadValue : m'.registers LoadValueReg = completion.nextLoadValue
  badVAddr : m'.registers BadVAddrReg = m.registers BadVAddrReg
  rest : m' = { m with registers := m'.registers }

/-- An instruction has run to its end. It started no load and had no effect but on the
target registers. -/
structure Advanced (targets : List (Fin NumTotalRegs)) (m m' : Machine) : Prop where
  others : ∀ r : Fin NumTotalRegs, (r : ℕ) < 34 → r ∉ targets → m'.registers r = m.delivered r
  prevPC : m'.registers PrevPCReg = m.registers PCReg
  pc : m'.registers PCReg = m.registers NextPCReg
  nextPC : m'.registers NextPCReg = m.registers NextPCReg + 4
  loadReg : m'.registers LoadReg = 0
  badVAddr : m'.registers BadVAddrReg = m.registers BadVAddrReg
  mainMemory : m'.mainMemory = m.mainMemory
  confined : Confined m m'

theorem delivered_of_ne {m : Machine} {r : Fin NumTotalRegs} (hr : r ≠ 0)
    (h : m.registers LoadReg ≠ BitVec.ofNat 32 r) : m.delivered r = m.registers r := by
  rw [delivered, if_neg hr, if_neg h]

theorem delivered_of_ge {m : Machine} (hload : (m.registers LoadReg).toNat < 32)
    {r : Fin NumTotalRegs} (hr : 32 ≤ (r : ℕ)) : m.delivered r = m.registers r := by
  apply delivered_of_ne
  · rintro rfl
    exact absurd hr (by decide)
  · intro heq
    have hlt : (r : ℕ) < 40 := r.isLt
    rw [heq, BitVec.toNat_ofNat] at hload
    omega

end Machine

open Machine

namespace Sim

variable {m : Machine} {raw : Word}

/-- One instruction is a fetch, and then the switch and its end. -/
theorem oneInstruction_of_fetched (h : m.fetched = some raw) : ∃ m₁, Untouched m m₁ ∧
    oneInstruction m =
      (execute (decode raw) (m.registers NextPCReg + 4) >>= finish) m₁ := by
  unfold fetched at h
  split at h
  · next word m₁ hread =>
    cases h
    obtain ⟨physAddr, m₂, hraise, -⟩ := bind_eq_ok_iff.mp hread
    have heq := readMem_eq (.inr (.inr rfl)) hraise
    obtain ⟨address, entry, -, -, hm₂⟩ := translateOrRaise_ok hraise
    rw [hread] at heq
    cases heq
    have hregisters : m₁.registers = m.registers := by rw [hm₂]
    refine ⟨m₁, ⟨hregisters, by rw [hm₂], (keeps_readMem _ _).confined hread⟩, ?_⟩
    have hbind : oneInstruction m = (readMem (m.registers PCReg) 4 >>= fun raw => do
        let completion ← execute (decode raw) ((← reg NextPCReg) + 4)
        finish completion) m := rfl
    rw [hbind, bind_apply, hread, ← hregisters]
    rfl
  · cases h

section

variable (registers : Registers) {target r : Fin NumTotalRegs} (completion : Completion)

theorem finished_eq_loadDelayed (hr : (r : ℕ) < 34 ∨ 37 ≤ (r : ℕ)) :
    finished registers target completion r =
      loadDelayed registers target completion.nextLoadReg completion.nextLoadValue r := by
  have hne (s : Fin NumTotalRegs) (hs : 34 ≤ (s : ℕ) ∧ (s : ℕ) < 37) : r ≠ s := by
    rintro rfl
    omega
  unfold finished
  rw [Function.update_of_ne (hne NextPCReg (by decide)),
    Function.update_of_ne (hne PCReg (by decide)),
    Function.update_of_ne (hne PrevPCReg (by decide))]

theorem finished_prevPC (h : (target : ℕ) < 32) :
    finished registers target completion PrevPCReg = registers PCReg := by
  refine Eq.trans ?_ (loadDelayed_of_ge registers completion.nextLoadReg completion.nextLoadValue h
    (by decide) (by decide))
  rfl

theorem finished_badVAddr (h : (target : ℕ) < 32) :
    finished registers target completion BadVAddrReg = registers BadVAddrReg := by
  have hne : BadVAddrReg ≠ target := by
    rintro rfl
    exact absurd h (by decide)
  rw [finished_eq_loadDelayed _ _ (by decide), loadDelayed_apply, if_neg (by decide),
    if_neg (by decide), if_neg (by decide), if_neg hne]

end

/-- The end of an instruction. -/
theorem finish_finished (completion : Completion) (hload : (m.registers LoadReg).toNat < 32) :
    ∃ m', finish completion m = .ok () m' ∧ m.Finished completion m' := by
  have hlt : (m.registers LoadReg).toNat < NumTotalRegs := hload.trans (by decide)
  refine ⟨_, finish_apply completion hlt, ⟨?_, ?_, ?_, rfl, ?_, ?_, ?_, rfl⟩⟩
  · intro r hr
    refine (finished_eq_loadDelayed m.registers completion (.inl hr)).trans ?_
    by_cases hgeneral : (r : ℕ) < 32
    · rw [loadDelayed_of_lt _ _ _ hgeneral]
      simp only [delivered, eq_mk_toNat_iff]
    · rw [delivered_of_ge hload (not_lt.mp hgeneral)]
      exact loadDelayed_of_ge _ _ _ hload (not_lt.mp hgeneral) (hr.trans (by decide))
  · exact finished_prevPC _ completion hload
  · exact finished_pc _ hload completion
  · exact finished_loadReg m.registers ⟨_, hlt⟩ completion
  · have hvalue : (LoadValueReg : ℕ) < 34 ∨ 37 ≤ (LoadValueReg : ℕ) := by decide
    show finished m.registers ⟨_, hlt⟩ completion LoadValueReg = _
    rw [finished_eq_loadDelayed _ _ hvalue, loadDelayed_apply, if_neg (by decide), if_pos rfl]
  · exact finished_badVAddr _ completion hload

/-- What an instruction does that only writes registers. -/
theorem oneInstruction_of_execute {targets : List (Fin NumTotalRegs)} {registers : Registers}
    (hload : (m.registers LoadReg).toNat < 32) (hfetch : m.fetched = some raw)
    (hexecute : ∀ m₁ : Machine, m₁.registers = m.registers →
      execute (decode raw) (m.registers NextPCReg + 4) m₁ =
        .ok ⟨0, 0, m.registers NextPCReg + 4⟩ { m₁ with registers := registers })
    (htargets : ∀ r ∈ targets, (r : ℕ) < 34)
    (hothers : ∀ r, r ∉ targets → registers r = m.registers r) :
    ∃ m', oneInstruction m = .ok () m' ∧ m.Advanced targets m' ∧
      ∀ r ∈ targets, r ≠ 0 → m.registers LoadReg ≠ BitVec.ofNat 32 r →
        m'.registers r = registers r := by
  obtain ⟨m₁, hfetched, heq⟩ := oneInstruction_of_fetched hfetch
  have hcontrol (r : Fin NumTotalRegs) (hr : 34 ≤ (r : ℕ)) : registers r = m.registers r := by
    apply hothers
    intro hmem
    exact absurd (htargets r hmem) (by omega)
  have hpending : registers LoadReg = m.registers LoadReg := hcontrol _ (by decide)
  have hload' : (registers LoadReg).toNat < 32 := by
    rw [hpending]
    exact hload
  obtain ⟨m', hfinish, hm'⟩ := finish_finished (m := { m₁ with registers := registers })
    ⟨0, 0, m.registers NextPCReg + 4⟩ hload'
  have hok : oneInstruction m = .ok () m' := by
    rw [heq, bind_apply, hexecute m₁ hfetched.registers]
    exact hfinish
  refine ⟨m', hok, ⟨?_, ?_, ?_, hm'.nextPC, hm'.loadReg, ?_, ?_, ?_⟩, ?_⟩
  · intro r hr hmem
    rw [hm'.delivered r hr]
    simp only [delivered, hpending, hcontrol LoadValueReg (by decide), hothers r hmem]
  · exact hm'.prevPC.trans (hcontrol _ (by decide))
  · exact hm'.pc.trans (hcontrol _ (by decide))
  · exact hm'.badVAddr.trans (hcontrol _ (by decide))
  · rw [hm'.rest]
    exact hfetched.mainMemory
  · have hc := hfetched.confined
    rw [hm'.rest]
    exact ⟨hc.pageTable, hc.pageTableSize, hc.mapping, hc.memory⟩
  · intro r hr hzero hne
    rw [hm'.delivered r (htargets r hr), delivered_of_ne hzero]
    dsimp only
    rw [hpending]
    exact hne

/-- What the handler finds when the switch raises an exception. -/
theorem oneInstruction_of_trap {which : ExceptionType} {badVAddr : Word}
    (hload : (m.registers LoadReg).toNat < 32) (hfetch : m.fetched = some raw)
    (hexecute : ∀ m₁ : Machine, m₁.registers = m.registers →
      execute (decode raw) (m.registers NextPCReg + 4) m₁ = raiseException which badVAddr m₁) :
    ∃ m', oneInstruction m = .trap which m' ∧ m'.mainMemory = m.mainMemory ∧
      ∀ r : Fin NumTotalRegs, (r : ℕ) < 32 → m'.registers r = m.delivered r := by
  obtain ⟨m₁, hfetched, heq⟩ := oneInstruction_of_fetched hfetch
  have hlt : (m₁.registers LoadReg).toNat < NumTotalRegs := by
    rw [hfetched.registers]
    exact hload.trans (by decide)
  have htrap : oneInstruction m = .trap which
      { m₁ with registers := trapRegisters m₁.registers ⟨_, hlt⟩ badVAddr } := by
    rw [heq, bind_apply, hexecute m₁ hfetched.registers, raiseException_apply _ _ hlt]
  refine ⟨_, htrap, hfetched.mainMemory, ?_⟩
  intro r hr
  refine (trapRegisters_of_lt _ _ hr).trans ?_
  simp only [delivered, eq_mk_toNat_iff, hfetched.registers]

end Sim

end Nachos

import Nachos.Machine.Mipssim

/-! The traps of the MIPS simulator are precise: an instruction that traps has not changed
anything the handler could see, so it can be restarted. Each case of `OneInstruction` first
reads, then makes the one memory access or overflow test that may trap, and writes last. -/
namespace Nachos

namespace Machine

/-- A machine that can run user code: register 0 is zero, the pending load has a general
register as its target, and there is a page table. -/
structure Ready (m : Machine) : Prop where
  zero : m.registers 0 = 0
  loadReg : (m.registers LoadReg).toNat < 32
  table : ∃ t, m.table = some t ∧ m.pageTableSize ≤ t.length

/-- A general register once the pending load has arrived. -/
def delivered (m : Machine) (r : Fin NumTotalRegs) : Word :=
  if r = 0 then 0
  else if m.registers LoadReg = BitVec.ofNat 32 r then m.registers LoadValueReg
  else m.registers r

/-- What the handler finds when an instruction traps on `m`. -/
structure Trapped (m m' : Machine) : Prop where
  mainMemory : m'.mainMemory = m.mainMemory
  special : ∀ r ∈ [HiReg, LoReg, PCReg, NextPCReg], m'.registers r = m.registers r
  general : ∀ r : Fin NumTotalRegs, (r : ℕ) < 32 → m'.registers r = m.delivered r
  ready : m'.Ready

/-- The instruction has only read so far. -/
structure Untouched (m m' : Machine) : Prop where
  registers : m'.registers = m.registers
  mainMemory : m'.mainMemory = m.mainMemory
  confined : Confined m m'

/-- The instruction has written, and can no longer trap. -/
structure Worked (m m' : Machine) : Prop where
  control : ∀ r : Fin NumTotalRegs, 34 ≤ (r : ℕ) → m'.registers r = m.registers r
  confined : Confined m m'

variable {m m' m'' : Machine}

theorem Untouched.refl (m : Machine) : Untouched m m := ⟨rfl, rfl, Confined.refl m⟩

theorem Untouched.trans (h : Untouched m m') (h' : Untouched m' m'') : Untouched m m'' :=
  ⟨h'.registers.trans h.registers, h'.mainMemory.trans h.mainMemory, h.confined.trans h'.confined⟩

theorem Untouched.worked (h : Untouched m m') : Worked m m' :=
  ⟨fun r _ => by rw [h.registers], h.confined⟩

theorem Confined.table_complete (h : Confined m m')
    (ht : ∃ t, m.table = some t ∧ m.pageTableSize ≤ t.length) :
    ∃ t, m'.table = some t ∧ m'.pageTableSize ≤ t.length := by
  obtain ⟨t, ht, hsize⟩ := ht
  obtain ⟨address, haddress, rfl⟩ := Option.map_eq_some_iff.mp ht
  refine ⟨m'.tables address, ?_, ?_⟩
  · rw [table, h.pageTable, haddress]
    rfl
  · have hlength := congrArg List.length (h.mapping address)
    rw [List.length_map, List.length_map] at hlength
    rw [h.pageTableSize, hlength]
    exact hsize

theorem Ready.of_untouched (h : m.Ready) (hu : Untouched m m') : m'.Ready :=
  ⟨hu.registers ▸ h.zero, hu.registers ▸ h.loadReg, hu.confined.table_complete h.table⟩

theorem Trapped.of_untouched (hu : Untouched m m') (h : Trapped m' m'') : Trapped m m'' := by
  refine ⟨h.mainMemory.trans hu.mainMemory, ?_, ?_, h.ready⟩
  · intro r hr
    rw [h.special r hr, hu.registers]
  · intro r hr
    rw [h.general r hr, delivered, delivered, hu.registers]

theorem Worked.of_untouched (hu : Untouched m m') (h : Worked m' m'') : Worked m m'' := by
  refine ⟨?_, hu.confined.trans h.confined⟩
  intro r hr
  rw [h.control r hr, hu.registers]

end Machine

open Machine

/-- The outcome of an instruction on `m`: where it has a value, `Q` holds; where it traps, the
handler finds what it should; and no assertion fails. -/
def Outcome.Precise {α : Type} (m : Machine) (Q : α → Machine → Prop) : Outcome α → Prop
  | .ok a m' => Q a m'
  | .trap _ m' => Trapped m m'
  | .abort => False

/-- A completed instruction: the load it starts is into a general register. -/
def Completed (m : Machine) (completion : Completion) (m' : Machine) : Prop :=
  completion.nextLoadReg.toNat < 32 ∧ Worked m m'

namespace Sim

variable {α β : Type} {m m₀ : Machine} {Q : α → Machine → Prop}

theorem precise_bind {x : Sim α} {f : α → Sim β} {R : β → Machine → Prop}
    (hx : (x m₀).Precise m Q) (hf : ∀ a m₁, Q a m₁ → (f a m₁).Precise m R) :
    ((x >>= f) m₀).Precise m R := by
  rw [bind_apply]
  cases h : x m₀ with
  | ok a m₁ =>
    rw [h] at hx
    exact hf a m₁ hx
  | trap which m₁ =>
    rw [h] at hx
    exact hx
  | abort =>
    rw [h] at hx
    exact hx

section

variable (registers : Registers) {target r : Fin NumTotalRegs}

theorem loadDelayed_of_ge (nextReg nextValue : Word) (htarget : (target : ℕ) < 32)
    (hr : 32 ≤ (r : ℕ)) (hr' : (r : ℕ) < 37) :
    loadDelayed registers target nextReg nextValue r = registers r := by
  have hne (s : Fin NumTotalRegs) (hs : (s : ℕ) < 32 ∨ 37 ≤ (s : ℕ)) : r ≠ s := by
    intro heq
    rw [heq] at hr hr'
    omega
  unfold loadDelayed
  rw [Function.update_of_ne (hne 0 (by decide)),
    Function.update_of_ne (hne LoadValueReg (by decide)),
    Function.update_of_ne (hne LoadReg (by decide)),
    Function.update_of_ne (hne target (.inl htarget))]

theorem loadDelayed_of_lt (nextReg nextValue : Word) (hr : (r : ℕ) < 32) :
    loadDelayed registers target nextReg nextValue r =
      if r = 0 then 0 else if r = target then registers LoadValueReg else registers r := by
  have hne (s : Fin NumTotalRegs) (hs : 37 ≤ (s : ℕ)) : r ≠ s := by
    intro heq
    rw [heq] at hr
    omega
  unfold loadDelayed
  by_cases h0 : r = 0
  · rw [if_pos h0, h0, Function.update_self]
  rw [if_neg h0, Function.update_of_ne h0, Function.update_of_ne (hne LoadValueReg (by decide)),
    Function.update_of_ne (hne LoadReg (by decide))]
  by_cases ht : r = target
  · rw [if_pos ht, ht, Function.update_self]
  · rw [if_neg ht, Function.update_of_ne ht]

/-- The registers that the handler finds. -/
theorem trapRegisters_of_ge (badVAddr : Word) (htarget : (target : ℕ) < 32) (hr : 32 ≤ (r : ℕ))
    (hr' : (r : ℕ) < 37) : trapRegisters registers target badVAddr r = registers r := by
  have hne : r ≠ BadVAddrReg := by
    rintro rfl
    exact absurd hr' (by decide)
  rw [trapRegisters, loadDelayed_of_ge _ _ _ htarget hr hr', Function.update_of_ne hne]

theorem trapRegisters_of_lt (badVAddr : Word) (hr : (r : ℕ) < 32) :
    trapRegisters registers target badVAddr r =
      if r = 0 then 0 else if r = target then registers LoadValueReg else registers r := by
  have hne : r ≠ BadVAddrReg := by
    rintro rfl
    exact absurd hr (by decide)
  rw [trapRegisters, loadDelayed_of_lt _ _ _ hr, Function.update_of_ne hne]
  rfl

end

/-- The register with the number in a word. -/
theorem eq_mk_toNat_iff {w : Word} (h : w.toNat < NumTotalRegs) (r : Fin NumTotalRegs) :
    r = ⟨w.toNat, h⟩ ↔ w = BitVec.ofNat 32 r := by
  constructor
  · rintro rfl
    rw [BitVec.ofNat_toNat, BitVec.setWidth_eq]
  · intro heq
    apply Fin.ext
    have hr : (r : ℕ) < 40 := r.isLt
    show (r : ℕ) = w.toNat
    rw [heq, BitVec.toNat_ofNat]
    omega

theorem precise_raiseException (hm : m.Ready) (h : Untouched m m₀) (which : ExceptionType)
    (badVAddr : Word) : ((raiseException which badVAddr : Sim α) m₀).Precise m Q := by
  have hload : (m₀.registers LoadReg).toNat < 32 := h.registers ▸ hm.loadReg
  have hlt : (m₀.registers LoadReg).toNat < NumTotalRegs := hload.trans (by decide)
  rw [raiseException_apply _ _ hlt]
  refine ⟨h.mainMemory, ?_, ?_, ?_⟩
  · intro r hr
    have hrange : 32 ≤ (r : ℕ) ∧ (r : ℕ) < 37 := by
      revert r
      decide
    rw [← h.registers]
    exact trapRegisters_of_ge _ _ hload hrange.1 hrange.2
  · intro r hr
    refine (trapRegisters_of_lt _ _ hr).trans ?_
    simp only [delivered, eq_mk_toNat_iff, h.registers]
  · refine ⟨?_, ?_, ?_⟩
    · show trapRegisters m₀.registers ⟨_, hlt⟩ badVAddr 0 = 0
      rw [trapRegisters_of_lt _ _ (by decide), if_pos rfl]
    · show (0 : Word).toNat < 32
      decide
    · exact h.confined.table_complete hm.table

/-- An access either traps or finds its place, and has done nothing else yet. -/
theorem precise_translateOrRaise (hm : m.Ready) (h : Untouched m m₀) (addr : Word)
    (writing : Bool) {size : ℕ} (hsize : size = 1 ∨ size = 2 ∨ size = 4) :
    (translateOrRaise addr size writing m₀).Precise m fun _ m₁ => Untouched m m₁ := by
  obtain ⟨t, ht, hcomplete⟩ := (hm.of_untouched h).table
  cases hout : translateOrRaise addr size writing m₀ with
  | ok physAddr m₁ =>
    have hconfined := (keeps_translateOrRaise addr size writing).confined hout
    obtain ⟨address, entry, -, -, hm₁⟩ := translateOrRaise_ok hout
    have hu : Untouched m₀ m₁ := ⟨by rw [hm₁], by rw [hm₁], hconfined⟩
    exact h.trans hu
  | trap which m₁ =>
    unfold translateOrRaise at hout
    split at hout
    · cases hout
    · next which' _ =>
      have hraise := precise_raiseException (Q := fun (_ : ℕ) m₁ => Untouched m m₁) hm h which' addr
      rw [hout] at hraise
      exact hraise
    · split at hout <;> cases hout
  | abort =>
    unfold translateOrRaise at hout
    split at hout
    · next hnone =>
      refine absurd hnone ?_
      have htable : m₀.pageTable.map m₀.tables = some t := ht
      rw [htable]
      exact translate_ne_none hcomplete hsize
    · next which' _ =>
      have hraise := precise_raiseException (Q := fun (_ : ℕ) m₁ => Untouched m m₁) hm h which' addr
      rw [hout] at hraise
      exact hraise
    · next hok =>
      split at hout
      · next hnull =>
        rw [Machine.table, hnull] at ht
        cases ht
      · cases hout

section

variable {f : Word → Sim β} {R : β → Machine → Prop} {r : Fin NumTotalRegs}

theorem precise_bind_reg (hf : (f (m₀.registers r) m₀).Precise m R) :
    ((reg r >>= f) m₀).Precise m R := hf

theorem precise_setReg {value : Word} (hr : (r : ℕ) < 34) (h : Worked m m₀) :
    (setReg r value m₀).Precise m fun _ m₁ => Worked m m₁ := by
  refine ⟨?_, h.confined.trans ((keeps_setReg r value) m₀)⟩
  intro s hs
  have hne : s ≠ r := by
    rintro rfl
    omega
  exact (Function.update_of_ne hne ..).trans (h.control s hs)

theorem precise_readMem (hm : m.Ready) (h : Untouched m m₀) (addr : Word) {size : ℕ}
    (hsize : size = 1 ∨ size = 2 ∨ size = 4) :
    (readMem addr size m₀).Precise m fun _ m₁ => Untouched m m₁ := by
  refine precise_bind (precise_translateOrRaise hm h addr false hsize) ?_
  intro physAddr m₁ h₁
  rcases hsize with rfl | rfl | rfl <;> exact h₁

theorem precise_writeMem (hm : m.Ready) (h : Untouched m m₀) {addr value : Word} {size : ℕ}
    (hsize : size = 1 ∨ size = 2 ∨ size = 4) :
    (writeMem addr size value m₀).Precise m fun _ m₁ => Worked m m₁ := by
  have hkeeps := keeps_writeMem addr size value m₀
  have htranslate := precise_translateOrRaise hm h addr true hsize
  cases hout : writeMem addr size value m₀ with
  | ok a m₁ =>
    rw [hout] at hkeeps
    obtain ⟨address, physAddr, entry, -, -, hm₁⟩ := writeMem_ok hout
    refine ⟨?_, h.confined.trans hkeeps⟩
    intro s hs
    rw [hm₁, h.registers]
  | trap which m₁ =>
    rw [writeMem_trap hsize hout] at htranslate
    exact htranslate
  | abort =>
    rw [writeMem_abort hsize hout] at htranslate
    exact htranslate

theorem precise_bind_effectiveAddress {instr : Instruction}
    (hf : (f (m₀.registers instr.rs + instr.extra) m₀).Precise m R) :
    ((effectiveAddress instr >>= f) m₀).Precise m R := hf

theorem precise_bind_pendingRt {instr : Instruction} (hf : ∀ value, (f value m₀).Precise m R) :
    ((pendingRt instr >>= f) m₀).Precise m R := by
  refine precise_bind (Q := fun _ m₁ => m₁ = m₀) ?_ ?_
  · apply precise_bind_reg
    split
    · exact rfl
    · exact rfl
  · intro value m₁ hm₁
    rw [hm₁]
    exact hf value

theorem precise_link (hr : (r : ℕ) < 34) (h : Worked m m₀) :
    (link r m₀).Precise m fun _ m₁ => Worked m m₁ :=
  precise_bind_reg (precise_setReg hr h)

theorem precise_done (h : Worked m m₀) {pcAfter : Word} :
    (done pcAfter m₀).Precise m (Completed m) := ⟨show (0 : Word).toNat < 32 by decide, h⟩

end

section Execute

variable {instr : Instruction} {pcAfter : Word}

theorem precise_load {value : Word} (hrt : (instr.rt : ℕ) < 32) (h : Worked m m₀) :
    (load instr value pcAfter m₀).Precise m (Completed m) := by
  refine ⟨?_, h⟩
  show (BitVec.ofNat 32 instr.rt).toNat < 32
  rw [BitVec.toNat_ofNat]
  omega

theorem precise_branchIf {taken : Bool} (h : Worked m m₀) :
    (branchIf instr pcAfter taken m₀).Precise m (Completed m) := by
  unfold branchIf
  split
  · exact precise_bind_reg (precise_done h)
  · exact precise_done h

/-- One register is written, and the instruction is over. -/
theorem precise_setReg_done {r : Fin NumTotalRegs} {value : Word} (hr : (r : ℕ) < 34)
    (h : Worked m m₀) : ((do setReg r value; done pcAfter : Sim Completion) m₀).Precise m
      (Completed m) :=
  precise_bind (precise_setReg hr h) fun _ _ h₁ => precise_done h₁

/-- A result that is stored unless it overflows. -/
theorem precise_checked (hm : m.Ready) (h : Untouched m m₀) {r : Fin NumTotalRegs} {value : Word}
    (hr : (r : ℕ) < 34) (overflow : Prop) [Decidable overflow] :
    ((if overflow then raiseException .overflowException 0
      else do setReg r value; done pcAfter : Sim Completion) m₀).Precise m (Completed m) := by
  split
  · exact precise_raiseException hm h _ _
  · exact precise_setReg_done hr h.worked

/-- Two registers are written, and the instruction is over. -/
theorem precise_setReg_setReg_done {r r' : Fin NumTotalRegs} {value value' : Word}
    (hr : (r : ℕ) < 34) (hr' : (r' : ℕ) < 34) (h : Worked m m₀) :
    ((do setReg r value; setReg r' value'; done pcAfter : Sim Completion) m₀).Precise m
      (Completed m) :=
  precise_bind (precise_setReg hr h) fun _ _ h₁ => precise_setReg_done hr' h₁

/-- A load from an address that is tested first. -/
theorem precise_checkedLoad (hm : m.Ready) (h : Untouched m m₀) (hrt : (instr.rt : ℕ) < 32)
    {addr : Word} {size : ℕ} (hsize : size = 1 ∨ size = 2 ∨ size = 4) (value : Word → Word)
    (bad : Prop) [Decidable bad] :
    ((if bad then raiseException .addressErrorException addr
      else do load instr (value (← readMem addr size)) pcAfter : Sim Completion) m₀).Precise m
      (Completed m) := by
  split
  · exact precise_raiseException hm h _ _
  · exact precise_bind (precise_readMem hm h _ hsize) fun _ _ h₁ => precise_load hrt h₁.worked

theorem precise_loadUnaligned (hm : m.Ready) (hrt : (instr.rt : ℕ) < 32)
    (merge : Word → Word → Word → Word) :
    (loadUnaligned instr pcAfter merge m).Precise m (Completed m) := by
  apply precise_bind_effectiveAddress
  apply precise_bind (precise_readMem hm (Untouched.refl m) _ (by decide))
  intro value m₁ h₁
  apply precise_bind_pendingRt
  intro old
  exact precise_load hrt h₁.worked

theorem precise_storeRt (hm : m.Ready) {size : ℕ} (hsize : size = 1 ∨ size = 2 ∨ size = 4) :
    (storeRt instr size m).Precise m fun _ m₁ => Worked m m₁ := by
  apply precise_bind_effectiveAddress
  apply precise_bind_reg
  exact precise_writeMem hm (Untouched.refl m) hsize

theorem precise_storeUnaligned (hm : m.Ready) (merge : Word → Word → Word → Word) :
    (storeUnaligned instr merge m).Precise m fun _ m₁ => Worked m m₁ := by
  apply precise_bind_effectiveAddress
  apply precise_bind (precise_readMem hm (Untouched.refl m) _ (by decide))
  intro value m₁ h₁
  apply precise_bind_reg
  exact precise_writeMem hm h₁ (by decide)

theorem precise_execute (hm : m.Ready) (hrt : (instr.rt : ℕ) < 32) (hrd : (instr.rd : ℕ) < 32)
    (hop : instr.opCode ≠ .rfe ∧ instr.opCode ≠ .special ∧ instr.opCode ≠ .bcond)
    (hdiv : ¬ (instr.opCode = .div ∧ m.registers instr.rs = SIGN_BIT ∧
      m.registers instr.rt = -1)) :
    (execute instr pcAfter m).Precise m (Completed m) := by
  have hu := Untouched.refl m
  have hrt' : (instr.rt : ℕ) < 34 := by omega
  have hrd' : (instr.rd : ℕ) < 34 := by omega
  obtain ⟨opCode, rs, rt, rd, extra⟩ := instr
  cases opCode with
  | addu | and | nor | or | sllv | slt | sltu | srav | srlv | subu | xor =>
    exact precise_setReg_done hrd' hu.worked
  | addiu | andi | lui | ori | slti | sltiu | xori => exact precise_setReg_done hrt' hu.worked
  | sll | sra | srl => exact precise_setReg_done hrd' hu.worked
  | add | sub => exact precise_checked hm hu hrd' _
  | addi => exact precise_checked hm hu hrt' _
  | beq | bne | bgez | bgtz | blez | bltz => exact precise_branchIf hu.worked
  | bgezal | bltzal =>
    apply precise_bind (precise_link (r := R31) (by decide) hu.worked)
    intro _ m₁ h₁
    exact precise_branchIf h₁
  | div =>
    apply precise_bind_reg
    apply precise_bind_reg
    split
    · exact precise_setReg_setReg_done (by decide) (by decide) hu.worked
    · split
      · next hfault => exact absurd ⟨rfl, hfault⟩ hdiv
      · exact precise_setReg_setReg_done (by decide) (by decide) hu.worked
  | divu =>
    apply precise_bind_reg
    apply precise_bind_reg
    split
    · exact precise_setReg_setReg_done (by decide) (by decide) hu.worked
    · exact precise_setReg_setReg_done (by decide) (by decide) hu.worked
  | jal =>
    exact precise_setReg_done (by decide) hu.worked
  | j => exact precise_done hu.worked
  | jalr =>
    apply precise_bind (precise_link hrd' hu.worked)
    intro _ m₁ h₁
    exact precise_done h₁
  | jr => exact precise_done hu.worked
  | lb | lbu =>
    apply precise_bind (precise_readMem hm hu _ (by decide))
    intro value m₁ h₁
    exact precise_load hrt h₁.worked
  | lh | lhu | lw =>
    exact precise_bind_effectiveAddress (precise_checkedLoad hm hu hrt (by decide) _ _)
  | lwl | lwr => exact precise_loadUnaligned hm hrt _
  | mfhi | mflo => exact precise_setReg_done hrd' hu.worked
  | mthi | mtlo => exact precise_setReg_done (by decide) hu.worked
  | mult | multu => exact precise_setReg_setReg_done (by decide) (by decide) hu.worked
  | sb | sh | sw =>
    exact precise_bind (precise_storeRt hm (by decide)) fun _ _ h₁ => precise_done h₁
  | swl | swr =>
    exact precise_bind (precise_storeUnaligned hm _) fun _ _ h₁ => precise_done h₁
  | syscall | res | unimp => exact precise_raiseException hm hu _ _
  | rfe => exact absurd rfl hop.1
  | special => exact absurd rfl hop.2.1
  | bcond => exact absurd rfl hop.2.2

end Execute

end Sim

theorem regField_lt (value : Word) (shift : ℕ) : (regField value shift : ℕ) < 32 :=
  (value.extractLsb' shift 5).isLt

/-- No word decodes to an opcode that the switch has no case for. -/
theorem decode_opCode (value : Word) : (decode value).opCode ≠ .rfe ∧
    (decode value).opCode ≠ .special ∧ (decode value).opCode ≠ .bcond := by
  have hop : ∀ i : Fin 64, (opTable.get i).1 ≠ .rfe := by decide
  have hspecial : ∀ i : Fin 64, specialTable.get i ≠ .rfe ∧ specialTable.get i ≠ .special ∧
      specialTable.get i ≠ .bcond := by decide
  have hop := hop (value.extractLsb' 26 6).toFin
  unfold decode
  generalize opTable.get (value.extractLsb' 26 6).toFin = entry at *
  obtain ⟨opCode, format⟩ := entry
  dsimp only at hop ⊢
  split
  · exact hspecial _
  · split_ifs <;> decide
  · next hs hb => exact ⟨hop, hs, hb⟩

/-- The instruction at the PC divides the least integer by -1, which the host does not survive. -/
def Machine.HostFault (m : Machine) : Prop :=
  ∃ raw m₁, Sim.readMem (m.registers PCReg) 4 m = .ok raw m₁ ∧ (decode raw).opCode = .div ∧
    m.registers (decode raw).rs = SIGN_BIT ∧ m.registers (decode raw).rt = -1

namespace Sim

variable {m : Machine}

/-- The end of `OneInstruction`, after the switch. -/
def finish (completion : Completion) : Sim Unit := do
  delayedLoad completion.nextLoadReg completion.nextLoadValue
  setReg PrevPCReg (← reg PCReg)
  setReg PCReg (← reg NextPCReg)
  setReg NextPCReg completion.pcAfter

theorem oneInstruction_eq : oneInstruction = (do
    let raw ← readMem (← reg PCReg) 4
    let completion ← execute (decode raw) ((← reg NextPCReg) + 4)
    finish completion) := rfl

/-- The registers of a completed instruction. -/
def finished (registers : Registers) (target : Fin NumTotalRegs) (completion : Completion) :
    Registers :=
  let loaded := loadDelayed registers target completion.nextLoadReg completion.nextLoadValue
  Function.update (Function.update (Function.update loaded PrevPCReg (loaded PCReg))
    PCReg (loaded NextPCReg)) NextPCReg completion.pcAfter

theorem finish_apply (completion : Completion) (h : (m.registers LoadReg).toNat < NumTotalRegs) :
    finish completion m =
      .ok () { m with registers := finished m.registers ⟨_, h⟩ completion } := by
  unfold finish
  rw [bind_apply, delayedLoad_apply _ _ h]
  rfl

theorem finished_zero (registers : Registers) (target : Fin NumTotalRegs)
    (completion : Completion) : finished registers target completion 0 = 0 := by
  simp [finished, loadDelayed, Function.update, PrevPCReg, PCReg, NextPCReg]

theorem finished_loadReg (registers : Registers) (target : Fin NumTotalRegs)
    (completion : Completion) :
    finished registers target completion LoadReg = completion.nextLoadReg := by
  simp [finished, loadDelayed, Function.update, PrevPCReg, PCReg, NextPCReg, LoadReg, LoadValueReg]

theorem finished_pc (registers : Registers) {target : Fin NumTotalRegs} (h : (target : ℕ) < 32)
    (completion : Completion) :
    finished registers target completion PCReg = registers NextPCReg := by
  refine Eq.trans ?_ (loadDelayed_of_ge registers completion.nextLoadReg completion.nextLoadValue h
    (by decide) (by decide))
  rfl

/-- The end of an instruction that completes. -/
theorem precise_finish {m₁ : Machine} {completion : Completion} (hm : m.Ready)
    (h : Completed m completion m₁) :
    (finish completion m₁).Precise m fun _ m' =>
      m'.Ready ∧ m'.registers PCReg = m.registers NextPCReg := by
  obtain ⟨hnext, hcontrol, hconfined⟩ := h
  have hload : (m₁.registers LoadReg).toNat < 32 := by
    rw [hcontrol LoadReg (by decide)]
    exact hm.loadReg
  have hlt : (m₁.registers LoadReg).toNat < NumTotalRegs := hload.trans (by decide)
  rw [finish_apply _ hlt]
  refine ⟨⟨?_, ?_, hconfined.table_complete hm.table⟩, ?_⟩
  · exact finished_zero m₁.registers ⟨_, hlt⟩ completion
  · show (finished m₁.registers ⟨_, hlt⟩ completion LoadReg).toNat < 32
    rw [finished_loadReg]
    exact hnext
  · rw [← hcontrol NextPCReg (by decide)]
    exact finished_pc m₁.registers hload completion

theorem precise_oneInstruction (hm : m.Ready) (hfault : ¬ m.HostFault) :
    (oneInstruction m).Precise m fun _ m' =>
      m'.Ready ∧ m'.registers PCReg = m.registers NextPCReg := by
  rw [oneInstruction_eq]
  apply precise_bind_reg
  have hfetch := precise_readMem hm (Untouched.refl m) (m.registers PCReg)
    (show 4 = 1 ∨ 4 = 2 ∨ 4 = 4 by decide)
  rw [bind_apply]
  cases hread : readMem (m.registers PCReg) 4 m with
  | ok raw m₁ =>
    rw [hread] at hfetch
    have hu : Untouched m m₁ := hfetch
    dsimp only
    apply precise_bind_reg
    apply precise_bind (Q := Completed m)
    · have hexecute : (execute (decode raw) (m₁.registers NextPCReg + 4) m₁).Precise m₁
          (Completed m₁) := by
        refine precise_execute (hm.of_untouched hu) (regField_lt raw 16) (regField_lt raw 11)
          (decode_opCode raw) ?_
        rw [hu.registers]
        exact fun hdiv => hfault ⟨raw, m₁, hread, hdiv⟩
      cases hout : execute (decode raw) (m₁.registers NextPCReg + 4) m₁ with
      | ok completion m₂ =>
        rw [hout] at hexecute
        exact ⟨hexecute.1, hexecute.2.of_untouched hu⟩
      | trap which m₂ =>
        rw [hout] at hexecute
        exact Trapped.of_untouched hu hexecute
      | abort =>
        rw [hout] at hexecute
        exact hexecute
    · intro completion m₂ h₂
      exact precise_finish hm h₂
  | trap which m₁ =>
    rw [hread] at hfetch
    exact hfetch
  | abort =>
    rw [hread] at hfetch
    exact hfetch

theorem execute_div_fault {instr : Instruction} {pcAfter : Word} (hop : instr.opCode = .div)
    (hrs : m.registers instr.rs = SIGN_BIT) (hrt : m.registers instr.rt = -1) :
    execute instr pcAfter m = .abort := by
  obtain ⟨opCode, rs, rt, rd, extra⟩ := instr
  cases hop
  simp only [execute, bind_apply, reg] at *
  rw [hrs, hrt]
  rfl

theorem oneInstruction_of_fault (hm : m.Ready) (hfault : m.HostFault) :
    oneInstruction m = .abort := by
  obtain ⟨raw, m₁, hread, hop, hrs, hrt⟩ := hfault
  have hu := precise_readMem hm (Untouched.refl m) (m.registers PCReg)
    (show 4 = 1 ∨ 4 = 2 ∨ 4 = 4 by decide)
  rw [hread] at hu
  have hregisters := hu.registers
  rw [← hregisters] at hrs hrt
  have heq : oneInstruction m = (do
      let completion ← execute (decode raw) (m₁.registers NextPCReg + 4)
      finish completion) m₁ := by
    have hbind : oneInstruction m = (readMem (m.registers PCReg) 4 >>= fun raw => do
        let completion ← execute (decode raw) ((← reg NextPCReg) + 4)
        finish completion) m := rfl
    rw [hbind, bind_apply, hread]
    rfl
  rw [heq, bind_apply, execute_div_fault hop hrs hrt]

/-- The machine can run on after an instruction, and after a trap. -/
theorem oneInstruction_ready (hm : m.Ready) :
    (∀ m', oneInstruction m = .ok () m' → m'.Ready) ∧
      ∀ which m', oneInstruction m = .trap which m' → m'.Ready := by
  by_cases hfault : m.HostFault
  · have habort := oneInstruction_of_fault hm hfault
    constructor
    · intro m' hok
      cases habort.symm.trans hok
    · intro which m' htrap
      cases habort.symm.trans htrap
  · have hprecise := precise_oneInstruction hm hfault
    constructor
    · intro m' hok
      rw [hok] at hprecise
      exact hprecise.1
    · intro which m' htrap
      rw [htrap] at hprecise
      exact hprecise.ready

end Sim

/-- Whatever the instruction, it completes or leaves everything as it was for the handler. The
only other way out is a division that the host machine itself refuses. -/
theorem precise_exceptions {m : Machine} (h : m.Ready) :
    (Sim.oneInstruction m = .abort ↔ m.HostFault) ∧
    (∀ m', Sim.oneInstruction m = .ok () m' →
      m'.Ready ∧ m'.registers PCReg = m.registers NextPCReg) ∧
    ∀ which m', Sim.oneInstruction m = .trap which m' → Trapped m m' := by
  by_cases hfault : m.HostFault
  · have habort := Sim.oneInstruction_of_fault h hfault
    refine ⟨iff_of_true habort hfault, ?_, ?_⟩
    · intro m' hok
      cases habort.symm.trans hok
    · intro which m' htrap
      cases habort.symm.trans htrap
  · have hprecise := Sim.precise_oneInstruction h hfault
    refine ⟨iff_of_false ?_ hfault, ?_, ?_⟩
    · intro habort
      rw [habort] at hprecise
      exact hprecise
    · intro m' hok
      rw [hok] at hprecise
      exact hprecise
    · intro which m' htrap
      rw [htrap] at hprecise
      exact hprecise

/-- The exception that an operation ends with, if any. -/
def Outcome.exception {α : Type} : Outcome α → Option ExceptionType
  | .trap which _ => some which
  | _ => none

theorem Outcome.exception_eq_some {α : Type} {o : Outcome α} {which : ExceptionType}
    (h : o.exception = some which) : ∃ m', o = .trap which m' := by
  cases o with
  | trap which' m' =>
    cases h
    exact ⟨m', rfl⟩
  | ok a m' => cases h
  | abort => cases h

/-- `add $3, $1, $2` with a sum that overflows, in the delay slot of a load of 42 into `$5`. -/
def overflowing : Machine where
  registers r :=
    if r = 1 ∨ r = 2 then 0x7fffffff else if r = LoadReg then 5
    else if r = LoadValueReg then 42 else if r = NextPCReg then 4 else 0
  mainMemory a := if a = 0 then 0x20 else if a = 1 then 0x18 else if a = 2 then 0x22 else 0
  pageTable := some 0
  pageTableSize := 1
  tables _ := [⟨0, 0, true, false, false, false⟩]

theorem precise_exceptions_overflowing :
    ∃ m', Sim.oneInstruction overflowing = .trap .overflowException m' ∧
      m'.registers 3 = 0 ∧ m'.registers 5 = 42 ∧ m'.registers PCReg = 0 ∧
      m'.mainMemory = overflowing.mainMemory := by
  have hready : overflowing.Ready := by
    refine ⟨by decide, by decide, ?_⟩
    exact ⟨[⟨0, 0, true, false, false, false⟩], rfl, le_rfl⟩
  have hview : (Sim.oneInstruction overflowing).exception = some .overflowException := by
    decide +kernel
  obtain ⟨m', htrap⟩ := Outcome.exception_eq_some hview
  have h := (precise_exceptions hready).2.2 _ _ htrap
  refine ⟨m', htrap, ?_, ?_, ?_, h.mainMemory⟩
  · rw [h.general 3 (by decide)]
    decide
  · rw [h.general 5 (by decide)]
    decide
  · rw [h.special PCReg (by decide)]
    decide

end Nachos

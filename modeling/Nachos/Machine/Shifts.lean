import Nachos.Machine.Executed

/-! The shift instructions. `SLL`, `SRA` and their variable forms are those of a MIPS machine.
`SRL` and `SRLV` shift an `int`, so they fill with the sign. -/
namespace Nachos

/-- The ways to shift a word. -/
inductive Shift where
  | left | logical | arithmetic
  deriving DecidableEq

/-- What the architecture makes of a word. -/
def Shift.result : Shift → Word → ℕ → Word
  | .left, word, amount => word <<< amount
  | .logical, word, amount => word >>> amount
  | .arithmetic, word, amount => word.sshiftRight amount

/-- How an instruction shifts, and whether it has the amount from a register. -/
def OpCode.shift : OpCode → Option (Shift × Bool)
  | .sll => some (.left, false)
  | .sllv => some (.left, true)
  | .srl => some (.logical, false)
  | .srlv => some (.logical, true)
  | .sra => some (.arithmetic, false)
  | .srav => some (.arithmetic, true)
  | _ => none

/-- The amount: five bits of the instruction, or the low five of `rs`. -/
def Machine.shiftAmount (m : Machine) (raw : Word) (fromRegister : Bool) : ℕ :=
  if fromRegister then (m.registers (decode raw).rs).toNat % 32 else (raw.extractLsb' 6 5).toNat

/-- The instruction puts the shifted `rt` in `rd`, and changes no other register. -/
def Machine.Shifts (m : Machine) (raw : Word) (shift : Shift) (fromRegister : Bool) : Prop :=
  ∃ m', Sim.oneInstruction m = .ok () m' ∧ m.Advanced [(decode raw).rd] m' ∧
    m'.registers (decode raw).rd =
      shift.result (m.registers (decode raw).rt) (m.shiftAmount raw fromRegister)

/-- What the simulator makes of a word. -/
def Shift.simulated : Shift → Word → ℕ → Word
  | .left, word, amount => word <<< amount
  | .logical, word, amount | .arithmetic, word, amount => word.sshiftRight amount

theorem toNat_and_31 (word : Word) : (word &&& 0x1f).toNat = word.toNat % 32 := by
  rw [BitVec.toNat_and]
  exact Nat.and_two_pow_sub_one_eq_mod _ 5

/-- The shift instructions are `SPECIAL`, so the amount is in bits 6 to 10. -/
theorem extra_of_shift {raw : Word} (h : (decode raw).opCode.shift ≠ none) :
    (decode raw).extra.toNat = (raw.extractLsb' 6 5).toNat := by
  have htable : ∀ i : Fin 64, (opTable.get i).1.shift = none ∧
      ((opTable.get i).1 = .special → (opTable.get i).2 = .rfmt) := by decide
  have hentry := htable (raw.extractLsb' 26 6).toFin
  unfold decode at h ⊢
  generalize opTable.get (raw.extractLsb' 26 6).toFin = entry at *
  obtain ⟨opCode, format⟩ := entry
  dsimp only at hentry h ⊢
  split at h
  · rw [hentry.2 rfl]
    dsimp only
    rw [toNat_and_31, BitVec.toNat_ushiftRight, BitVec.extractLsb'_toNat]
  · exfalso
    split_ifs at h <;> exact h rfl
  · exact absurd hentry.1 h

/-- Shifting in the sign is shifting in zeros unless there is a sign to shift. -/
theorem sshiftRight_eq_iff (word : Word) (amount : ℕ) :
    word.sshiftRight amount = word >>> amount ↔ word.msb = false ∨ amount = 0 := by
  constructor
  · intro heq
    by_contra hsign
    obtain ⟨hmsb, hamount⟩ := not_or.mp hsign
    have htop := congrArg (BitVec.getLsbD · 31) heq
    simp only [BitVec.getLsbD_sshiftRight, BitVec.getLsbD_ushiftRight] at htop
    rw [BitVec.getLsbD_of_ge word (amount + 31) (by omega), if_neg (by omega)] at htop
    exact hmsb (by simpa using htop)
  · rintro (hmsb | rfl)
    · exact BitVec.sshiftRight_eq_of_msb_false hmsb
    · rw [BitVec.sshiftRight_zero, BitVec.ushiftRight_zero]

theorem simulated_eq_iff (shift : Shift) (word : Word) (amount : ℕ) :
    shift.simulated word amount = shift.result word amount ↔
      shift ≠ .logical ∨ word.msb = false ∨ amount = 0 := by
  cases shift with
  | left => exact iff_of_true rfl (.inl (by decide))
  | arithmetic => exact iff_of_true rfl (.inl (by decide))
  | logical =>
    refine (sshiftRight_eq_iff word amount).trans ?_
    simp only [ne_eq, not_true_eq_false, false_or]

/-- The switch shifts `rt` into `rd`. -/
theorem execute_shift {m : Machine} {raw : Word} {shift : Shift} {fromRegister : Bool}
    (hop : (decode raw).opCode.shift = some (shift, fromRegister)) (pcAfter : Word) :
    Sim.execute (decode raw) pcAfter m = .ok ⟨0, 0, pcAfter⟩ { m with
      registers := Function.update m.registers (decode raw).rd
        (shift.simulated (m.registers (decode raw).rt) (m.shiftAmount raw fromRegister)) } := by
  have hextra := extra_of_shift (hop ▸ Option.some_ne_none _)
  have hrs := toNat_and_31 (m.registers (decode raw).rs)
  unfold Machine.shiftAmount
  rw [← hextra, ← hrs]
  generalize decode raw = instr at hop
  obtain ⟨opCode, rs, rt, rd, extra⟩ := instr
  cases opCode <;> cases hop <;> rfl

/-- Exactly the logical shifts of a negative word go wrong. -/
theorem shift_exact_iff {m : Machine} {raw : Word} {shift : Shift} {fromRegister : Bool}
    (hload : (m.registers LoadReg).toNat < 32) (hfetch : m.fetched = some raw)
    (hop : (decode raw).opCode.shift = some (shift, fromRegister)) (hrd : (decode raw).rd ≠ 0)
    (hpending : m.registers LoadReg ≠ BitVec.ofNat 32 (decode raw).rd) :
    m.Shifts raw shift fromRegister ↔
      shift ≠ .logical ∨ (m.registers (decode raw).rt).msb = false ∨
        m.shiftAmount raw fromRegister = 0 := by
  have hlt : ((decode raw).rd : ℕ) < 32 := regField_lt raw 11
  have hexecute (m₁ : Machine) (hregisters : m₁.registers = m.registers) :
      Sim.execute (decode raw) (m.registers NextPCReg + 4) m₁ =
        .ok ⟨0, 0, m.registers NextPCReg + 4⟩ { m₁ with
          registers := Function.update m.registers (decode raw).rd (shift.simulated
            (m.registers (decode raw).rt) (m.shiftAmount raw fromRegister)) } := by
    rw [execute_shift hop, Machine.shiftAmount, Machine.shiftAmount, hregisters]
  have htargets : ∀ r ∈ [(decode raw).rd], (r : ℕ) < 34 := by
    intro r hr
    rw [List.mem_singleton.mp hr]
    exact hlt.trans (by decide)
  obtain ⟨m', hok, hadvanced, hresult⟩ := Sim.oneInstruction_of_execute hload hfetch hexecute
    htargets fun r hr => Function.update_of_ne (fun heq => hr (List.mem_singleton.mpr heq)) ..
  have hvalue := hresult _ (List.mem_singleton.mpr rfl) hrd hpending
  rw [Function.update_self] at hvalue
  rw [← simulated_eq_iff]
  constructor
  · rintro ⟨m'', hok', -, heq⟩
    cases hok.symm.trans hok'
    exact hvalue.symm.trans heq
  · intro heq
    exact ⟨m', hok, hadvanced, hvalue.trans heq⟩

/-- A shift of `$1` to `$3` by one bit: `SLL`, `SRL` or `SRA` by the last byte. -/
def shifting (word : Word) (funct : UInt8) : Machine where
  registers r := if r = 1 then word else if r = NextPCReg then 4 else 0
  mainMemory a := if a = 0 then 0x40 + funct else if a = 1 then 0x18 else if a = 2 then 0x01 else 0
  pageTable := some 0
  pageTableSize := 1
  tables _ := [⟨0, 0, true, false, false, false⟩]

theorem shift_exact_iff_positive : (shifting 6 2).Shifts 0x00011842 .logical false := by
  have hfetch : (shifting 6 2).fetched = some 0x00011842 := by decide +kernel
  refine (shift_exact_iff (by decide) hfetch ?_ ?_ ?_).mpr (.inr (.inl ?_)) <;> decide +kernel

/-- `SRL` by one bit copies the sign. -/
theorem srl_negative : (shifting SIGN_BIT 2).fetched = some 0x00011842 ∧
    (decode 0x00011842).opCode = .srl ∧
    ¬ (shifting SIGN_BIT 2).Shifts 0x00011842 .logical false ∧
    ∃ m', Sim.oneInstruction (shifting SIGN_BIT 2) = .ok () m' ∧ m'.registers 3 = 0xc0000000 := by
  have hview : (Sim.oneInstruction (shifting SIGN_BIT 2)).machine.map (·.registers 3) =
      some 0xc0000000 := by decide +kernel
  obtain ⟨m', hm', hvalue⟩ := Option.map_eq_some_iff.mp hview
  have hok := Outcome.eq_ok hm'
  refine ⟨by decide +kernel, by decide, ?_, m', hok, hvalue⟩
  rintro ⟨m'', hok', -, heq⟩
  cases hok.symm.trans hok'
  have hwrong : m'.registers 3 = 0x40000000 := heq
  rw [hvalue] at hwrong
  exact absurd hwrong (by decide)

end Nachos

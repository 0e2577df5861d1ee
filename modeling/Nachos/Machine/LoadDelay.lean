import Nachos.Machine.Precise

/-! An interrupt applies the pending load at once, with `DelayedLoad(0, 0)` in `CheckIfDue`,
where the next instruction would have applied it later. A program that leaves a loaded register
alone in the delay slot cannot tell. Two runs are compared in lockstep: where one has the load
still pending, the other has it done. -/
namespace Nachos

/-- The general registers that an instruction reads. The old value that `LWL` and `LWR` merge
into is not among them. -/
def Instruction.reads (instr : Instruction) : List (Fin NumTotalRegs) :=
  match instr.opCode with
  | .add | .addu | .and | .beq | .bne | .div | .divu | .mult | .multu | .nor | .or | .sllv | .slt
  | .sltu | .srav | .srlv | .sub | .subu | .xor | .sb | .sh | .sw | .swl | .swr =>
    [instr.rs, instr.rt]
  | .addi | .addiu | .andi | .bgez | .bgezal | .bgtz | .blez | .bltz | .bltzal | .jalr | .jr
  | .lb | .lbu | .lh | .lhu | .lw | .lwl | .lwr | .mthi | .mtlo | .ori | .slti | .sltiu | .xori =>
    [instr.rs]
  | .sll | .sra | .srl => [instr.rt]
  | .j | .jal | .lui | .mfhi | .mflo | .rfe | .syscall | .unimp | .res | .special | .bcond => []

/-- The general registers that an instruction writes other than by a load. -/
def Instruction.writes (instr : Instruction) : List (Fin NumTotalRegs) :=
  match instr.opCode with
  | .add | .addu | .and | .jalr | .mfhi | .mflo | .nor | .or | .sll | .sllv | .slt | .sltu | .sra
  | .srav | .srl | .srlv | .sub | .subu | .xor => [instr.rd]
  | .addi | .addiu | .andi | .lui | .ori | .slti | .sltiu | .xori => [instr.rt]
  | .bgezal | .bltzal | .jal => [R31]
  | .beq | .bgez | .bgtz | .blez | .bltz | .bne | .div | .divu | .j | .jr | .lb | .lbu | .lh
  | .lhu | .lw | .lwl | .lwr | .mthi | .mtlo | .mult | .multu | .rfe | .sb | .sh | .sw | .swl
  | .swr | .syscall | .unimp | .res | .special | .bcond => []

namespace Machine

/-- `DelayedLoad(0, 0)`. -/
def flush (m : Machine) : Machine :=
  match Sim.delayedLoad 0 0 m with
  | .ok _ m' => m'
  | _ => m

/-- The word that the next instruction is decoded from. -/
def fetched (m : Machine) : Option Word :=
  match Sim.readMem (m.registers PCReg) 4 m with
  | .ok raw _ => some raw
  | _ => none

/-- The next instruction leaves the register of a pending load alone, except for another load
into it. -/
def HazardFree (m : Machine) : Prop :=
  ∀ raw ∈ m.fetched, ∀ p : Fin NumTotalRegs, m.registers LoadReg = BitVec.ofNat 32 p → p ≠ 0 →
    p ∉ (decode raw).reads ∧ p ∉ (decode raw).writes

/-- Machine `m'` is `m` with the pending load into `p` done. -/
structure Ahead (p : Fin NumTotalRegs) (m m' : Machine) : Prop where
  loadReg : m.registers LoadReg = BitVec.ofNat 32 p
  loadReg' : m'.registers LoadReg = 0
  loadValue' : m'.registers LoadValueReg = 0
  target : p ≠ 0 → m'.registers p = m.registers LoadValueReg
  others : ∀ r, r ≠ LoadReg → r ≠ LoadValueReg → (r = p → p = 0) → m'.registers r = m.registers r
  mainMemory : m'.mainMemory = m.mainMemory
  pageTable : m'.pageTable = m.pageTable
  pageTableSize : m'.pageTableSize = m.pageTableSize
  tables : m'.tables = m.tables

end Machine

open Machine

/-- Two outcomes that correspond: the values do, and a trap finds the same machine. -/
def Outcome.Corresponds {α : Type} (p : Fin NumTotalRegs) (A : α → α → Prop) :
    Outcome α → Outcome α → Prop
  | .ok a m, .ok a' m' => A a a' ∧ Ahead p m m'
  | .trap which m, .trap which' m' => which = which' ∧ m = m'
  | .abort, .abort => True
  | _, _ => False

/-- The ways in which two outcomes can correspond. -/
theorem Outcome.Corresponds.elim {α : Type} {p : Fin NumTotalRegs} {A : α → α → Prop}
    {o o' : Outcome α} (h : o.Corresponds p A o') :
    (∃ a a' m m', o = .ok a m ∧ o' = .ok a' m' ∧ A a a' ∧ Ahead p m m') ∨
    (∃ which m, o = .trap which m ∧ o' = .trap which m) ∨ (o = .abort ∧ o' = .abort) := by
  cases o with
  | ok a m =>
    cases o' with
    | ok a' m' => exact .inl ⟨a, a', m, m', rfl, rfl, h⟩
    | trap which' m' => exact False.elim h
    | abort => exact False.elim h
  | trap which m =>
    cases o' with
    | ok a' m' => exact False.elim h
    | trap which' m' =>
      obtain ⟨rfl, rfl⟩ := h
      exact .inr (.inl ⟨which, m, rfl, rfl⟩)
    | abort => exact False.elim h
  | abort =>
    cases o' with
    | ok a' m' => exact False.elim h
    | trap which' m' => exact False.elim h
    | abort => exact .inr (.inr ⟨rfl, rfl⟩)

namespace Sim

variable {α β : Type} {p r : Fin NumTotalRegs} {m m' : Machine} {A : α → α → Prop}
  {B : β → β → Prop}

theorem corresponds_bind {x x' : Sim α} {f f' : α → Sim β}
    (hx : (x m).Corresponds p A (x' m'))
    (hf : ∀ a a' m₁ m₁', A a a' → Ahead p m₁ m₁' → (f a m₁).Corresponds p B (f' a' m₁')) :
    ((x >>= f) m).Corresponds p B ((x' >>= f') m') := by
  rw [bind_apply, bind_apply]
  obtain ⟨a, a', m₁, m₁', ho, ho', ha, h₁⟩ | ⟨which, m₁, ho, ho'⟩ | ⟨ho, ho'⟩ := hx.elim
  · rw [ho, ho']
    exact hf a a' m₁ m₁' ha h₁
  · rw [ho, ho']
    exact ⟨rfl, rfl⟩
  · rw [ho, ho']
    trivial

/-- A register that a pending load into `p` does not concern. -/
structure Apart (p r : Fin NumTotalRegs) : Prop where
  loadReg : r ≠ LoadReg
  loadValueReg : r ≠ LoadValueReg
  target : r = p → p = 0

theorem corresponds_setReg (h : Ahead p m m') (hr : Apart p r) (value : Word) :
    (setReg r value m).Corresponds p (fun _ _ => True) (setReg r value m') := by
  refine ⟨trivial, ?_, ?_, ?_, ?_, ?_, h.mainMemory, h.pageTable, h.pageTableSize, h.tables⟩
  · exact (Function.update_of_ne hr.loadReg.symm ..).trans h.loadReg
  · exact (Function.update_of_ne hr.loadReg.symm ..).trans h.loadReg'
  · exact (Function.update_of_ne hr.loadValueReg.symm ..).trans h.loadValue'
  · intro hp
    have hne : p ≠ r := by
      rintro rfl
      exact hp (hr.target rfl)
    refine (Function.update_of_ne hne ..).trans ((h.target hp).trans ?_)
    exact (Function.update_of_ne hr.loadValueReg.symm ..).symm
  · intro s hs hs' hp
    show Function.update m'.registers r value s = Function.update m.registers r value s
    by_cases hsr : s = r
    · rw [hsr, Function.update_self, Function.update_self]
    · rw [Function.update_of_ne hsr, Function.update_of_ne hsr]
      exact h.others s hs hs' hp

theorem loadDelayed_apply (registers : Registers) (target : Fin NumTotalRegs)
    (nextReg nextValue : Word) (s : Fin NumTotalRegs) :
    loadDelayed registers target nextReg nextValue s =
      if s = 0 then 0 else if s = LoadValueReg then nextValue else if s = LoadReg then nextReg
      else if s = target then registers LoadValueReg else registers s := by
  simp only [loadDelayed, Function.update_apply]

/-- The load that is done and the one that is done now come to the same. -/
theorem loadDelayed_ahead (h : Ahead p m m') (nextReg nextValue : Word) :
    loadDelayed m'.registers 0 nextReg nextValue = loadDelayed m.registers p nextReg nextValue := by
  funext s
  rw [loadDelayed_apply, loadDelayed_apply]
  split_ifs with h0 hv hl ht
  · rfl
  · rfl
  · rfl
  · rw [ht]
    exact h.target fun hp => h0 (ht.trans hp)
  · exact h.others s hl hv fun hs => absurd hs ht

/-- The number of the register in a word. -/
theorem target_eq {w : Word} {q : Fin NumTotalRegs} (h : w = BitVec.ofNat 32 q)
    (hlt : w.toNat < NumTotalRegs) : (⟨w.toNat, hlt⟩ : Fin NumTotalRegs) = q :=
  ((eq_mk_toNat_iff hlt q).mpr h).symm

theorem toNat_lt_of_eq {w : Word} {q : Fin NumTotalRegs} (h : w = BitVec.ofNat 32 q) :
    w.toNat < NumTotalRegs := by
  have hq : (q : ℕ) < 40 := q.isLt
  rw [h, BitVec.toNat_ofNat]
  show _ < 40
  omega

theorem delayedLoad_target {q : Fin NumTotalRegs} (h : m.registers LoadReg = BitVec.ofNat 32 q)
    (nextReg nextValue : Word) : delayedLoad nextReg nextValue m =
      .ok () { m with registers := Sim.loadDelayed m.registers q nextReg nextValue } := by
  rw [delayedLoad_apply _ _ (toNat_lt_of_eq h), target_eq h]

/-- Machines that differ in their registers only. -/
theorem with_registers_ahead (h : Ahead p m m') {registers registers' : Registers}
    (heq : registers' = registers) :
    { m with registers := registers } = { m' with registers := registers' } := by
  rw [heq, h.mainMemory, h.pageTable, h.pageTableSize, h.tables]

theorem corresponds_raiseException (h : Ahead p m m') (hp : (p : ℕ) < 32) (which : ExceptionType)
    (badVAddr : Word) : ((raiseException which badVAddr : Sim α) m).Corresponds p A
      ((raiseException which badVAddr : Sim α) m') := by
  have hbad : Apart p BadVAddrReg := by
    refine ⟨by decide, by decide, ?_⟩
    rintro rfl
    exact absurd hp (by decide)
  obtain ⟨-, h₁⟩ := corresponds_setReg h hbad badVAddr
  rw [raiseException_apply _ _ (toNat_lt_of_eq h.loadReg),
    raiseException_apply _ _ (toNat_lt_of_eq (q := 0) h.loadReg'), target_eq h.loadReg,
    target_eq (q := 0) h.loadReg']
  exact ⟨rfl, with_registers_ahead h (loadDelayed_ahead h₁ 0 0)⟩

/-- Both machines have the same table, so an access finds the same place. -/
theorem corresponds_translateOrRaise (h : Ahead p m m') (hp : (p : ℕ) < 32) (addr : Word)
    (size : ℕ) (writing : Bool) :
    (translateOrRaise addr size writing m).Corresponds p (· = ·)
      (translateOrRaise addr size writing m') := by
  unfold translateOrRaise
  rw [h.pageTable, h.pageTableSize, h.tables]
  split
  · trivial
  · exact corresponds_raiseException h hp _ _
  · split
    · trivial
    · exact ⟨rfl, h.loadReg, h.loadReg', h.loadValue', h.target, h.others, h.mainMemory, rfl, rfl,
        rfl⟩

theorem corresponds_readMem (h : Ahead p m m') (hp : (p : ℕ) < 32) (addr : Word) (size : ℕ) :
    (readMem addr size m).Corresponds p (· = ·) (readMem addr size m') := by
  refine corresponds_bind (corresponds_translateOrRaise h hp addr size false) ?_
  rintro physAddr - m₁ m₁' rfl h₁
  rw [bind_apply, bind_apply]
  dsimp only [get]
  rw [h₁.mainMemory]
  split
  · exact ⟨rfl, h₁⟩
  · exact ⟨rfl, h₁⟩
  · exact ⟨rfl, h₁⟩
  · trivial

theorem corresponds_writeMem (h : Ahead p m m') (hp : (p : ℕ) < 32) (addr : Word) (size : ℕ)
    (value : Word) : (writeMem addr size value m).Corresponds p (fun _ _ => True)
      (writeMem addr size value m') := by
  refine corresponds_bind (corresponds_translateOrRaise h hp addr size true) ?_
  rintro physAddr - m₁ m₁' rfl h₁
  have hstore (q : ByteStore.Patch) :
      (store q m₁).Corresponds p (fun _ _ => True) (store q m₁') := by
    refine ⟨trivial, h₁.loadReg, h₁.loadReg', h₁.loadValue', h₁.target, h₁.others, ?_,
      h₁.pageTable, h₁.pageTableSize, h₁.tables⟩
    show ByteStore.patch m₁'.mainMemory q = ByteStore.patch m₁.mainMemory q
    rw [h₁.mainMemory]
  split
  · exact hstore _
  · exact hstore _
  · exact hstore _
  · trivial

theorem ofNat_inj {q s : Fin NumTotalRegs} (h : BitVec.ofNat 32 q = BitVec.ofNat 32 s) :
    q = s := by
  have hq : (q : ℕ) < 40 := q.isLt
  have hs : (s : ℕ) < 40 := s.isLt
  have hnat := congrArg BitVec.toNat h
  rw [BitVec.toNat_ofNat, BitVec.toNat_ofNat] at hnat
  apply Fin.ext
  omega

/-- The old value that `LWL` and `LWR` merge into is the one that is pending, unless the target
is register 0, whose value does not matter. -/
theorem corresponds_pendingRt (h : Ahead p m m') {instr : Instruction}
    (hrt : (instr.rt : ℕ) < 32) :
    (pendingRt instr m).Corresponds p (fun a a' => instr.rt ≠ 0 → a = a')
      (pendingRt instr m') := by
  have hdo (m : Machine) : pendingRt instr m =
      .ok (if m.registers LoadReg = BitVec.ofNat 32 instr.rt then m.registers LoadValueReg
        else m.registers instr.rt) m := by
    have hbind : pendingRt instr m = (if m.registers LoadReg = BitVec.ofNat 32 instr.rt
      then reg LoadValueReg else reg instr.rt) m := rfl
    rw [hbind]
    split_ifs <;> rfl
  rw [hdo, hdo]
  refine ⟨?_, h⟩
  intro hne
  have hload' : m'.registers LoadReg ≠ BitVec.ofNat 32 instr.rt := by
    rw [h.loadReg']
    intro heq
    exact hne (ofNat_inj (q := 0) heq).symm
  rw [if_neg hload', h.loadReg]
  split_ifs with hp
  · obtain rfl := ofNat_inj hp
    exact (h.target hne).symm
  · refine (h.others instr.rt ?_ ?_ ?_).symm
    · intro heq
      rw [heq] at hrt
      exact absurd hrt (by decide)
    · intro heq
      rw [heq] at hrt
      exact absurd hrt (by decide)
    · intro heq
      rw [heq] at hp
      exact absurd rfl hp

/-- Completions that lead to the same registers. -/
def SameLoad (c c' : Completion) : Prop :=
  c.nextLoadReg = c'.nextLoadReg ∧ c.pcAfter = c'.pcAfter ∧
    (c.nextLoadReg ≠ 0 → c.nextLoadValue = c'.nextLoadValue)

theorem corresponds_done (h : Ahead p m m') (pcAfter : Word) :
    (done pcAfter m).Corresponds p SameLoad (done pcAfter m') := ⟨⟨rfl, rfl, fun _ => rfl⟩, h⟩

theorem corresponds_load (h : Ahead p m m') (instr : Instruction) {value value' : Word}
    (hvalue : instr.rt ≠ 0 → value = value') (pcAfter : Word) :
    (load instr value pcAfter m).Corresponds p SameLoad (load instr value' pcAfter m') := by
  refine ⟨⟨rfl, rfl, ?_⟩, h⟩
  intro hne
  apply hvalue
  intro hrt
  apply hne
  show BitVec.ofNat 32 instr.rt = 0
  rw [hrt]
  rfl

section Execute

variable {instr : Instruction} {pcAfter : Word}

/-- A register of the instruction that the program does not use while it is being loaded. -/
theorem apart_of_mem {l : List (Fin NumTotalRegs)} (hp : p ≠ 0 → p ∉ l) (hr : r ∈ l)
    (hlt : (r : ℕ) < 32) : Apart p r := by
  refine ⟨?_, ?_, ?_⟩
  · rintro rfl
    exact absurd hlt (by decide)
  · rintro rfl
    exact absurd hlt (by decide)
  · rintro rfl
    by_contra hne
    exact hp hne hr

/-- The registers that no load has as its target. -/
theorem apart_special (hp : (p : ℕ) < 32) (hr : 32 ≤ (r : ℕ) ∧ (r : ℕ) < 37) : Apart p r := by
  refine ⟨?_, ?_, ?_⟩
  · rintro rfl
    exact absurd hr.2 (by decide)
  · rintro rfl
    exact absurd hr.2 (by decide)
  · rintro rfl
    omega

theorem corresponds_bind_reg {f f' : Word → Sim β} (h : Ahead p m m') (hr : Apart p r)
    (hf : ∀ value, (f value m).Corresponds p B (f' value m')) :
    ((reg r >>= f) m).Corresponds p B ((reg r >>= f') m') := by
  have hvalue : m'.registers r = m.registers r := h.others r hr.loadReg hr.loadValueReg hr.target
  show (f (m.registers r) m).Corresponds p B (f' (m'.registers r) m')
  rw [hvalue]
  exact hf _

theorem corresponds_then_done {x : Sim Unit}
    (hx : (x m).Corresponds p (fun _ _ => True) (x m')) :
    ((do x; done pcAfter : Sim Completion) m).Corresponds p SameLoad
      ((do x; done pcAfter : Sim Completion) m') :=
  corresponds_bind hx fun _ _ _ _ _ h₁ => corresponds_done h₁ pcAfter

theorem corresponds_setReg_setReg_done {s : Fin NumTotalRegs} (h : Ahead p m m') (hr : Apart p r)
    (hs : Apart p s) (value value' : Word) :
    ((do setReg r value; setReg s value'; done pcAfter : Sim Completion) m).Corresponds p SameLoad
      ((do setReg r value; setReg s value'; done pcAfter : Sim Completion) m') :=
  corresponds_bind (corresponds_setReg h hr value) fun _ _ _ _ _ h₁ =>
    corresponds_then_done (corresponds_setReg h₁ hs value')

theorem corresponds_setRd (h : Ahead p m m') (hrs : Apart p instr.rs) (hrt : Apart p instr.rt)
    (hrd : Apart p instr.rd) (f : Word → Word → Word) :
    (setRd instr f m).Corresponds p (fun _ _ => True) (setRd instr f m') :=
  corresponds_bind_reg h hrs fun _ => corresponds_bind_reg h hrt fun _ =>
    corresponds_setReg h hrd _

theorem corresponds_setRt (h : Ahead p m m') (hrs : Apart p instr.rs) (hrt : Apart p instr.rt)
    (f : Word → Word → Word) :
    (setRt instr f m).Corresponds p (fun _ _ => True) (setRt instr f m') :=
  corresponds_bind_reg h hrs fun _ => corresponds_setReg h hrt _

theorem corresponds_shiftRd (h : Ahead p m m') (hrt : Apart p instr.rt) (hrd : Apart p instr.rd)
    (f : Word → Word → Word) :
    (shiftRd instr f m).Corresponds p (fun _ _ => True) (shiftRd instr f m') :=
  corresponds_bind_reg h hrt fun _ => corresponds_setReg h hrd _

theorem corresponds_link (h : Ahead p m m') (hp : (p : ℕ) < 32) (hr : Apart p r) :
    (link r m).Corresponds p (fun _ _ => True) (link r m') :=
  corresponds_bind_reg h (apart_special hp (by decide)) fun _ => corresponds_setReg h hr _

theorem corresponds_branchIf (h : Ahead p m m') (hp : (p : ℕ) < 32) (taken : Bool) :
    (branchIf instr pcAfter taken m).Corresponds p SameLoad (branchIf instr pcAfter taken m') := by
  unfold branchIf
  split
  · exact corresponds_bind_reg h (apart_special hp (by decide)) fun _ => corresponds_done h _
  · exact corresponds_done h _

theorem corresponds_effectiveAddress (h : Ahead p m m') (hrs : Apart p instr.rs) :
    (effectiveAddress instr m).Corresponds p (· = ·) (effectiveAddress instr m') :=
  corresponds_bind_reg h hrs fun _ => ⟨rfl, h⟩

theorem corresponds_checked (h : Ahead p m m') (hp : (p : ℕ) < 32) (hr : Apart p r) (value : Word)
    (overflow : Prop) [Decidable overflow] :
    ((if overflow then raiseException .overflowException 0
      else do setReg r value; done pcAfter : Sim Completion) m).Corresponds p SameLoad
    ((if overflow then raiseException .overflowException 0
      else do setReg r value; done pcAfter : Sim Completion) m') := by
  split
  · exact corresponds_raiseException h hp _ _
  · exact corresponds_then_done (corresponds_setReg h hr _)

theorem corresponds_readMem_load (h : Ahead p m m') (hp : (p : ℕ) < 32) (addr : Word) (size : ℕ)
    (value : Word → Word) :
    ((do load instr (value (← readMem addr size)) pcAfter : Sim Completion) m).Corresponds p
      SameLoad
    ((do load instr (value (← readMem addr size)) pcAfter : Sim Completion) m') := by
  apply corresponds_bind (corresponds_readMem h hp addr size)
  rintro word - m₁ m₁' rfl h₁
  exact corresponds_load h₁ instr (fun _ => rfl) pcAfter

theorem corresponds_checkedLoad (h : Ahead p m m') (hp : (p : ℕ) < 32) (addr : Word) (size : ℕ)
    (value : Word → Word) (bad : Prop) [Decidable bad] :
    ((if bad then raiseException .addressErrorException addr
      else do load instr (value (← readMem addr size)) pcAfter : Sim Completion) m).Corresponds p
      SameLoad
    ((if bad then raiseException .addressErrorException addr
      else do load instr (value (← readMem addr size)) pcAfter : Sim Completion) m') := by
  split
  · exact corresponds_raiseException h hp _ _
  · exact corresponds_readMem_load h hp addr size value

theorem corresponds_loadUnaligned (h : Ahead p m m') (hp : (p : ℕ) < 32) (hrs : Apart p instr.rs)
    (hrt : (instr.rt : ℕ) < 32) (merge : Word → Word → Word → Word) :
    (loadUnaligned instr pcAfter merge m).Corresponds p SameLoad
      (loadUnaligned instr pcAfter merge m') := by
  apply corresponds_bind (corresponds_effectiveAddress h hrs)
  rintro tmp - m₁ m₁' rfl h₁
  apply corresponds_bind (corresponds_readMem h₁ hp _ _)
  rintro word - m₂ m₂' rfl h₂
  apply corresponds_bind (corresponds_pendingRt h₂ hrt)
  intro old old' m₃ m₃' hold h₃
  apply corresponds_load h₃
  intro hne
  rw [hold hne]

theorem corresponds_storeRt (h : Ahead p m m') (hp : (p : ℕ) < 32) (hrs : Apart p instr.rs)
    (hrt : Apart p instr.rt) (size : ℕ) :
    (storeRt instr size m).Corresponds p (fun _ _ => True) (storeRt instr size m') := by
  apply corresponds_bind (corresponds_effectiveAddress h hrs)
  rintro addr - m₁ m₁' rfl h₁
  exact corresponds_bind_reg h₁ hrt fun _ => corresponds_writeMem h₁ hp _ _ _

theorem corresponds_storeUnaligned (h : Ahead p m m') (hp : (p : ℕ) < 32)
    (hrs : Apart p instr.rs) (hrt : Apart p instr.rt) (merge : Word → Word → Word → Word) :
    (storeUnaligned instr merge m).Corresponds p (fun _ _ => True)
      (storeUnaligned instr merge m') := by
  apply corresponds_bind (corresponds_effectiveAddress h hrs)
  rintro tmp - m₁ m₁' rfl h₁
  apply corresponds_bind (corresponds_readMem h₁ hp _ _)
  rintro word - m₂ m₂' rfl h₂
  exact corresponds_bind_reg h₂ hrt fun _ => corresponds_writeMem h₂ hp _ _ _

/-- Every case of the switch, when the instruction leaves the register that is being loaded
alone. -/
theorem corresponds_execute (h : Ahead p m m') (hp : (p : ℕ) < 32)
    (hrs : (instr.rs : ℕ) < 32) (hrt : (instr.rt : ℕ) < 32) (hrd : (instr.rd : ℕ) < 32)
    (hreads : p ≠ 0 → p ∉ instr.reads) (hwrites : p ≠ 0 → p ∉ instr.writes) :
    (execute instr pcAfter m).Corresponds p SameLoad (execute instr pcAfter m') := by
  have hhi : Apart p HiReg := apart_special hp (by decide)
  have hlo : Apart p LoReg := apart_special hp (by decide)
  have hfirst {l : List (Fin NumTotalRegs)} {q : Fin NumTotalRegs} (hl : p ≠ 0 → p ∉ q :: l)
      (hq : (q : ℕ) < 32) : Apart p q := apart_of_mem hl List.mem_cons_self hq
  have hsecond {l : List (Fin NumTotalRegs)} {q q' : Fin NumTotalRegs}
      (hl : p ≠ 0 → p ∉ q' :: q :: l) (hq : (q : ℕ) < 32) : Apart p q :=
    apart_of_mem hl (List.mem_cons_of_mem _ List.mem_cons_self) hq
  obtain ⟨opCode, rs, rt, rd, extra⟩ := instr
  cases opCode with
  | addu | and | nor | or | sllv | slt | sltu | srav | srlv | subu | xor =>
    exact corresponds_then_done (corresponds_setRd h (hfirst hreads hrs) (hsecond hreads hrt)
      (hfirst hwrites hrd) _)
  | addiu | andi | ori | slti | sltiu | xori =>
    exact corresponds_then_done (corresponds_setRt h (hfirst hreads hrs) (hfirst hwrites hrt) _)
  | lui =>
    exact corresponds_then_done (corresponds_setReg h (hfirst hwrites hrt) _)
  | sll | sra | srl =>
    exact corresponds_then_done (corresponds_shiftRd h (hfirst hreads hrt) (hfirst hwrites hrd) _)
  | add | sub =>
    exact corresponds_bind_reg h (hfirst hreads hrs) fun _ =>
      corresponds_bind_reg h (hsecond hreads hrt) fun _ =>
        corresponds_checked h hp (hfirst hwrites hrd) _ _
  | addi =>
    exact corresponds_bind_reg h (hfirst hreads hrs) fun _ =>
      corresponds_checked h hp (hfirst hwrites hrt) _ _
  | beq | bne =>
    exact corresponds_bind_reg h (hfirst hreads hrs) fun _ =>
      corresponds_bind_reg h (hsecond hreads hrt) fun _ => corresponds_branchIf h hp _
  | bgez | bgtz | blez | bltz =>
    exact corresponds_bind_reg h (hfirst hreads hrs) fun _ => corresponds_branchIf h hp _
  | bgezal | bltzal =>
    apply corresponds_bind (corresponds_link h hp (hfirst hwrites (by decide)))
    intro _ _ m₁ m₁' _ h₁
    exact corresponds_bind_reg h₁ (hfirst hreads hrs) fun _ => corresponds_branchIf h₁ hp _
  | div =>
    apply corresponds_bind_reg h (hfirst hreads hrs)
    intro dividend
    apply corresponds_bind_reg h (hsecond hreads hrt)
    intro divisor
    split
    · exact corresponds_setReg_setReg_done h hlo hhi _ _
    · split
      · trivial
      · apply corresponds_bind (corresponds_setReg h hlo _)
        intro _ _ m₁ m₁' _ h₁
        apply corresponds_bind_reg h₁ (hfirst hreads hrs)
        intro dividend
        apply corresponds_bind_reg h₁ (hsecond hreads hrt)
        intro divisor
        exact corresponds_then_done (corresponds_setReg h₁ hhi _)
  | divu =>
    apply corresponds_bind_reg h (hfirst hreads hrs)
    intro dividend
    apply corresponds_bind_reg h (hsecond hreads hrt)
    intro divisor
    split
    · exact corresponds_setReg_setReg_done h hlo hhi _ _
    · exact corresponds_setReg_setReg_done h hlo hhi _ _
  | jal => exact corresponds_then_done (corresponds_link h hp (hfirst hwrites (by decide)))
  | j => exact corresponds_done h _
  | jalr =>
    apply corresponds_bind (corresponds_link h hp (hfirst hwrites hrd))
    intro _ _ m₁ m₁' _ h₁
    exact corresponds_bind_reg h₁ (hfirst hreads hrs) fun _ => corresponds_done h₁ _
  | jr => exact corresponds_bind_reg h (hfirst hreads hrs) fun _ => corresponds_done h _
  | lb | lbu =>
    apply corresponds_bind (corresponds_effectiveAddress h (hfirst hreads hrs))
    rintro addr - m₁ m₁' rfl h₁
    exact corresponds_readMem_load h₁ hp _ _ _
  | lh | lhu | lw =>
    apply corresponds_bind (corresponds_effectiveAddress h (hfirst hreads hrs))
    rintro addr - m₁ m₁' rfl h₁
    exact corresponds_checkedLoad h₁ hp _ _ _ _
  | lwl | lwr => exact corresponds_loadUnaligned h hp (hfirst hreads hrs) hrt _
  | mfhi =>
    exact corresponds_bind_reg h hhi fun _ =>
      corresponds_then_done (corresponds_setReg h (hfirst hwrites hrd) _)
  | mflo =>
    exact corresponds_bind_reg h hlo fun _ =>
      corresponds_then_done (corresponds_setReg h (hfirst hwrites hrd) _)
  | mthi =>
    exact corresponds_bind_reg h (hfirst hreads hrs) fun _ =>
      corresponds_then_done (corresponds_setReg h hhi _)
  | mtlo =>
    exact corresponds_bind_reg h (hfirst hreads hrs) fun _ =>
      corresponds_then_done (corresponds_setReg h hlo _)
  | mult | multu =>
    apply corresponds_bind_reg h (hfirst hreads hrs)
    intro a
    apply corresponds_bind_reg h (hsecond hreads hrt)
    intro b
    exact corresponds_setReg_setReg_done h hhi hlo _ _
  | sb | sh | sw =>
    exact corresponds_then_done
      (corresponds_storeRt h hp (hfirst hreads hrs) (hsecond hreads hrt) _)
  | swl | swr =>
    exact corresponds_then_done
      (corresponds_storeUnaligned h hp (hfirst hreads hrs) (hsecond hreads hrt) _)
  | syscall | res | unimp => exact corresponds_raiseException h hp _ _
  | rfe | special | bcond => trivial

end Execute

/-- Two completed instructions leave the same registers, but for the value of a load into
register 0. -/
theorem finished_ahead (h : Ahead p m m') {c c' : Completion} (hc : SameLoad c c')
    {s : Fin NumTotalRegs} (hs : s = LoadValueReg → c.nextLoadReg ≠ 0) :
    finished m'.registers 0 c' s = finished m.registers p c s := by
  have hloaded (q : Fin NumTotalRegs) (hq : q = LoadValueReg → c.nextLoadReg ≠ 0) :
      loadDelayed m'.registers 0 c'.nextLoadReg c'.nextLoadValue q =
        loadDelayed m.registers p c.nextLoadReg c.nextLoadValue q := by
    rw [loadDelayed_ahead h, loadDelayed_apply, loadDelayed_apply, hc.1]
    by_cases hv : q = LoadValueReg
    · rw [hc.2.2 (hq hv)]
    · rw [if_neg hv, if_neg hv]
  have hpc := hloaded PCReg fun heq => absurd heq (by decide)
  have hnext := hloaded NextPCReg fun heq => absurd heq (by decide)
  simp only [finished, Function.update_apply, hpc, hnext, hc.2.1, hloaded s hs]

end Sim

namespace Machine

variable {p : Fin NumTotalRegs} {m m' : Machine}

theorem flush_target (h : m.registers LoadReg = BitVec.ofNat 32 p) :
    m.flush = { m with registers := Sim.loadDelayed m.registers p 0 0 } := by
  rw [flush, Sim.delayedLoad_target h]

theorem Ready.exists_target (h : m.Ready) : ∃ p : Fin NumTotalRegs, (p : ℕ) < 32 ∧
    m.registers LoadReg = BitVec.ofNat 32 p := by
  refine ⟨⟨(m.registers LoadReg).toNat, h.loadReg.trans (by decide)⟩, h.loadReg, ?_⟩
  rw [BitVec.ofNat_toNat, BitVec.setWidth_eq]

theorem Ready.ahead_flush (h : m.Ready) (hp : (p : ℕ) < 32)
    (hload : m.registers LoadReg = BitVec.ofNat 32 p) : Ahead p m m.flush := by
  have hvalue : p ≠ LoadValueReg := by
    rintro rfl
    exact absurd hp (by decide)
  have hreg : p ≠ LoadReg := by
    rintro rfl
    exact absurd hp (by decide)
  rw [flush_target hload]
  refine ⟨hload, rfl, rfl, ?_, ?_, rfl, rfl, rfl, rfl⟩
  · intro hne
    show Sim.loadDelayed m.registers p 0 0 p = m.registers LoadValueReg
    rw [Sim.loadDelayed_apply, if_neg hne, if_neg hvalue, if_neg hreg, if_pos rfl]
  · intro r hr hv hrp
    show Sim.loadDelayed m.registers p 0 0 r = m.registers r
    rw [Sim.loadDelayed_apply]
    split_ifs with h0 hrp'
    · rw [h0, h.zero]
    · exact absurd (hrp'.trans (hrp hrp')) h0
    · rfl

theorem Ready.flush (h : m.Ready) : m.flush.Ready := by
  obtain ⟨p, hp, hload⟩ := h.exists_target
  rw [flush_target hload]
  refine ⟨?_, ?_, h.table⟩
  · show Sim.loadDelayed m.registers p 0 0 0 = 0
    rw [Sim.loadDelayed_apply, if_pos rfl]
  · show (0 : Word).toNat < 32
    decide

theorem Ready.flush_flush (h : m.Ready) : m.flush.flush = m.flush := by
  obtain ⟨p, hp, hload⟩ := h.exists_target
  have hahead := h.ahead_flush hp hload
  rw [flush_target (p := 0) hahead.loadReg', Sim.loadDelayed_ahead hahead, flush_target hload]

/-- Once the load that it starts is done as well, an instruction has left the same machine. -/
theorem flush_finished (h : Ahead p m m') {c c' : Completion} (hc : Sim.SameLoad c c')
    (hnext : c.nextLoadReg.toNat < 32) :
    flush { m' with registers := Sim.finished m'.registers 0 c' } =
      flush { m with registers := Sim.finished m.registers p c } := by
  have hlt : c.nextLoadReg.toNat < NumTotalRegs := hnext.trans (by decide)
  obtain ⟨q, hq⟩ : ∃ q : Fin NumTotalRegs, c.nextLoadReg = BitVec.ofNat 32 q := by
    refine ⟨⟨_, hlt⟩, ?_⟩
    rw [BitVec.ofNat_toNat, BitVec.setWidth_eq]
  have hload : Sim.finished m.registers p c LoadReg = BitVec.ofNat 32 q := by
    rw [Sim.finished_loadReg, hq]
  have hload' : Sim.finished m'.registers 0 c' LoadReg = BitVec.ofNat 32 q := by
    rw [Sim.finished_loadReg, ← hc.1, hq]
  have hsame (s : Fin NumTotalRegs) (hs : s = LoadValueReg → c.nextLoadReg ≠ 0) :=
    Sim.finished_ahead h hc hs
  have heq : Sim.loadDelayed (Sim.finished m'.registers 0 c') q 0 0 =
      Sim.loadDelayed (Sim.finished m.registers p c) q 0 0 := by
    funext s
    rw [Sim.loadDelayed_apply, Sim.loadDelayed_apply]
    split_ifs with h0 hv hl ht
    · rfl
    · rfl
    · rfl
    · apply hsame
      intro _ hzero
      apply h0
      rw [ht]
      exact (Sim.ofNat_inj (q := 0) (hzero.symm.trans hq)).symm
    · exact hsame s fun heq => absurd heq hv
  rw [flush_target hload', flush_target hload]
  exact (Sim.with_registers_ahead h heq).symm

end Machine

/-- The outcomes of one instruction with the pending load done later and sooner. -/
def Outcome.SameAfterFlush : Outcome Unit → Outcome Unit → Prop
  | .ok _ m, .ok _ m' => m'.flush = m.flush ∧ m'.registers LoadReg = m.registers LoadReg
  | .trap which m, .trap which' m' => which = which' ∧ m = m'
  | .abort, .abort => True
  | _, _ => False

theorem fetched_ahead {p : Fin NumTotalRegs} {m m' : Machine} (h : Ahead p m m')
    (hp : (p : ℕ) < 32) : m'.fetched = m.fetched := by
  have hpc : m'.registers PCReg = m.registers PCReg :=
    h.others PCReg (by decide) (by decide) (Sim.apart_special hp (by decide)).target
  have hread := Sim.corresponds_readMem h hp (m.registers PCReg) 4
  unfold fetched
  rw [hpc]
  obtain ⟨raw, raw', m₁, m₁', ho, ho', rfl, -⟩ | ⟨which, m₁, ho, ho'⟩ | ⟨ho, ho'⟩ := hread.elim
  · rw [ho, ho']
  · rw [ho, ho']
  · rw [ho, ho']

theorem Sim.finish_target {q : Fin NumTotalRegs} {m : Machine} (completion : Completion)
    (h : m.registers LoadReg = BitVec.ofNat 32 q) : Sim.finish completion m =
      .ok () { m with registers := Sim.finished m.registers q completion } := by
  rw [Sim.finish_apply _ (Sim.toNat_lt_of_eq h), Sim.target_eq h]

/-- The switch and the end of an instruction. -/
theorem execute_finish_ahead {p : Fin NumTotalRegs} {m m' : Machine} (h : Ahead p m m')
    (hp : (p : ℕ) < 32) (hm : m.Ready) {raw : Word} (pcAfter : Word)
    (hsafe : p ≠ 0 → p ∉ (decode raw).reads ∧ p ∉ (decode raw).writes) :
    ((Sim.execute (decode raw) pcAfter >>= Sim.finish) m).SameAfterFlush
      ((Sim.execute (decode raw) pcAfter >>= Sim.finish) m') := by
  have hexecute : (Sim.execute (decode raw) pcAfter m).Corresponds p Sim.SameLoad
      (Sim.execute (decode raw) pcAfter m') :=
    Sim.corresponds_execute h hp (regField_lt raw 21) (regField_lt raw 16) (regField_lt raw 11)
      (fun hne => (hsafe hne).1) fun hne => (hsafe hne).2
  rw [Sim.bind_apply, Sim.bind_apply]
  obtain ⟨c, c', m₂, m₂', ho, ho', hc, h₂⟩ | ⟨which, m₂, ho, ho'⟩ | ⟨ho, ho'⟩ := hexecute.elim
  · have hcompleted : (Sim.execute (decode raw) pcAfter m).Precise m (Completed m) := by
      refine Sim.precise_execute hm (regField_lt raw 16) (regField_lt raw 11) (decode_opCode raw) ?_
      rintro ⟨hop, hrs, hrt⟩
      cases ho.symm.trans (Sim.execute_div_fault hop hrs hrt)
    rw [ho] at hcompleted
    rw [ho, ho']
    show (Sim.finish c m₂).SameAfterFlush (Sim.finish c' m₂')
    rw [Sim.finish_target c h₂.loadReg, Sim.finish_target (q := 0) c' h₂.loadReg']
    refine ⟨flush_finished h₂ hc hcompleted.1, ?_⟩
    show Sim.finished m₂'.registers 0 c' LoadReg = Sim.finished m₂.registers p c LoadReg
    rw [Sim.finished_loadReg, Sim.finished_loadReg, hc.1]
  · rw [ho, ho']
    exact ⟨rfl, rfl⟩
  · rw [ho, ho']
    trivial

/-- One instruction cannot tell whether the pending load is done already. -/
theorem oneInstruction_flush {m : Machine} (hm : m.Ready) (hsafe : m.HazardFree) :
    (Sim.oneInstruction m).SameAfterFlush (Sim.oneInstruction m.flush) := by
  obtain ⟨p, hp, hload⟩ := hm.exists_target
  have hahead := hm.ahead_flush hp hload
  have hpc : m.flush.registers PCReg = m.registers PCReg :=
    hahead.others PCReg (by decide) (by decide) (Sim.apart_special hp (by decide)).target
  have hbind (m₀ : Machine) : Sim.oneInstruction m₀ =
      (Sim.readMem (m₀.registers PCReg) 4 >>= fun raw => do
        let completion ← Sim.execute (decode raw) ((← Sim.reg NextPCReg) + 4)
        Sim.finish completion) m₀ := rfl
  have hread := Sim.corresponds_readMem hahead hp (m.registers PCReg) 4
  have hu := Sim.precise_readMem hm (Untouched.refl m) (m.registers PCReg)
    (show 4 = 1 ∨ 4 = 2 ∨ 4 = 4 by decide)
  rw [hbind, hbind, hpc, Sim.bind_apply, Sim.bind_apply]
  obtain ⟨raw, raw', m₁, m₁', ho, ho', rfl, h₁⟩ | ⟨which, m₁, ho, ho'⟩ | ⟨ho, ho'⟩ := hread.elim
  · have hfetched : m.fetched = some raw := by rw [fetched, ho]
    rw [ho] at hu
    have hnext : m₁'.registers NextPCReg = m₁.registers NextPCReg :=
      h₁.others NextPCReg (by decide) (by decide) (Sim.apart_special hp (by decide)).target
    have hexecute := execute_finish_ahead h₁ hp (hm.of_untouched hu)
      (m₁.registers NextPCReg + 4) fun hne => hsafe raw hfetched p hload hne
    rw [ho, ho']
    show (_ : Outcome Unit).SameAfterFlush
      ((Sim.execute (decode raw) (m₁'.registers NextPCReg + 4) >>= Sim.finish) m₁')
    rw [hnext]
    exact hexecute
  · rw [ho, ho']
    exact ⟨rfl, rfl⟩
  · rw [ho, ho']
    trivial

theorem Outcome.SameAfterFlush.elim {x y : Outcome Unit} (h : x.SameAfterFlush y) :
    (∃ m m', x = .ok () m ∧ y = .ok () m' ∧ m'.flush = m.flush ∧
      m'.registers LoadReg = m.registers LoadReg) ∨
    (∃ which m, x = .trap which m ∧ y = .trap which m) ∨ (x = .abort ∧ y = .abort) := by
  cases x with
  | ok _ m =>
    cases y with
    | ok _ m' => exact .inl ⟨m, m', rfl, rfl, h⟩
    | trap which m' => exact False.elim h
    | abort => exact False.elim h
  | trap which m =>
    cases y with
    | ok _ m' => exact False.elim h
    | trap which' m' =>
      obtain ⟨rfl, rfl⟩ := h
      exact .inr (.inl ⟨which, m, rfl, rfl⟩)
    | abort => exact False.elim h
  | abort =>
    cases y with
    | ok _ m' => exact False.elim h
    | trap which' m' => exact False.elim h
    | abort => exact .inr (.inr ⟨rfl, rfl⟩)

theorem Outcome.SameAfterFlush.join {x y z : Outcome Unit} (hx : x.SameAfterFlush z)
    (hy : y.SameAfterFlush z) : x.SameAfterFlush y := by
  obtain ⟨mx, mz, rfl, rfl, hflush, hload⟩ | ⟨which, mx, rfl, rfl⟩ | ⟨rfl, rfl⟩ := hx.elim
  · obtain ⟨my, mz', rfl, hz, hflush', hload'⟩ | ⟨which, my, -, hz⟩ | ⟨-, hz⟩ := hy.elim
    · cases hz
      exact ⟨hflush'.symm.trans hflush, hload'.symm.trans hload⟩
    · cases hz
    · cases hz
  · obtain ⟨my, mz', -, hz, -⟩ | ⟨which, my, rfl, hz⟩ | ⟨-, hz⟩ := hy.elim
    · cases hz
    · cases hz
      exact ⟨rfl, rfl⟩
    · cases hz
  · obtain ⟨my, mz', -, hz, -⟩ | ⟨which, my, -, hz⟩ | ⟨rfl, -⟩ := hy.elim
    · cases hz
    · cases hz
    · trivial

/-- `ExceptionHandler`, which may do anything to the machine that leaves it able to run, or not
come back. -/
structure TrapHandler where
  handle : ExceptionType → Machine → Option Machine
  ready : ∀ which m m', m.Ready → handle which m = some m' → m'.Ready

/-- One turn of the loop in `Machine::Run`: whether an interrupt fires before the instruction,
and what the kernel does if it traps. -/
structure Turn where
  fires : Bool
  handler : TrapHandler

/-- The same turn without the interrupt. -/
def Turn.quiet (turn : Turn) : Turn := { turn with fires := false }

namespace Machine

/-- `OneInstruction` with the handler it may call. -/
def turn (handler : TrapHandler) (m : Machine) : Option Machine :=
  match Sim.oneInstruction m with
  | .ok _ m' => some m'
  | .trap which m' => handler.handle which m'
  | .abort => none

/-- The instructions that are executed, with their addresses, and the machine afterwards, unless
the program ends before. -/
def run : List Turn → Machine → List (Word × Option Word) × Option Machine
  | [], m => ([], some m)
  | t :: turns, m =>
    let m := if t.fires then m.flush else m
    let rest := (m.turn t.handler).elim ([], none) (run turns)
    ((m.registers PCReg, m.fetched) :: rest.1, rest.2)

/-- Without interrupts, no instruction of the run touches a register that is being loaded. -/
def Disciplined : List Turn → Machine → Prop
  | [], _ => True
  | t :: turns, m => m.HazardFree ∧ ∀ m' ∈ m.turn t.handler, Disciplined turns m'

/-- Machine `m` is where `m'` is, except that its pending load may be done. -/
structure Matches (m m' : Machine) : Prop where
  ready : m.Ready
  ready' : m'.Ready
  flush : m.flush = m'.flush
  loadReg : m.registers LoadReg = m'.registers LoadReg ∨ m.registers LoadReg = 0

variable {m m' : Machine}

theorem Ready.fetched_flush (h : m.Ready) : m.flush.fetched = m.fetched := by
  obtain ⟨p, hp, hload⟩ := h.exists_target
  exact fetched_ahead (h.ahead_flush hp hload) hp

theorem Ready.pc_flush (h : m.Ready) : m.flush.registers PCReg = m.registers PCReg := by
  obtain ⟨p, hp, hload⟩ := h.exists_target
  exact (h.ahead_flush hp hload).others PCReg (by decide) (by decide)
    (Sim.apart_special hp (by decide)).target

theorem Matches.hazardFree (h : Matches m m') (hsafe : m'.HazardFree) : m.HazardFree := by
  intro raw hraw p hp hne
  rcases h.loadReg with heq | hzero
  · have hfetched : m'.fetched = m.fetched := by
      rw [← h.ready.fetched_flush, ← h.ready'.fetched_flush, h.flush]
    exact hsafe raw (hfetched ▸ hraw) p (heq.symm.trans hp) hne
  · exact absurd (Sim.ofNat_inj (q := 0) (hzero.symm.trans hp)).symm hne

theorem Matches.flushed (h : Matches m m') : Matches m.flush m' := by
  refine ⟨h.ready.flush, h.ready', h.ready.flush_flush.trans h.flush, .inr ?_⟩
  obtain ⟨p, hp, hload⟩ := h.ready.exists_target
  exact (h.ready.ahead_flush hp hload).loadReg'

/-- One turn of both runs. -/
theorem Matches.turn (h : Matches m m') (hsafe : m'.HazardFree) (handler : TrapHandler) :
    (m.turn handler = none ∧ m'.turn handler = none) ∨
    ∃ n n', m.turn handler = some n ∧ m'.turn handler = some n' ∧ Matches n n' := by
  have hm := oneInstruction_flush h.ready (h.hazardFree hsafe)
  rw [h.flush] at hm
  have hsame := hm.join (oneInstruction_flush h.ready' hsafe)
  unfold Machine.turn
  obtain ⟨n, n', ho, ho', hflush, hload⟩ | ⟨which, n, ho, ho'⟩ | ⟨ho, ho'⟩ := hsame.elim
  · rw [ho, ho']
    have hn := (Sim.oneInstruction_ready h.ready).1 n ho
    have hn' := (Sim.oneInstruction_ready h.ready').1 n' ho'
    exact .inr ⟨n, n', rfl, rfl, hn, hn', hflush.symm, .inl hload.symm⟩
  · rw [ho, ho']
    have hn := (Sim.oneInstruction_ready h.ready).2 which n ho
    cases hhandle : handler.handle which n with
    | none => exact .inl ⟨hhandle, hhandle⟩
    | some n' =>
      have hn' := handler.ready which n n' hn hhandle
      exact .inr ⟨n', n', hhandle, hhandle, hn', hn', rfl, .inl rfl⟩
  · rw [ho, ho']
    exact .inl ⟨rfl, rfl⟩

/-- The run with the interrupts and the one without, in lockstep. -/
theorem Matches.run {turns : List Turn} (h : Matches m m') (hsafe : Disciplined turns m') :
    (run turns m).1 = (run (turns.map Turn.quiet) m').1 ∧
      (run turns m).2.map Machine.flush = (run (turns.map Turn.quiet) m').2.map Machine.flush := by
  induction turns generalizing m m' with
  | nil => exact ⟨rfl, congrArg some h.flush⟩
  | cons t turns ih =>
    obtain ⟨hfree, hrest⟩ := hsafe
    obtain ⟨m₁, hm₁⟩ : ∃ m₁, m₁ = if t.fires then m.flush else m := ⟨_, rfl⟩
    have h₁ : Matches m₁ m' := by
      rw [hm₁]
      split_ifs
      · exact h.flushed
      · exact h
    have hpc : m₁.registers PCReg = m'.registers PCReg := by
      rw [← h₁.ready.pc_flush, ← h₁.ready'.pc_flush, h₁.flush]
    have hfetched : m₁.fetched = m'.fetched := by
      rw [← h₁.ready.fetched_flush, ← h₁.ready'.fetched_flush, h₁.flush]
    have hleft : Machine.run (t :: turns) m = ((m₁.registers PCReg, m₁.fetched) ::
        ((m₁.turn t.handler).elim ([], none) (Machine.run turns)).1,
        ((m₁.turn t.handler).elim ([], none) (Machine.run turns)).2) := by
      rw [hm₁]
      rfl
    have hright : Machine.run ((t :: turns).map Turn.quiet) m' =
        ((m'.registers PCReg, m'.fetched) ::
        ((m'.turn t.handler).elim ([], none) (Machine.run (turns.map Turn.quiet))).1,
        ((m'.turn t.handler).elim ([], none) (Machine.run (turns.map Turn.quiet))).2) := rfl
    rw [hleft, hright, hpc, hfetched]
    obtain ⟨hnone, hnone'⟩ | ⟨n, n', hn, hn', hmatch⟩ := h₁.turn hfree t.handler
    · rw [hnone, hnone']
      exact ⟨rfl, rfl⟩
    · rw [hn, hn']
      obtain ⟨htrace, hend⟩ := ih hmatch (hrest n' hn')
      exact ⟨congrArg (List.cons _) htrace, hend⟩

end Machine

/-- Wherever interrupts fire, a program that leaves its delay slots alone executes the same
instructions and ends up on the same machine. -/
theorem interrupts_transparent {m : Machine} {turns : List Turn} (h : m.Ready)
    (hsafe : m.Disciplined turns) :
    (m.run turns).1 = (m.run (turns.map Turn.quiet)).1 ∧
      (m.run turns).2.map flush = (m.run (turns.map Turn.quiet)).2.map flush :=
  Matches.run ⟨h, h, rfl, .inl rfl⟩ hsafe

/-- `addu $3, $1, $2` in the delay slot of a load of 7 into `$5`. -/
def delaySlot : Machine where
  registers r := if r = LoadReg then 5 else if r = LoadValueReg then 7
    else if r = NextPCReg then 4 else 0
  mainMemory a := if a = 0 then 0x21 else if a = 1 then 0x18 else if a = 2 then 0x22 else 0
  pageTable := some 0
  pageTableSize := 1
  tables _ := [⟨0, 0, true, false, false, false⟩]

/-- An interrupt fires there; a trap would end the program. -/
def interruptedSlot : List Turn :=
  [⟨true, ⟨fun _ _ => none, fun _ _ _ _ h => by cases h⟩⟩]

theorem interrupts_transparent_delaySlot : delaySlot.Disciplined interruptedSlot ∧
    (delaySlot.run (interruptedSlot.map Turn.quiet)).1 = [(0, some 0x00221821)] ∧
    ((delaySlot.run (interruptedSlot.map Turn.quiet)).2.map flush).map (·.registers 5) =
      some 7 := by
  have hready : delaySlot.Ready := by
    refine ⟨by decide, by decide, ?_⟩
    exact ⟨[⟨0, 0, true, false, false, false⟩], rfl, le_rfl⟩
  have hfetched : delaySlot.fetched = some 0x00221821 := by decide +kernel
  have hfree : delaySlot.HazardFree := by
    intro raw hraw p hp _
    cases hfetched.symm.trans hraw
    obtain rfl : p = 5 := (Sim.ofNat_inj (q := 5) hp).symm
    decide +kernel
  have hsafe : delaySlot.Disciplined interruptedSlot := ⟨hfree, fun _ _ => trivial⟩
  obtain ⟨htrace, hend⟩ := interrupts_transparent hready hsafe
  refine ⟨hsafe, ?_, ?_⟩
  · rw [← htrace]
    decide +kernel
  · rw [← hend]
    decide +kernel

end Nachos

import Nachos.Machine.Effects

/-! The MIPS simulator of `machine/mipssim.cc`: decoding and one instruction. The build
defines `SIM_FIX`, so the unaligned loads and stores access the aligned word. -/
namespace Nachos

/-- The opcodes of `mipssim.h`, and the two marks for further decoding. -/
inductive OpCode where
  | add | addi | addiu | addu | and | andi
  | beq | bgez | bgezal | bgtz | blez | bltz | bltzal | bne
  | div | divu | j | jal | jalr | jr
  | lb | lbu | lh | lhu | lui | lw | lwl | lwr
  | mfhi | mflo | mthi | mtlo | mult | multu | nor | or | ori | rfe
  | sb | sh | sll | sllv | slt | slti | sltiu | sltu | sra | srav | srl | srlv
  | sub | subu | sw | swl | swr | xor | xori | syscall | unimp | res
  | special | bcond
  deriving DecidableEq, Repr

inductive Format where
  | ifmt | jfmt | rfmt
  deriving DecidableEq, Repr

open OpCode Format in
def opTable : Vector (OpCode × Format) 64 := #v[
  (special, rfmt), (bcond, ifmt), (j, jfmt), (jal, jfmt),
  (beq, ifmt), (bne, ifmt), (blez, ifmt), (bgtz, ifmt),
  (addi, ifmt), (addiu, ifmt), (slti, ifmt), (sltiu, ifmt),
  (andi, ifmt), (ori, ifmt), (xori, ifmt), (lui, ifmt),
  (unimp, ifmt), (unimp, ifmt), (unimp, ifmt), (unimp, ifmt),
  (res, ifmt), (res, ifmt), (res, ifmt), (res, ifmt),
  (res, ifmt), (res, ifmt), (res, ifmt), (res, ifmt),
  (res, ifmt), (res, ifmt), (res, ifmt), (res, ifmt),
  (lb, ifmt), (lh, ifmt), (lwl, ifmt), (lw, ifmt),
  (lbu, ifmt), (lhu, ifmt), (lwr, ifmt), (res, ifmt),
  (sb, ifmt), (sh, ifmt), (swl, ifmt), (sw, ifmt),
  (res, ifmt), (res, ifmt), (swr, ifmt), (res, ifmt),
  (unimp, ifmt), (unimp, ifmt), (unimp, ifmt), (unimp, ifmt),
  (res, ifmt), (res, ifmt), (res, ifmt), (res, ifmt),
  (unimp, ifmt), (unimp, ifmt), (unimp, ifmt), (unimp, ifmt),
  (res, ifmt), (res, ifmt), (res, ifmt), (res, ifmt)]

open OpCode in
def specialTable : Vector OpCode 64 := #v[
  sll, res, srl, sra, sllv, res, srlv, srav,
  jr, jalr, res, res, syscall, unimp, res, res,
  mfhi, mthi, mflo, mtlo, res, res, res, res,
  mult, multu, div, divu, res, res, res, res,
  add, addu, sub, subu, .and, .or, .xor, .nor,
  res, res, slt, sltu, res, res, res, res,
  res, res, res, res, res, res, res, res,
  res, res, res, res, res, res, res, res]

/-- An instruction after `Decode`. The register fields have five bits, so they are
general registers. -/
structure Instruction where
  opCode : OpCode
  rs : Fin NumTotalRegs
  rt : Fin NumTotalRegs
  rd : Fin NumTotalRegs
  extra : Word
  deriving DecidableEq, Repr

/-- The register number in the five bits from `shift` on. -/
def regField (value : Word) (shift : ℕ) : Fin NumTotalRegs :=
  (value.extractLsb' shift 5).toFin.castLE (by decide)

/-- `Instruction::Decode`. -/
def decode (value : Word) : Instruction :=
  let (opCode, format) := opTable.get (value.extractLsb' 26 6).toFin
  { opCode := match opCode with
      | .special => specialTable.get (value.extractLsb' 0 6).toFin
      | .bcond =>
        let i := value &&& 0x1f0000
        if i = 0 then .bltz
        else if i = 0x10000 then .bgez
        else if i = 0x100000 then .bltzal
        else if i = 0x110000 then .bgezal
        else .unimp
      | opCode => opCode
    rs := regField value 21
    rt := regField value 16
    rd := regField value 11
    extra := match format with
      | .ifmt => if value &&& 0x8000 ≠ 0 then value &&& 0xffff ||| 0xffff0000 else value &&& 0xffff
      | .rfmt => value >>> 6 &&& 0x1f
      | .jfmt => value &&& 0x3ffffff }

def SIGN_BIT : Word := 0x80000000

def indexToAddr (x : Word) : Word := x <<< 2

/-- The rounds of `Mult` that are left: the bits of `a` decide which shifted copies of
`b` are added. -/
def multLoop : ℕ → Word → Word → Word → Word → Word → Word × Word
  | 0, _, _, _, hi, lo => (hi, lo)
  | rounds + 1, a, bHi, bLo, hi, lo =>
    let sum := if a &&& 1 ≠ 0 then
      ((if lo + bLo < bLo then hi + 1 else hi) + bHi, lo + bLo) else (hi, lo)
    if a &&& 1 ≠ 0 ∧ a &&& 0xfffffffe = 0 then sum
    else
      let bHi := bHi <<< 1
      multLoop rounds (a.sshiftRight 1) (if bLo &&& 0x80000000 ≠ 0 then bHi ||| 1 else bHi)
        (bLo <<< 1) sum.1 sum.2

/-- `Mult`: the high and the low word of the product. -/
def mult (a b : Word) (signedArith : Bool) : Word × Word :=
  if a = 0 ∨ b = 0 then (0, 0)
  else
    let negative := signedArith && (a.slt 0 ^^ b.slt 0)
    let a := if signedArith && a.slt 0 then -a else a
    let b := if signedArith && b.slt 0 then -b else b
    let (hi, lo) := multLoop 32 a 0 b 0 0
    if negative then (if ~~~lo + 1 = 0 then ~~~hi + 1 else ~~~hi, ~~~lo + 1) else (hi, lo)

example : mult (-3) 5 true = (-1, -15) ∧ mult 0xfffffffd 5 false = (4, -15) := by decide

/-- What a completed instruction leaves to be done: the delayed load it starts and the
address after the next one. -/
structure Completion where
  nextLoadReg : Word
  nextLoadValue : Word
  pcAfter : Word

namespace Sim

/-- The instruction starts no load. -/
def done (pcAfter : Word) : Sim Completion := return ⟨0, 0, pcAfter⟩

/-- `registers[instr->rd] = f(registers[instr->rs], registers[instr->rt])`. -/
def setRd (instr : Instruction) (f : Word → Word → Word) : Sim Unit := do
  setReg instr.rd (f (← reg instr.rs) (← reg instr.rt))

/-- `registers[instr->rt] = f(registers[instr->rs], instr->extra)`. -/
def setRt (instr : Instruction) (f : Word → Word → Word) : Sim Unit := do
  setReg instr.rt (f (← reg instr.rs) instr.extra)

/-- `registers[instr->rd] = f(registers[instr->rt], instr->extra)`. -/
def shiftRd (instr : Instruction) (f : Word → Word → Word) : Sim Unit := do
  setReg instr.rd (f (← reg instr.rt) instr.extra)

/-- The end of every branch. -/
def branchIf (instr : Instruction) (pcAfter : Word) (taken : Bool) : Sim Completion := do
  if taken then done ((← reg NextPCReg) + indexToAddr instr.extra) else done pcAfter

/-- The return address of a jump or branch that links. -/
def link (num : Fin NumTotalRegs) : Sim Unit := do
  setReg num ((← reg NextPCReg) + 4)

/-- The end of every load. -/
def load (instr : Instruction) (value pcAfter : Word) : Sim Completion :=
  return ⟨BitVec.ofNat 32 instr.rt, value, pcAfter⟩

/-- `registers[instr->rs] + instr->extra`. -/
def effectiveAddress (instr : Instruction) : Sim Word := do
  return (← reg instr.rs) + instr.extra

/-- The value that a pending load is about to put in `rt`, or else the one there. -/
def pendingRt (instr : Instruction) : Sim Word := do
  if (← reg LoadReg) = BitVec.ofNat 32 instr.rt then reg LoadValueReg else reg instr.rt

/-- The three stores `SB`, `SH` and `SW`. -/
def storeRt (instr : Instruction) (size : ℕ) : Sim Unit := do
  let addr ← effectiveAddress instr
  writeMem addr size (← reg instr.rt)

/-- `LWL` and `LWR`: the aligned word is merged into the target by `merge`, which is given
`3 - byte`, the old value and the word. -/
def loadUnaligned (instr : Instruction) (pcAfter : Word)
    (merge : Word → Word → Word → Word) : Sim Completion := do
  let tmp ← effectiveAddress instr
  let byte := tmp &&& 0x3
  let value ← readMem (tmp - byte) 4
  load instr (merge (3 - byte) (← pendingRt instr) value) pcAfter

/-- `SWL` and `SWR`: `rt` is merged into the aligned word by `merge`, which is given
`3 - byte`, the word and the register. -/
def storeUnaligned (instr : Instruction) (merge : Word → Word → Word → Word) : Sim Unit := do
  let tmp ← effectiveAddress instr
  let byte := tmp &&& 0x3
  let value ← readMem (tmp - byte) 4
  writeMem (tmp - byte) 4 (merge (3 - byte) value (← reg instr.rt))

def mergeLwl (part old value : Word) : Word :=
  if part = 0 then value
  else if part = 1 then old &&& 0xff ||| value <<< 8
  else if part = 2 then old &&& 0xffff ||| value <<< 16
  else old &&& 0xffffff ||| value <<< 24

def mergeLwr (part old value : Word) : Word :=
  if part = 0 then old &&& 0xffffff00 ||| value.sshiftRight 24 &&& 0xff
  else if part = 1 then old &&& 0xffff0000 ||| value.sshiftRight 16 &&& 0xffff
  else if part = 2 then old &&& 0xff000000 ||| value.sshiftRight 8 &&& 0xffffff
  else value

def mergeSwl (part value rt : Word) : Word :=
  if part = 0 then rt
  else if part = 1 then value &&& 0xff000000 ||| rt.sshiftRight 8 &&& 0xffffff
  else if part = 2 then value &&& 0xffff0000 ||| rt.sshiftRight 16 &&& 0xffff
  else value &&& 0xffffff00 ||| rt.sshiftRight 24 &&& 0xff

def mergeSwr (part value rt : Word) : Word :=
  if part = 0 then value &&& 0xffffff ||| rt <<< 24
  else if part = 1 then value &&& 0xffff ||| rt <<< 16
  else if part = 2 then value &&& 0xff ||| rt <<< 8
  else rt

/-- The outcome of a comparison. -/
def flag (b : Bool) : Word := if b then 1 else 0

/-- The switch of `Machine::OneInstruction`, with the fallthroughs of `JAL`, `JALR` and the
branches that link. `SRL` and `SRLV` shift an `int`, so they copy the sign like `SRA`. -/
def execute (instr : Instruction) (pcAfter : Word) : Sim Completion := do
  match instr.opCode with
  | .add =>
    let rs ← reg instr.rs
    let rt ← reg instr.rt
    let sum := rs + rt
    if (rs ^^^ rt) &&& SIGN_BIT = 0 ∧ (rs ^^^ sum) &&& SIGN_BIT ≠ 0 then
      raiseException .overflowException 0
    else
      setReg instr.rd sum
      done pcAfter
  | .addi =>
    let rs ← reg instr.rs
    let sum := rs + instr.extra
    if (rs ^^^ instr.extra) &&& SIGN_BIT = 0 ∧ (instr.extra ^^^ sum) &&& SIGN_BIT ≠ 0 then
      raiseException .overflowException 0
    else
      setReg instr.rt sum
      done pcAfter
  | .addiu => setRt instr (· + ·); done pcAfter
  | .addu => setRd instr (· + ·); done pcAfter
  | .and => setRd instr (· &&& ·); done pcAfter
  | .andi => setRt instr fun rs extra => rs &&& (extra &&& 0xffff); done pcAfter
  | .beq => branchIf instr pcAfter ((← reg instr.rs) == (← reg instr.rt))
  | .bgezal =>
    link R31
    branchIf instr pcAfter ((← reg instr.rs) &&& SIGN_BIT == 0)
  | .bgez => branchIf instr pcAfter ((← reg instr.rs) &&& SIGN_BIT == 0)
  | .bgtz => branchIf instr pcAfter ((0 : Word).slt (← reg instr.rs))
  | .blez => branchIf instr pcAfter ((← reg instr.rs).sle 0)
  | .bltzal =>
    link R31
    branchIf instr pcAfter ((← reg instr.rs) &&& SIGN_BIT != 0)
  | .bltz => branchIf instr pcAfter ((← reg instr.rs) &&& SIGN_BIT != 0)
  | .bne => branchIf instr pcAfter ((← reg instr.rs) != (← reg instr.rt))
  | .div =>
    let rs ← reg instr.rs
    let rt ← reg instr.rt
    if rt = 0 then
      setReg LoReg 0
      setReg HiReg 0
    else if rs = SIGN_BIT ∧ rt = -1 then
      -- the quotient does not fit an `int` and the host traps
      abort
    else
      setReg LoReg (rs.sdiv rt)
      setReg HiReg ((← reg instr.rs).srem (← reg instr.rt))
    done pcAfter
  | .divu =>
    let rs ← reg instr.rs
    let rt ← reg instr.rt
    if rt = 0 then
      setReg LoReg 0
      setReg HiReg 0
    else
      setReg LoReg (rs / rt)
      setReg HiReg (rs % rt)
    done pcAfter
  | .jal =>
    link R31
    done (pcAfter &&& 0xf0000000 ||| indexToAddr instr.extra)
  | .j => done (pcAfter &&& 0xf0000000 ||| indexToAddr instr.extra)
  | .jalr =>
    link instr.rd
    done (← reg instr.rs)
  | .jr => done (← reg instr.rs)
  | .lb =>
    let value ← readMem (← effectiveAddress instr) 1
    load instr (if value &&& 0x80 ≠ 0 then value ||| 0xffffff00 else value &&& 0xff) pcAfter
  | .lbu =>
    let value ← readMem (← effectiveAddress instr) 1
    load instr (value &&& 0xff) pcAfter
  | .lh =>
    let tmp ← effectiveAddress instr
    if tmp &&& 0x1 ≠ 0 then raiseException .addressErrorException tmp
    else
      let value ← readMem tmp 2
      load instr (if value &&& 0x8000 ≠ 0 then value ||| 0xffff0000 else value &&& 0xffff) pcAfter
  | .lhu =>
    let tmp ← effectiveAddress instr
    if tmp &&& 0x1 ≠ 0 then raiseException .addressErrorException tmp
    else
      let value ← readMem tmp 2
      load instr (value &&& 0xffff) pcAfter
  | .lui => setRt instr fun _ extra => extra <<< 16; done pcAfter
  | .lw =>
    let tmp ← effectiveAddress instr
    if tmp &&& 0x3 ≠ 0 then raiseException .addressErrorException tmp
    else load instr (← readMem tmp 4) pcAfter
  | .lwl => loadUnaligned instr pcAfter mergeLwl
  | .lwr => loadUnaligned instr pcAfter mergeLwr
  | .mfhi => setReg instr.rd (← reg HiReg); done pcAfter
  | .mflo => setReg instr.rd (← reg LoReg); done pcAfter
  | .mthi => setReg HiReg (← reg instr.rs); done pcAfter
  | .mtlo => setReg LoReg (← reg instr.rs); done pcAfter
  | .mult =>
    let (hi, lo) := Nachos.mult (← reg instr.rs) (← reg instr.rt) true
    setReg HiReg hi
    setReg LoReg lo
    done pcAfter
  | .multu =>
    let (hi, lo) := Nachos.mult (← reg instr.rs) (← reg instr.rt) false
    setReg HiReg hi
    setReg LoReg lo
    done pcAfter
  | .nor => setRd instr fun rs rt => ~~~(rs ||| rt); done pcAfter
  | .or => setRd instr (· ||| ·); done pcAfter
  | .ori => setRt instr fun rs extra => rs ||| extra &&& 0xffff; done pcAfter
  | .sb => storeRt instr 1; done pcAfter
  | .sh => storeRt instr 2; done pcAfter
  | .sll => shiftRd instr fun rt extra => rt <<< extra.toNat; done pcAfter
  | .sllv => setRd instr fun rs rt => rt <<< (rs &&& 0x1f).toNat; done pcAfter
  | .slt => setRd instr fun rs rt => flag (rs.slt rt); done pcAfter
  | .slti => setRt instr fun rs extra => flag (rs.slt extra); done pcAfter
  | .sltiu => setRt instr fun rs extra => flag (rs.ult extra); done pcAfter
  | .sltu => setRd instr fun rs rt => flag (rs.ult rt); done pcAfter
  | .sra => shiftRd instr fun rt extra => rt.sshiftRight extra.toNat; done pcAfter
  | .srav => setRd instr fun rs rt => rt.sshiftRight (rs &&& 0x1f).toNat; done pcAfter
  | .srl => shiftRd instr fun rt extra => rt.sshiftRight extra.toNat; done pcAfter
  | .srlv => setRd instr fun rs rt => rt.sshiftRight (rs &&& 0x1f).toNat; done pcAfter
  | .sub =>
    let rs ← reg instr.rs
    let rt ← reg instr.rt
    let diff := rs - rt
    if (rs ^^^ rt) &&& SIGN_BIT ≠ 0 ∧ (rs ^^^ diff) &&& SIGN_BIT ≠ 0 then
      raiseException .overflowException 0
    else
      setReg instr.rd diff
      done pcAfter
  | .subu => setRd instr (· - ·); done pcAfter
  | .sw => storeRt instr 4; done pcAfter
  | .swl => storeUnaligned instr mergeSwl; done pcAfter
  | .swr => storeUnaligned instr mergeSwr; done pcAfter
  | .syscall => raiseException .syscallException 0
  | .xor => setRd instr (· ^^^ ·); done pcAfter
  | .xori => setRt instr fun rs extra => rs ^^^ extra &&& 0xffff; done pcAfter
  | .res | .unimp => raiseException .illegalInstrException 0
  | .rfe | .special | .bcond => abort

/-- `Machine::OneInstruction`. -/
def oneInstruction : Sim Unit := do
  let raw ← readMem (← reg PCReg) 4
  let completion ← execute (decode raw) ((← reg NextPCReg) + 4)
  delayedLoad completion.nextLoadReg completion.nextLoadValue
  setReg PrevPCReg (← reg PCReg)
  setReg PCReg (← reg NextPCReg)
  setReg NextPCReg completion.pcAfter

section Keeps

variable (instr : Instruction) (pcAfter : Word)

theorem keeps_done : Keeps (done pcAfter) := keeps_pure _

theorem keeps_load (value : Word) : Keeps (load instr value pcAfter) := keeps_pure _

theorem keeps_setRd (f : Word → Word → Word) : Keeps (setRd instr f) :=
  keeps_bind (keeps_reg _) fun _ => keeps_bind (keeps_reg _) fun _ => keeps_setReg _ _

theorem keeps_setRt (f : Word → Word → Word) : Keeps (setRt instr f) :=
  keeps_bind (keeps_reg _) fun _ => keeps_setReg _ _

theorem keeps_shiftRd (f : Word → Word → Word) : Keeps (shiftRd instr f) :=
  keeps_bind (keeps_reg _) fun _ => keeps_setReg _ _

theorem keeps_link (num : Fin NumTotalRegs) : Keeps (link num) :=
  keeps_bind (keeps_reg _) fun _ => keeps_setReg _ _

theorem keeps_effectiveAddress : Keeps (effectiveAddress instr) :=
  keeps_bind (keeps_reg _) fun _ => keeps_pure _

theorem keeps_branchIf (taken : Bool) : Keeps (branchIf instr pcAfter taken) := by
  unfold branchIf
  split
  · exact keeps_bind (keeps_reg _) fun _ => keeps_done _
  · exact keeps_done _

theorem keeps_pendingRt : Keeps (pendingRt instr) := by
  apply keeps_bind (keeps_reg _)
  intro target
  split
  · exact keeps_reg _
  · exact keeps_reg _

theorem keeps_storeRt (size : ℕ) : Keeps (storeRt instr size) := by
  apply keeps_bind (keeps_effectiveAddress _)
  intro addr
  exact keeps_bind (keeps_reg _) fun _ => keeps_writeMem _ _ _

theorem keeps_loadUnaligned (merge : Word → Word → Word → Word) :
    Keeps (loadUnaligned instr pcAfter merge) := by
  apply keeps_bind (keeps_effectiveAddress _)
  intro tmp
  apply keeps_bind (keeps_readMem _ _)
  intro value
  exact keeps_bind (keeps_pendingRt _) fun _ => keeps_load _ _ _

theorem keeps_storeUnaligned (merge : Word → Word → Word → Word) :
    Keeps (storeUnaligned instr merge) := by
  apply keeps_bind (keeps_effectiveAddress _)
  intro tmp
  apply keeps_bind (keeps_readMem _ _)
  intro value
  exact keeps_bind (keeps_reg _) fun _ => keeps_writeMem _ _ _

/-- An operation with no result, and then the end of the instruction. -/
theorem keeps_then_done {x : Sim Unit} (hx : Keeps x) : Keeps (do x; done pcAfter) :=
  keeps_bind hx fun _ => keeps_done _

/-- A branch on the value of one register. -/
theorem keeps_branchReg (num : Fin NumTotalRegs) (taken : Word → Bool) :
    Keeps (do branchIf instr pcAfter (taken (← reg num))) :=
  keeps_bind (keeps_reg _) fun _ => keeps_branchIf _ _ _

/-- A result that is stored unless it overflows. -/
theorem keeps_checked (num : Fin NumTotalRegs) (value : Word) (overflow : Prop)
    [Decidable overflow] :
    Keeps (if overflow then raiseException .overflowException 0
      else do setReg num value; done pcAfter) := by
  split
  · exact keeps_raiseException _ _
  · exact keeps_then_done _ (keeps_setReg _ _)

/-- Every case of the switch goes through the installed table. -/
theorem keeps_execute : Keeps (execute instr pcAfter) := by
  obtain ⟨opCode, rs, rt, rd, extra⟩ := instr
  cases opCode with
  | addu | and | nor | or | sllv | slt | sltu | srav | srlv | subu | xor =>
    exact keeps_then_done _ (keeps_setRd _ _)
  | addiu | andi | lui | ori | slti | sltiu | xori => exact keeps_then_done _ (keeps_setRt _ _)
  | sll | sra | srl => exact keeps_then_done _ (keeps_shiftRd _ _)
  | add | sub =>
    exact keeps_bind (keeps_reg _) fun _ => keeps_bind (keeps_reg _) fun _ => keeps_checked _ _ _ _
  | addi => exact keeps_bind (keeps_reg _) fun _ => keeps_checked _ _ _ _
  | beq | bne =>
    exact keeps_bind (keeps_reg _) fun _ => keeps_bind (keeps_reg _) fun _ => keeps_branchIf _ _ _
  | bgez | bgtz | blez | bltz => exact keeps_branchReg _ _ _ _
  | bgezal | bltzal => exact keeps_bind (keeps_link _) fun _ => keeps_branchReg _ _ _ _
  | div =>
    apply keeps_bind (keeps_reg _)
    intro dividend
    apply keeps_bind (keeps_reg _)
    intro divisor
    split
    · exact keeps_bind (keeps_setReg _ _) fun _ => keeps_then_done _ (keeps_setReg _ _)
    · split
      · exact keeps_bind keeps_abort fun _ => keeps_done _
      · apply keeps_bind (keeps_setReg _ _)
        intro _
        apply keeps_bind (keeps_reg _)
        intro _
        exact keeps_bind (keeps_reg _) fun _ => keeps_then_done _ (keeps_setReg _ _)
  | divu =>
    apply keeps_bind (keeps_reg _)
    intro dividend
    apply keeps_bind (keeps_reg _)
    intro divisor
    split
    · exact keeps_bind (keeps_setReg _ _) fun _ => keeps_then_done _ (keeps_setReg _ _)
    · exact keeps_bind (keeps_setReg _ _) fun _ => keeps_then_done _ (keeps_setReg _ _)
  | jal => exact keeps_then_done _ (keeps_link _)
  | j => exact keeps_done _
  | jalr => exact keeps_bind (keeps_link _) fun _ => keeps_bind (keeps_reg _) fun _ => keeps_done _
  | jr => exact keeps_bind (keeps_reg _) fun _ => keeps_done _
  | lb | lbu =>
    apply keeps_bind (keeps_effectiveAddress _)
    intro addr
    exact keeps_bind (keeps_readMem _ _) fun _ => keeps_load _ _ _
  | lh | lhu | lw =>
    apply keeps_bind (keeps_effectiveAddress _)
    intro addr
    split
    · exact keeps_raiseException _ _
    · exact keeps_bind (keeps_readMem _ _) fun _ => keeps_load _ _ _
  | lwl | lwr => exact keeps_loadUnaligned _ _ _
  | mfhi | mflo | mthi | mtlo =>
    exact keeps_bind (keeps_reg _) fun _ => keeps_then_done _ (keeps_setReg _ _)
  | mult | multu =>
    apply keeps_bind (keeps_reg _)
    intro a
    apply keeps_bind (keeps_reg _)
    intro b
    exact keeps_bind (keeps_setReg _ _) fun _ => keeps_then_done _ (keeps_setReg _ _)
  | sb | sh | sw => exact keeps_then_done _ (keeps_storeRt _ _)
  | swl | swr => exact keeps_then_done _ (keeps_storeUnaligned _ _)
  | syscall | res | unimp => exact keeps_raiseException _ _
  | rfe | special | bcond => exact keeps_abort

end Keeps

/-- Whatever it decodes to, an instruction writes only the frames of the installed table and
no field of any table that the kernel reads. -/
theorem keeps_oneInstruction : Keeps oneInstruction := by
  unfold oneInstruction
  apply keeps_bind (keeps_reg _)
  intro pc
  apply keeps_bind (keeps_readMem _ _)
  intro raw
  apply keeps_bind (keeps_reg _)
  intro nextPC
  apply keeps_bind (keeps_execute _ _)
  intro completion
  apply keeps_bind (keeps_delayedLoad _ _)
  intro _
  apply keeps_bind (keeps_reg _)
  intro _
  apply keeps_bind (keeps_setReg _ _)
  intro _
  apply keeps_bind (keeps_reg _)
  intro _
  exact keeps_bind (keeps_setReg _ _) fun _ => keeps_setReg _ _

end Sim
end Nachos

import Nachos.Machine.Mipssim
import Nachos.Machine.VirtualMemory

/-! What a user program can tell about the machine it runs on: its registers, the bytes of its
virtual memory and which accesses are refused. The frames behind its pages, the rest of main
memory and the tables of others are hidden from every instruction. -/
namespace Nachos

/-- A translation gives the same address, or the same exception, through tables that differ in use
and dirty bits. -/
theorem translate_congr {table table' : PageTable}
    (hmap : table'.map TranslationEntry.mapping = table.map TranslationEntry.mapping)
    (pageTableSize : ℕ) (v : Word) (size : ℕ) (writing : Bool) :
    (translate (some table') pageTableSize v size writing).map (Except.map Prod.fst) =
      (translate (some table) pageTableSize v size writing).map (Except.map Prod.fst) := by
  have hget := congrArg (·[v.toNat / PageSize]?) hmap
  simp only [List.getElem?_map] at hget
  unfold translate
  by_cases hmis : misaligned v size = true
  · rw [if_pos hmis, if_pos hmis]
  rw [if_neg hmis, if_neg hmis]
  simp only [Option.bind_eq_bind, Option.bind_some]
  by_cases hpage : v.toNat / PageSize ≥ pageTableSize
  · rw [if_pos hpage, if_pos hpage]
  rw [if_neg hpage, if_neg hpage]
  cases he : table[v.toNat / PageSize]? with
  | none =>
    rw [he, Option.map_none, Option.map_eq_none_iff] at hget
    rw [hget]
    rfl
  | some entry =>
    rw [he] at hget
    obtain ⟨entry', he', hsame⟩ := Option.map_eq_some_iff.mp hget
    have hframe := TranslationEntry.pageFrame_congr hsame
    simp only [TranslationEntry.mapping, Prod.mk.injEq] at hsame
    rw [he']
    simp only [Option.bind_some, hframe, hsame.2.2.1, hsame.2.2.2]
    split_ifs <;> rfl

/-- A translation looks at no entry behind the last page. -/
theorem translate_take (table : PageTable) (pageTableSize : ℕ) (v : Word) (size : ℕ)
    (writing : Bool) :
    (translate (some (table.take pageTableSize)) pageTableSize v size writing).map
        (Except.map Prod.fst) =
      (translate (some table) pageTableSize v size writing).map (Except.map Prod.fst) := by
  unfold translate
  by_cases hmis : misaligned v size = true
  · rw [if_pos hmis, if_pos hmis]
  rw [if_neg hmis, if_neg hmis]
  simp only [Option.bind_eq_bind, Option.bind_some]
  by_cases hpage : v.toNat / PageSize ≥ pageTableSize
  · rw [if_pos hpage, if_pos hpage]
  rw [if_neg hpage, if_neg hpage, List.getElem?_take_of_lt (not_le.mp hpage)]
  cases table[v.toNat / PageSize]? with
  | none => rfl
  | some entry =>
    simp only [Option.bind_some]
    split_ifs <;> rfl

theorem readByte_take (table : PageTable) (pageTableSize : ℕ) (mem : ByteStore.Store) (v : Word) :
    readByte (table.take pageTableSize) pageTableSize mem v =
      readByte table pageTableSize mem v := by
  have hsame := translate_take table pageTableSize v 1 false
  unfold readByte
  generalize translate (some (table.take pageTableSize)) pageTableSize v 1 false = o' at hsame
  generalize translate (some table) pageTableSize v 1 false = o at hsame
  rcases o with _ | (_ | ⟨physAddr, touched⟩) <;> rcases o' with _ | (_ | ⟨physAddr', touched'⟩) <;>
    simp_all [Except.map]

namespace Machine

/-- The exception by which `Translate` refuses an access, if it does. -/
def refusal (m : Machine) (v : Word) (size : ℕ) (writing : Bool) : Option ExceptionType :=
  match translate m.table m.pageTableSize v size writing with
  | some (.error which) => some which
  | _ => none

/-- The two machines are the same to a user program. -/
structure Alike (m m' : Machine) : Prop where
  registers : m'.registers = m.registers
  mapped : ∃ t, m.Mapped t
  mapped' : ∃ t, m'.Mapped t
  refused : ∀ v size writing, m'.refusal v size writing = m.refusal v size writing
  bytes : ∀ v, m'.virtualByte v = m.virtualByte v

variable {m m' m₁ m₁' : Machine} {t : PageTable} {v : Word} {size : ℕ} {writing : Bool}

theorem Alike.symm (h : m.Alike m') : m'.Alike m :=
  ⟨h.registers.symm, h.mapped', h.mapped, fun v size writing => (h.refused v size writing).symm,
    fun v => (h.bytes v).symm⟩

theorem Alike.trans (h : m.Alike m') (h' : m'.Alike m₁) : m.Alike m₁ :=
  ⟨h'.registers.trans h.registers, h.mapped, h'.mapped',
    fun v size writing => (h'.refused v size writing).trans (h.refused v size writing),
    fun v => (h'.bytes v).trans (h.bytes v)⟩

theorem Alike.withRegisters (h : m.Alike m') (registers : Registers) :
    Alike { m with registers := registers } { m' with registers := registers } := by
  obtain ⟨t, ht⟩ := h.mapped
  obtain ⟨t', ht'⟩ := h.mapped'
  exact ⟨rfl, ⟨t, ht.table, ht.complete, ht.frame_lt, ht.injective⟩,
    ⟨t', ht'.table, ht'.complete, ht'.frame_lt, ht'.injective⟩, h.refused, h.bytes⟩

theorem refusal_eq_some_iff {which : ExceptionType} : m.refusal v size writing = some which ↔
    translate m.table m.pageTableSize v size writing = some (.error which) := by
  unfold refusal
  split
  · next h => simp [h]
  · next h =>
    constructor
    · intro hnone
      cases hnone
    · intro herror
      exact absurd herror (h which)

theorem refusal_of_map {o o' : Option (Except ExceptionType (ℕ × PageTable))}
    (h : o'.map (Except.map Prod.fst) = o.map (Except.map Prod.fst)) {which : ExceptionType} :
    o' = some (.error which) ↔ o = some (.error which) := by
  rcases o with _ | (_ | _) <;> rcases o' with _ | (_ | _) <;>
    simp_all [Except.map]

/-- What the hardware does to a machine changes no refusal. -/
theorem Confined.refusal_eq (h : Confined m m') (v : Word) (size : ℕ) (writing : Bool) :
    m'.refusal v size writing = m.refusal v size writing := by
  refine Option.ext fun which => ?_
  rw [refusal_eq_some_iff, refusal_eq_some_iff, table, table, h.pageTable, h.pageTableSize]
  cases m.pageTable with
  | none => rfl
  | some address => exact refusal_of_map (translate_congr (h.mapping address) _ _ _ _)

/-- Operations on both sides that leave the same registers and the same bytes. -/
theorem Alike.confined (h : m.Alike m') (hc : Confined m m₁) (hc' : Confined m' m₁')
    (hregisters : m₁'.registers = m₁.registers)
    (hbytes : ∀ v, m₁'.virtualByte v = m₁.virtualByte v) : m₁.Alike m₁' := by
  obtain ⟨t, ht⟩ := h.mapped
  obtain ⟨t', ht'⟩ := h.mapped'
  obtain ⟨t₁, ht₁, -⟩ := ht.confined hc
  obtain ⟨t₁', ht₁', -⟩ := ht'.confined hc'
  refine ⟨hregisters, ⟨t₁, ht₁⟩, ⟨t₁', ht₁'⟩, fun v size writing => ?_, hbytes⟩
  rw [hc.refusal_eq, hc'.refusal_eq, h.refused]

/-- An access that is not refused goes through. -/
theorem Mapped.translated (h : m.Mapped t) (hsize : size = 1 ∨ size = 2 ∨ size = 4)
    (hok : m.refusal v size writing = none) :
    ∃ physAddr entry, Translated t m.pageTableSize v size writing physAddr entry := by
  cases htr : translate m.table m.pageTableSize v size writing with
  | none =>
    rw [h.table] at htr
    exact absurd htr (translate_ne_none h.complete hsize)
  | some result =>
    cases result with
    | error which =>
      rw [refusal_eq_some_iff.mpr htr] at hok
      cases hok
    | ok found =>
      obtain ⟨t', entry, ht', hfound, -⟩ := translate_eq_ok_iff.mp htr
      cases h.table.symm.trans ht'
      exact ⟨_, entry, hfound⟩

end Machine

/-- The two ends are the same to the user program and to the handler that runs for it. -/
def Outcome.Alike {α : Type} : Outcome α → Outcome α → Prop
  | .ok value m, .ok value' m' => value = value' ∧ m.Alike m'
  | .trap which m, .trap which' m' => which = which' ∧ m.Alike m'
  | .abort, .abort => True
  | _, _ => False

namespace Sim

open Machine

variable {α β : Type}

/-- The operation ends alike on machines that are alike. -/
def Blind (x : Sim α) : Prop := ∀ m m', m.Alike m' → (x m).Alike (x m')

theorem blind_pure (a : α) : Blind (pure a : Sim α) := fun _ _ h => ⟨rfl, h⟩

theorem blind_abort : Blind (abort : Sim α) := fun _ _ _ => trivial

theorem blind_bind {x : Sim α} {f : α → Sim β} (hx : Blind x) (hf : ∀ a, Blind (f a)) :
    Blind (x >>= f) := by
  intro m m' h
  have hends := hx m m' h
  rw [bind_apply, bind_apply]
  cases hm : x m <;> cases hm' : x m' <;> rw [hm, hm'] at hends
  case ok.ok value m₁ value' m₁' =>
    obtain ⟨rfl, h₁⟩ := hends
    exact hf value m₁ m₁' h₁
  case trap.trap => exact hends
  case abort.abort => trivial
  all_goals cases hends

theorem blind_reg (num : Fin NumTotalRegs) : Blind (reg num) := fun _ _ h =>
  ⟨congrFun h.registers.symm num, h⟩

theorem blind_setReg (num : Fin NumTotalRegs) (value : Word) : Blind (setReg num value) := by
  intro m m' h
  refine ⟨rfl, ?_⟩
  have h₁ := h.withRegisters (Function.update m.registers num value)
  rwa [← h.registers] at h₁ ⊢

theorem blind_delayedLoad (nextReg nextValue : Word) : Blind (delayedLoad nextReg nextValue) := by
  refine blind_bind (blind_reg _) fun target => ?_
  split
  · refine blind_bind (blind_reg _) fun value => blind_bind (blind_setReg _ _) fun _ => ?_
    exact blind_bind (blind_setReg _ _) fun _ =>
      blind_bind (blind_setReg _ _) fun _ => blind_setReg _ _
  · exact blind_abort

theorem blind_raiseException (which : ExceptionType) (badVAddr : Word) :
    Blind (raiseException which badVAddr : Sim α) := by
  refine blind_bind (blind_setReg _ _) fun _ => blind_bind (blind_delayedLoad _ _) fun _ => ?_
  exact fun _ _ h => ⟨rfl, h⟩

theorem raiseException_ne_ok (which : ExceptionType) (badVAddr : Word) {m m' : Machine} {a : α} :
    raiseException which badVAddr m ≠ .ok a m' := by
  by_cases hload : (m.registers LoadReg).toNat < NumTotalRegs
  · rw [raiseException_apply _ _ hload]
    exact fun h => by cases h
  · rw [raiseException_abort _ _ hload]
    exact fun h => by cases h

theorem translateOrRaise_of_refusal {m : Machine} {addr : Word} {size : ℕ} {writing : Bool}
    {which : ExceptionType} (h : m.refusal addr size writing = some which) :
    translateOrRaise addr size writing m = raiseException which addr m := by
  have htr : translate (m.pageTable.map m.tables) _ _ _ _ = _ := refusal_eq_some_iff.mp h
  unfold translateOrRaise
  rw [htr]

theorem registers_of_readMem {addr value : Word} {size : ℕ} {m m' : Machine}
    (h : readMem addr size m = .ok value m') : m'.registers = m.registers := by
  obtain ⟨physAddr, m₁, hraise, hrest⟩ := bind_eq_ok_iff.mp h
  obtain ⟨address, entry, -, -, rfl⟩ := translateOrRaise_ok hraise
  simp only [bind_apply, get] at hrest
  split at hrest
  all_goals cases hrest
  all_goals rfl

theorem registers_of_writeMem {addr value : Word} {size : ℕ} {m m' : Machine}
    (h : writeMem addr size value m = .ok () m') : m'.registers = m.registers := by
  obtain ⟨address, physAddr, entry, -, -, rfl⟩ := writeMem_ok h
  rfl

/-- An access of an odd size fails an assertion, if not before. -/
theorem abort_of_size {m : Machine} {addr : Word} {size : ℕ} {writing : Bool} {f : ℕ → Sim α}
    (hf : ∀ physAddr m', f physAddr m' = .abort) (h : m.refusal addr size writing = none) :
    (translateOrRaise addr size writing >>= f) m = .abort := by
  rw [bind_apply]
  cases htr : translateOrRaise addr size writing m with
  | ok physAddr m' => exact hf physAddr m'
  | abort => rfl
  | trap which m' =>
    unfold translateOrRaise at htr
    split at htr
    · cases htr
    · next which' herror =>
      rw [refusal_eq_some_iff.mpr herror] at h
      cases h
    · split at htr <;> cases htr

theorem readMem_of_size {m : Machine} {addr : Word} {size : ℕ}
    (hsize : ¬ (size = 1 ∨ size = 2 ∨ size = 4)) (h : m.refusal addr size false = none) :
    readMem addr size m = .abort := by
  unfold readMem
  refine abort_of_size (fun physAddr m' => ?_) h
  simp only [bind_apply, get]
  split
  all_goals first | exact absurd (by decide) hsize | rfl

theorem writeMem_of_size {m : Machine} {addr : Word} {size : ℕ} (value : Word)
    (hsize : ¬ (size = 1 ∨ size = 2 ∨ size = 4)) (h : m.refusal addr size true = none) :
    writeMem addr size value m = .abort := by
  unfold writeMem
  refine abort_of_size (fun physAddr m' => ?_) h
  split
  all_goals first | exact absurd (by decide) hsize | rfl

/-- After a refusal nothing depends on what the access was for. -/
theorem blind_of_refusal {addr : Word} {size : ℕ} {writing : Bool} {f : ℕ → Sim α} {m m' : Machine}
    (h : m.Alike m') {which : ExceptionType} (hrefused : m.refusal addr size writing = some which) :
    ((translateOrRaise addr size writing >>= f) m).Alike
      ((translateOrRaise addr size writing >>= f) m') := by
  have hraise := blind_raiseException (α := ℕ) which addr m m' h
  have hrefused' : m'.refusal addr size writing = some which := (h.refused ..).trans hrefused
  rw [bind_apply, bind_apply, translateOrRaise_of_refusal hrefused,
    translateOrRaise_of_refusal hrefused']
  cases hm : (raiseException which addr : Sim ℕ) m <;>
    cases hm' : (raiseException which addr : Sim ℕ) m' <;> rw [hm, hm'] at hraise
  case ok.ok => exact absurd hm (raiseException_ne_ok _ _)
  case trap.trap => exact hraise
  case abort.abort => trivial
  all_goals cases hraise

theorem blind_readMem (addr : Word) (size : ℕ) : Blind (readMem addr size) := by
  intro m m' h
  cases hrefused : m.refusal addr size false with
  | some which => exact blind_of_refusal h hrefused
  | none =>
    have hrefused' : m'.refusal addr size false = none := (h.refused ..).trans hrefused
    by_cases hsize : size = 1 ∨ size = 2 ∨ size = 4
    · obtain ⟨t, ht⟩ := h.mapped
      obtain ⟨t', ht'⟩ := h.mapped'
      obtain ⟨physAddr, entry, htr⟩ := ht.translated hsize hrefused
      obtain ⟨physAddr', entry', htr'⟩ := ht'.translated hsize hrefused'
      obtain ⟨hshows, m₁, hread, hmem⟩ := ht.readMem_ok hsize htr
      obtain ⟨hshows', m₁', hread', hmem'⟩ := ht'.readMem_ok hsize htr'
      have hlength : (bytesAt m.mainMemory physAddr size).length =
          (bytesAt m'.mainMemory physAddr' size).length := by
        rw [length_bytesAt, length_bytesAt]
      have hsame : bytesAt m.mainMemory physAddr size = bytesAt m'.mainMemory physAddr' size :=
        hshows.unique (fun i hi => (h.bytes _).symm.trans (hshows' i hi)) hlength
      have hc := (keeps_readMem addr size).confined hread
      have hc' := (keeps_readMem addr size).confined hread'
      rw [hread, hread', hsame]
      refine ⟨rfl, h.confined hc hc' ?_ fun v => ?_⟩
      · rw [registers_of_readMem hread, registers_of_readMem hread', h.registers]
      · rw [(ht.unchanged hc hmem).2, (ht'.unchanged hc' hmem').2, h.bytes]
    · rw [readMem_of_size hsize hrefused, readMem_of_size hsize hrefused']
      trivial

theorem blind_writeMem (addr : Word) (size : ℕ) (value : Word) :
    Blind (writeMem addr size value) := by
  intro m m' h
  cases hrefused : m.refusal addr size true with
  | some which => exact blind_of_refusal h hrefused
  | none =>
    have hrefused' : m'.refusal addr size true = none := (h.refused ..).trans hrefused
    by_cases hsize : size = 1 ∨ size = 2 ∨ size = 4
    · obtain ⟨t, ht⟩ := h.mapped
      obtain ⟨t', ht'⟩ := h.mapped'
      obtain ⟨physAddr, entry, htr⟩ := ht.translated hsize hrefused
      obtain ⟨physAddr', entry', htr'⟩ := ht'.translated hsize hrefused'
      obtain ⟨m₁, hwrite⟩ :=
        (writeMem_ok_iff value hsize).mpr ⟨t, physAddr, entry, ht.table, htr⟩
      obtain ⟨m₁', hwrite'⟩ :=
        (writeMem_ok_iff value hsize).mpr ⟨t', physAddr', entry', ht'.table, htr'⟩
      have hc := (keeps_writeMem addr size value).confined hwrite
      have hc' := (keeps_writeMem addr size value).confined hwrite'
      rw [hwrite, hwrite']
      refine ⟨rfl, h.confined hc hc' ?_ fun v => ?_⟩
      · rw [registers_of_writeMem hwrite, registers_of_writeMem hwrite', h.registers]
      · rw [ht.written hsize hwrite, ht'.written hsize hwrite', h.bytes]
    · rw [writeMem_of_size value hsize hrefused, writeMem_of_size value hsize hrefused']
      trivial

section

variable (instr : Instruction) (pcAfter : Word)

theorem blind_done : Blind (done pcAfter) := blind_pure _

theorem blind_load (value : Word) : Blind (load instr value pcAfter) := blind_pure _

theorem blind_setRd (f : Word → Word → Word) : Blind (setRd instr f) :=
  blind_bind (blind_reg _) fun _ => blind_bind (blind_reg _) fun _ => blind_setReg _ _

theorem blind_setRt (f : Word → Word → Word) : Blind (setRt instr f) :=
  blind_bind (blind_reg _) fun _ => blind_setReg _ _

theorem blind_shiftRd (f : Word → Word → Word) : Blind (shiftRd instr f) :=
  blind_bind (blind_reg _) fun _ => blind_setReg _ _

theorem blind_link (num : Fin NumTotalRegs) : Blind (link num) :=
  blind_bind (blind_reg _) fun _ => blind_setReg _ _

theorem blind_effectiveAddress : Blind (effectiveAddress instr) :=
  blind_bind (blind_reg _) fun _ => blind_pure _

theorem blind_branchIf (taken : Bool) : Blind (branchIf instr pcAfter taken) := by
  unfold branchIf
  split
  · exact blind_bind (blind_reg _) fun _ => blind_done _
  · exact blind_done _

theorem blind_pendingRt : Blind (pendingRt instr) := by
  refine blind_bind (blind_reg _) fun target => ?_
  split
  · exact blind_reg _
  · exact blind_reg _

theorem blind_storeRt (size : ℕ) : Blind (storeRt instr size) :=
  blind_bind (blind_effectiveAddress _) fun _ =>
    blind_bind (blind_reg _) fun _ => blind_writeMem _ _ _

theorem blind_loadUnaligned (merge : Word → Word → Word → Word) :
    Blind (loadUnaligned instr pcAfter merge) := by
  refine blind_bind (blind_effectiveAddress _) fun tmp => ?_
  refine blind_bind (blind_readMem _ _) fun value => ?_
  exact blind_bind (blind_pendingRt _) fun _ => blind_load _ _ _

theorem blind_storeUnaligned (merge : Word → Word → Word → Word) :
    Blind (storeUnaligned instr merge) := by
  refine blind_bind (blind_effectiveAddress _) fun tmp => ?_
  refine blind_bind (blind_readMem _ _) fun value => ?_
  exact blind_bind (blind_reg _) fun _ => blind_writeMem _ _ _

theorem blind_then_done {x : Sim Unit} (hx : Blind x) : Blind (do x; done pcAfter) :=
  blind_bind hx fun _ => blind_done _

theorem blind_branchReg (num : Fin NumTotalRegs) (taken : Word → Bool) :
    Blind (do branchIf instr pcAfter (taken (← reg num))) :=
  blind_bind (blind_reg _) fun _ => blind_branchIf _ _ _

theorem blind_checked (num : Fin NumTotalRegs) (value : Word) (overflow : Prop)
    [Decidable overflow] :
    Blind (if overflow then raiseException .overflowException 0
      else do setReg num value; done pcAfter) := by
  split
  · exact blind_raiseException _ _
  · exact blind_then_done _ (blind_setReg _ _)

/-- Every case of the switch works on registers and through the installed table alone. -/
theorem blind_execute : Blind (execute instr pcAfter) := by
  obtain ⟨opCode, rs, rt, rd, extra⟩ := instr
  cases opCode with
  | addu | and | nor | or | sllv | slt | sltu | srav | srlv | subu | xor =>
    exact blind_then_done _ (blind_setRd _ _)
  | addiu | andi | lui | ori | slti | sltiu | xori => exact blind_then_done _ (blind_setRt _ _)
  | sll | sra | srl => exact blind_then_done _ (blind_shiftRd _ _)
  | add | sub =>
    exact blind_bind (blind_reg _) fun _ =>
      blind_bind (blind_reg _) fun _ => blind_checked _ _ _ _
  | addi => exact blind_bind (blind_reg _) fun _ => blind_checked _ _ _ _
  | beq | bne =>
    exact blind_bind (blind_reg _) fun _ =>
      blind_bind (blind_reg _) fun _ => blind_branchIf _ _ _
  | bgez | bgtz | blez | bltz => exact blind_branchReg _ _ _ _
  | bgezal | bltzal => exact blind_bind (blind_link _) fun _ => blind_branchReg _ _ _ _
  | div =>
    refine blind_bind (blind_reg _) fun dividend => blind_bind (blind_reg _) fun divisor => ?_
    split
    · exact blind_bind (blind_setReg _ _) fun _ => blind_then_done _ (blind_setReg _ _)
    · split
      · exact blind_bind blind_abort fun _ => blind_done _
      · refine blind_bind (blind_setReg _ _) fun _ => blind_bind (blind_reg _) fun _ => ?_
        exact blind_bind (blind_reg _) fun _ => blind_then_done _ (blind_setReg _ _)
  | divu =>
    refine blind_bind (blind_reg _) fun dividend => blind_bind (blind_reg _) fun divisor => ?_
    split
    · exact blind_bind (blind_setReg _ _) fun _ => blind_then_done _ (blind_setReg _ _)
    · exact blind_bind (blind_setReg _ _) fun _ => blind_then_done _ (blind_setReg _ _)
  | jal => exact blind_then_done _ (blind_link _)
  | j => exact blind_done _
  | jalr =>
    exact blind_bind (blind_link _) fun _ => blind_bind (blind_reg _) fun _ => blind_done _
  | jr => exact blind_bind (blind_reg _) fun _ => blind_done _
  | lb | lbu =>
    refine blind_bind (blind_effectiveAddress _) fun addr => ?_
    exact blind_bind (blind_readMem _ _) fun _ => blind_load _ _ _
  | lh | lhu | lw =>
    refine blind_bind (blind_effectiveAddress _) fun addr => ?_
    split
    · exact blind_raiseException _ _
    · exact blind_bind (blind_readMem _ _) fun _ => blind_load _ _ _
  | lwl | lwr => exact blind_loadUnaligned _ _ _
  | mfhi | mflo | mthi | mtlo =>
    exact blind_bind (blind_reg _) fun _ => blind_then_done _ (blind_setReg _ _)
  | mult | multu =>
    refine blind_bind (blind_reg _) fun a => blind_bind (blind_reg _) fun b => ?_
    exact blind_bind (blind_setReg _ _) fun _ => blind_then_done _ (blind_setReg _ _)
  | sb | sh | sw => exact blind_then_done _ (blind_storeRt _ _)
  | swl | swr => exact blind_then_done _ (blind_storeUnaligned _ _)
  | syscall | res | unimp => exact blind_raiseException _ _
  | rfe | special | bcond => exact blind_abort

end

/-- One instruction, whatever word is fetched. -/
theorem blind_oneInstruction : Blind oneInstruction := by
  refine blind_bind (blind_reg _) fun pc => blind_bind (blind_readMem _ _) fun raw => ?_
  refine blind_bind (blind_reg _) fun nextPC => blind_bind (blind_execute _ _) fun completion => ?_
  refine blind_bind (blind_delayedLoad _ _) fun _ => blind_bind (blind_reg _) fun _ => ?_
  refine blind_bind (blind_setReg _ _) fun _ => blind_bind (blind_reg _) fun _ => ?_
  exact blind_bind (blind_setReg _ _) fun _ => blind_setReg _ _

end Sim
end Nachos

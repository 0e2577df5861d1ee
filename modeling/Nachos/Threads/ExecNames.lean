import Nachos.Lib.Bitmap
import Nachos.Library.CStrings
import Nachos.Library.Runs

/-! The name of a program on its way from `ExecUpdate` to the constructor of its address space
(`threads/ptable.cc`, `threads/pcb.cc`). It is copied three times with `strncpy(.., strlen(..))`,
which does not write a terminator: the byte behind each copy is what was in the memory that `new`
returned. Other kernel code may run in between, and leaves the blocks of the names alone. -/
namespace Nachos.ExecNames

open CStrings

abbrev MAX_PROCESS : ℕ := 10

inductive Stage where
  /-- In the table, but `PCB::Exec` has not been called. -/
  | created
  | forked
  | started
  deriving DecidableEq

/-- A process, with the strings that its PCB and its thread point to. -/
structure Process where
  processName : ℕ
  processNameSize : ℕ
  /-- `threadname_copy`, which becomes the name of the thread. -/
  threadName : ℕ
  threadNameSize : ℕ
  stage : Stage
  deriving DecidableEq

/-- What a process is known by. The bytes are those behind the copies, before they were made. -/
inductive Event where
  /-- A call of `ExecUpdate` that returns `pid`. -/
  | exec (pid : ℕ) (name : List UInt8) (behindCopy behindProcessName : UInt8)
  /-- `StartProcess_1` hands a name to the constructor. -/
  | start (pid : ℕ) (threadName fileName : Option (List UInt8)) (behindFileName : UInt8)
  deriving DecidableEq

structure State where
  memory : Memory
  bm : Bitmap MAX_PROCESS
  pcb : ℕ → Option Process
  /-- What happened so far, the last event first. -/
  trace : List Event

/-- A block of memory: its address and its size. -/
abbrev Block := ℕ × ℕ

def Block.Apart (a b : Block) : Prop := a.1 + a.2 ≤ b.1 ∨ b.1 + b.2 ≤ a.1

instance (a b : Block) : Decidable (a.Apart b) := inferInstanceAs (Decidable (_ ∨ _))

def Process.blocks (process : Process) : List Block :=
  [(process.processName, process.processNameSize), (process.threadName, process.threadNameSize)]

/-- The blocks of the names in the table. -/
def State.blocks (s : State) : List Block :=
  (List.range MAX_PROCESS).flatMap fun i => (s.pcb i).elim [] Process.blocks

section

variable (memorySize : ℕ)

/-- Whether `new` can return this block. -/
def free (live : List Block) (block : Block) : Bool :=
  block.1 + block.2 ≤ memorySize && live.all fun other => block.Apart other

/-- The string at an address, if there is a zero before the end of memory. -/
def string (memory : Memory) (addr : ℕ) : Option (List UInt8) :=
  stringAt memory addr (memorySize - addr)

/-- `new char[strlen(src) + 1]` at `dest` and `strncpy(dest, src, strlen(src))`: the length, the
byte behind the copy and the memory. -/
def duplicate (live : List Block) (memory : Memory) (dest src : ℕ) :
    Option (ℕ × UInt8 × Memory) := do
  let len ← strlen memory src (memorySize - src)
  if free memorySize live (dest, len + 1) then
    return (len, memory (dest + len), strncpy memory dest src len)
  else none

/-- `PTable::ExecUpdate` up to the call of `PCB::Exec`. Its argument and the name of the current
thread are strings in memory; `opened` is the answer of `Open`, and `copy` and `processName` are
what `new` returns. -/
def execUpdate (s : State) (name : Option ℕ) (current : ℕ) (opened : Bool)
    (copy processName : ℕ) : Option State := do
  match name with
  | none => return s
  | some name =>
    if !opened then return s
    else
      let given ← string memorySize s.memory name
      let live := (name, given.length + 1) :: s.blocks
      let (len, behindCopy, memory) ← duplicate memorySize live s.memory copy name
      if (← string memorySize memory name) = (← string memorySize memory current) then
        return { s with memory }
      else
        let (index, bm) ← s.bm.findAndSet
        if index < 0 then return { s with memory }
        else
          -- `SetFileName`
          let live := (copy, len + 1) :: live
          let (n, behindProcessName, memory) ← duplicate memorySize live memory processName copy
          return {
            memory
            bm
            pcb := Function.update s.pcb index.toNat
              (some ⟨processName, n + 1, copy, len + 1, .created⟩)
            trace := .exec index.toNat given behindCopy behindProcessName :: s.trace }

inductive Label where
  | execUpdate (name : Option ℕ) (current : ℕ) (opened : Bool) (copy processName : ℕ)
  /-- The rest of `PCB::Exec`. -/
  | fork (pid : ℕ)
  /-- `StartProcess_1`, with what `new` returns to `GetFileName`. -/
  | start (pid fileName : ℕ)
  /-- `PTable::Remove`, by the process itself. -/
  | exit (pid : ℕ)
  /-- Anything else the kernel does. -/
  | other (memory : Memory)

/-- `StartProcess_1`, up to the constructor of the address space. -/
def startProcess (s : State) (pid : ℕ) (process : Process) (fileName : ℕ) : Option State := do
  if ← s.bm.test pid then
    let (_, behindFileName, memory) ←
      duplicate memorySize s.blocks s.memory fileName process.processName
    return { s with
      memory
      pcb := Function.update s.pcb pid (some { process with stage := .started })
      trace := .start pid (string memorySize memory process.threadName)
        (string memorySize memory fileName) behindFileName :: s.trace }
  else none

def step (s : State) : Label → Option State
  | .execUpdate name current opened copy processName =>
    execUpdate memorySize s name current opened copy processName
  | .fork pid => do
    let process ← s.pcb pid
    if process.stage = .created then
      return { s with pcb := Function.update s.pcb pid (some { process with stage := .forked }) }
    else none
  | .start pid fileName => do
    let process ← s.pcb pid
    if process.stage = .forked then startProcess memorySize s pid process fileName else none
  | .exit pid => do
    let process ← s.pcb pid
    if process.stage = .started then
      return { s with bm := ← s.bm.clear pid, pcb := Function.update s.pcb pid none }
    else none
  | .other memory =>
    if s.blocks.all fun block =>
      (List.range block.2).all fun i => memory (block.1 + i) = s.memory (block.1 + i)
    then some { s with memory } else none

end

/-- The last call of `ExecUpdate` that returned `pid`. -/
def lastExec (pid : ℕ) : List Event → Option (List UInt8 × UInt8 × UInt8)
  | [] => none
  | .exec pid' name behindCopy behindProcessName :: older =>
    if pid' = pid then some (name, behindCopy, behindProcessName) else lastExec pid older
  | .start .. :: older => lastExec pid older

/-- Both names of a process are right exactly if the byte behind each of the three copies was
zero to begin with. -/
def RightNames : List Event → Prop
  | [] => True
  | .exec .. :: older => RightNames older
  | .start pid threadName fileName behindFileName :: older =>
    (∃ name behindCopy behindProcessName,
      lastExec pid older = some (name, behindCopy, behindProcessName) ∧
      (fileName = some name ∧ threadName = some name ↔
        behindCopy = 0 ∧ behindProcessName = 0 ∧ behindFileName = 0)) ∧
    RightNames older

section

variable {memorySize : ℕ} {memory memory' : Memory} {live : List Block} {s s' : State}
  {addr dest src len : ℕ} {behind c : UInt8} {t : List UInt8}

/-- A string with one more byte is that string exactly if the byte is its terminator. -/
theorem string_eq_iff (h : Holds memory addr (t ++ [c])) (hzero : 0 ∉ t)
    (hroom : addr + t.length < memorySize) : string memorySize memory addr = some t ↔ c = 0 := by
  obtain ⟨hbefore, hc⟩ := holds_append_singleton.mp h
  rw [string, stringAt_eq_some_iff, hc]
  constructor
  · exact fun hstring => hstring.2.2.2
  · exact fun heq => ⟨by omega, hzero, hbefore, heq⟩

/-- What `duplicate` returns, and that it changes nothing but its block. -/
theorem duplicate_eq (h : duplicate memorySize live memory dest src = some (len, behind, memory')) :
    strlen memory src (memorySize - src) = some len ∧ dest + (len + 1) ≤ memorySize ∧
      (∀ other ∈ live, Block.Apart (dest, len + 1) other) ∧ behind = memory (dest + len) ∧
      memory' = strncpy memory dest src len := by
  obtain ⟨len', hlen, h⟩ := Option.bind_eq_some_iff.mp h
  split_ifs at h with hfree
  cases h
  rw [free, Bool.and_eq_true, decide_eq_true_eq, List.all_eq_true] at hfree
  exact ⟨hlen, hfree.1, fun other hother => of_decide_eq_true (hfree.2 other hother), rfl, rfl⟩

theorem duplicate_live (h : duplicate memorySize live memory dest src = some (len, behind, memory'))
    {block : Block} (hblock : block ∈ live) {i : ℕ} (hi : i < block.2) :
    memory' (block.1 + i) = memory (block.1 + i) := by
  obtain ⟨-, -, hlive, -, rfl⟩ := duplicate_eq h
  have hapart := hlive block hblock
  unfold Block.Apart at hapart
  exact strncpy_outside (by dsimp only at hapart; omega)

/-- A copy of a string with its terminator. Behind it is what was there before. -/
theorem duplicate_terminated
    (h : duplicate memorySize live memory dest src = some (len, behind, memory'))
    (hholds : Holds memory src (t ++ [0])) (hzero : 0 ∉ t) (hblock : (src, t.length + 1) ∈ live) :
    len = t.length ∧ Holds memory' dest (t ++ [behind]) := by
  obtain ⟨hlen, -, hlive, rfl, rfl⟩ := duplicate_eq h
  obtain ⟨-, hne, hend⟩ := strlen_eq_some_iff.mp hlen
  obtain ⟨hbefore, hterminator⟩ := holds_append_singleton.mp hholds
  have hlength : len = t.length := by
    rcases Nat.lt_trichotomy len t.length with hlt | heq | hgt
    · exact absurd hend (hbefore.ne_zero hzero hlt)
    · exact heq
    · exact absurd hterminator (hne _ hgt)
  subst hlength
  have hapart := hlive _ hblock
  unfold Block.Apart at hapart
  dsimp only at hapart
  refine ⟨rfl, holds_append_singleton.mpr ⟨hbefore.strncpy hzero le_rfl (by omega), ?_⟩⟩
  exact strncpy_outside (by omega)

/-- A copy of a string that goes on behind its block. -/
theorem duplicate_unterminated
    (h : duplicate memorySize live memory dest src = some (len, behind, memory'))
    (hholds : Holds memory src (t ++ [c])) (hzero : 0 ∉ t) (hc : c ≠ 0)
    (hblock : (src, t.length + 1) ∈ live) : t.length < len ∧ Holds memory' dest (t ++ [c]) := by
  obtain ⟨hlen, -, hlive, rfl, rfl⟩ := duplicate_eq h
  obtain ⟨-, -, hend⟩ := strlen_eq_some_iff.mp hlen
  have hzero' : 0 ∉ t ++ [c] := by
    rw [List.mem_append, List.mem_singleton, not_or]
    exact ⟨hzero, hc.symm⟩
  have hlength : (t ++ [c]).length = t.length + 1 := by simp
  have hlt : t.length < len := by
    by_contra hle
    exact hholds.ne_zero hzero' (by omega) hend
  have hapart := hlive _ hblock
  unfold Block.Apart at hapart
  dsimp only at hapart
  exact ⟨hlt, hholds.strncpy hzero' (by omega) (by omega)⟩

/-- What is in memory for a process that was given a name. -/
structure Named (memorySize : ℕ) (memory : Memory) (process : Process) (name : List UInt8)
    (behindCopy behindProcessName : UInt8) : Prop where
  zero : 0 ∉ name
  threadNameSize : process.threadNameSize = name.length + 1
  fits : process.threadName + process.threadNameSize ≤ memorySize
  thread : Holds memory process.threadName (name ++ [behindCopy])
  process : behindCopy = 0 → process.processNameSize = name.length + 1 ∧
    Holds memory process.processName (name ++ [behindProcessName])

theorem Named.congr {process : Process} {name : List UInt8} {b₁ b₂ : UInt8}
    (h : Named memorySize memory process name b₁ b₂)
    (hmem : ∀ block ∈ process.blocks, ∀ i < block.2, memory' (block.1 + i) = memory (block.1 + i)) :
    Named memorySize memory' process name b₁ b₂ := by
  have hthread := hmem (process.threadName, process.threadNameSize) (by simp [Process.blocks])
  have hname := hmem (process.processName, process.processNameSize) (by simp [Process.blocks])
  refine ⟨h.zero, h.threadNameSize, h.fits, h.thread.congr ?_, ?_⟩
  · intro i hi
    apply hthread i
    rw [h.threadNameSize]
    simpa using hi
  · intro hzero
    obtain ⟨hsize, hholds⟩ := h.process hzero
    refine ⟨hsize, hholds.congr ?_⟩
    intro i hi
    apply hname i
    rw [hsize]
    simpa using hi

structure Inv (memorySize : ℕ) (s : State) : Prop where
  named : ∀ pid process, s.pcb pid = some process → pid < MAX_PROCESS ∧
    ∃ name b₁ b₂, lastExec pid s.trace = some (name, b₁, b₂) ∧
      Named memorySize s.memory process name b₁ b₂
  right : RightNames s.trace

theorem mem_blocks {pid : ℕ} {process : Process} (hlt : pid < MAX_PROCESS)
    (hpcb : s.pcb pid = some process) {block : Block} (hblock : block ∈ process.blocks) :
    block ∈ s.blocks := by
  refine List.mem_flatMap.mpr ⟨pid, List.mem_range.mpr hlt, ?_⟩
  rw [hpcb]
  exact hblock

/-- A fact about every process, when one of them changes. -/
theorem forall_pcb_update {P : ℕ → Process → Prop} {pid : ℕ} {entry : Option Process}
    (h : ∀ i process, s.pcb i = some process → P i process)
    (hentry : ∀ process, entry = some process → P pid process) :
    ∀ i process, Function.update s.pcb pid entry i = some process → P i process :=
  (Function.forall_update_iff s.pcb fun i entry =>
    ∀ process, entry = some process → P i process).mpr ⟨hentry, fun i _ => h i⟩

/-- A step that leaves the blocks of the table alone. -/
theorem Inv.named_congr (h : Inv memorySize s)
    (hmem : ∀ block ∈ s.blocks, ∀ i < block.2, memory' (block.1 + i) = s.memory (block.1 + i))
    {pid : ℕ} {process : Process} (hpcb : s.pcb pid = some process) : pid < MAX_PROCESS ∧
      ∃ name b₁ b₂, lastExec pid s.trace = some (name, b₁, b₂) ∧
        Named memorySize memory' process name b₁ b₂ := by
  obtain ⟨hlt, name, b₁, b₂, hlast, hnamed⟩ := h.named pid process hpcb
  refine ⟨hlt, name, b₁, b₂, hlast, hnamed.congr ?_⟩
  intro block hblock
  exact hmem block (mem_blocks hlt hpcb hblock)

theorem Inv.other (h : Inv memorySize s)
    (hmem : ∀ block ∈ s.blocks, ∀ i < block.2, memory' (block.1 + i) = s.memory (block.1 + i)) :
    Inv memorySize { s with memory := memory' } :=
  ⟨fun _ _ hpcb => h.named_congr hmem hpcb, h.right⟩

theorem mem_of_string (h : string memorySize memory addr = some t) : addr + t.length < memorySize ∧
    0 ∉ t ∧ Holds memory addr (t ++ [0]) := by
  obtain ⟨hroom, hzero, hholds, hend⟩ := stringAt_eq_some_iff.mp h
  exact ⟨by omega, hzero, holds_append_singleton.mpr ⟨hholds, hend⟩⟩

/-- A new process: two copies, the second made of the first. -/
theorem named_new {name copy processName len n : ℕ} {given : List UInt8} {b₁ b₂ : UInt8}
    {memory₁ memory₂ : Memory} (hgiven : string memorySize memory name = some given)
    (hcopy : duplicate memorySize ((name, given.length + 1) :: live) memory copy name =
      some (len, b₁, memory₁))
    (hname : duplicate memorySize ((copy, len + 1) :: (name, given.length + 1) :: live) memory₁
      processName copy = some (n, b₂, memory₂)) (stage : Stage) :
    Named memorySize memory₂ ⟨processName, n + 1, copy, len + 1, stage⟩ given b₁ b₂ := by
  obtain ⟨hroom, hzero, hholds⟩ := mem_of_string hgiven
  obtain ⟨rfl, hcopied⟩ := duplicate_terminated hcopy hholds hzero List.mem_cons_self
  have hthread : Holds memory₂ copy (given ++ [b₁]) := by
    apply hcopied.congr
    intro i hi
    refine duplicate_live hname (List.mem_cons_self (a := (copy, given.length + 1))) ?_
    simpa using hi
  refine ⟨hzero, rfl, (duplicate_eq hcopy).2.1, hthread, ?_⟩
  rintro rfl
  obtain ⟨rfl, hnamed⟩ := duplicate_terminated hname hcopied hzero List.mem_cons_self
  exact ⟨rfl, hnamed⟩

theorem Inv.execUpdate (h : Inv memorySize s) {name : Option ℕ} {current : ℕ} {opened : Bool}
    {copy processName : ℕ}
    (hs : execUpdate memorySize s name current opened copy processName = some s') :
    Inv memorySize s' := by
  unfold ExecNames.execUpdate at hs
  cases name with
  | none =>
    cases hs
    exact h
  | some name =>
    dsimp only at hs
    split_ifs at hs
    · cases hs
      exact h
    obtain ⟨given, hgiven, hs⟩ := Option.bind_eq_some_iff.mp hs
    obtain ⟨⟨len, b₁, memory₁⟩, hcopy, hs⟩ := Option.bind_eq_some_iff.mp hs
    have hmem₁ : ∀ block ∈ s.blocks, ∀ i < block.2,
        memory₁ (block.1 + i) = s.memory (block.1 + i) := by
      intro block hblock i hi
      exact duplicate_live hcopy (List.mem_cons_of_mem _ hblock) hi
    obtain ⟨nameString, -, hs⟩ := Option.bind_eq_some_iff.mp hs
    obtain ⟨currentString, -, hs⟩ := Option.bind_eq_some_iff.mp hs
    split_ifs at hs
    · cases hs
      exact h.other hmem₁
    obtain ⟨⟨index, bm⟩, hindex, hs⟩ := Option.bind_eq_some_iff.mp hs
    dsimp only at hs
    split_ifs at hs with hneg
    · cases hs
      exact h.other hmem₁
    obtain ⟨⟨n, b₂, memory₂⟩, hname, hs⟩ := Option.bind_eq_some_iff.mp hs
    cases hs
    have hmem₂ : ∀ block ∈ s.blocks, ∀ i < block.2,
        memory₂ (block.1 + i) = s.memory (block.1 + i) := by
      intro block hblock i hi
      rw [duplicate_live hname (List.mem_cons_of_mem _ (List.mem_cons_of_mem _ hblock)) hi]
      exact hmem₁ block hblock i hi
    have hlt : index.toNat < MAX_PROCESS := by
      rw [Bitmap.findAndSet_eq] at hindex
      cases hhead : s.bm.clearList.head? with
      | none =>
        rw [hhead] at hindex
        cases hindex
        exact absurd (by decide) hneg
      | some i =>
        rw [hhead] at hindex
        cases hindex
        exact (Bitmap.mem_clearList.mp (List.mem_of_mem_head? hhead)).1
    refine ⟨?_, h.right⟩
    intro pid process hpcb
    dsimp only at hpcb
    by_cases hpid : pid = index.toNat
    · subst hpid
      rw [Function.update_self] at hpcb
      cases hpcb
      refine ⟨hlt, given, b₁, b₂, ?_, named_new hgiven hcopy hname _⟩
      rw [lastExec, if_pos rfl]
    · rw [Function.update_of_ne hpid] at hpcb
      obtain ⟨hlt', name', b₁', b₂', hlast, hnamed⟩ := h.named_congr hmem₂ hpcb
      refine ⟨hlt', name', b₁', b₂', ?_, hnamed⟩
      rw [lastExec, if_neg (Ne.symm hpid)]
      exact hlast

/-- The name of a process when it starts. -/
theorem Named.start {process : Process} {name : List UInt8} {b₁ b₂ b₃ : UInt8} {n fileName : ℕ}
    (h : Named memorySize memory process name b₁ b₂)
    (hlive : ∀ block ∈ process.blocks, block ∈ live)
    (hdup : duplicate memorySize live memory fileName process.processName = some (n, b₃, memory')) :
    string memorySize memory' fileName = some name ∧
      string memorySize memory' process.threadName = some name ↔ b₁ = 0 ∧ b₂ = 0 ∧ b₃ = 0 := by
  have hthreadBlock := hlive (process.threadName, process.threadNameSize) (by simp [Process.blocks])
  have hnameBlock := hlive (process.processName, process.processNameSize) (by simp [Process.blocks])
  have hthread : Holds memory' process.threadName (name ++ [b₁]) := by
    apply h.thread.congr
    intro i hi
    refine duplicate_live hdup hthreadBlock ?_
    rw [h.threadNameSize]
    simpa using hi
  have hfits := h.fits
  rw [h.threadNameSize] at hfits
  have hroom := (duplicate_eq hdup).2.1
  rw [string_eq_iff hthread h.zero (by omega), and_comm]
  refine and_congr_right ?_
  intro hzero
  obtain ⟨hsize, hholds⟩ := h.process hzero
  rw [hsize] at hnameBlock
  by_cases hb₂ : b₂ = 0
  · subst hb₂
    obtain ⟨rfl, hcopied⟩ := duplicate_terminated hdup hholds h.zero hnameBlock
    rw [string_eq_iff hcopied h.zero (by omega)]
    exact (and_iff_right rfl).symm
  · obtain ⟨hlt, hcopied⟩ := duplicate_unterminated hdup hholds h.zero hb₂ hnameBlock
    rw [string_eq_iff hcopied h.zero (by omega)]
    exact iff_of_false hb₂ fun hboth => hb₂ hboth.1

theorem Inv.startProcess (h : Inv memorySize s) {pid fileName : ℕ} {process : Process}
    (hpcb : s.pcb pid = some process)
    (hs : startProcess memorySize s pid process fileName = some s') : Inv memorySize s' := by
  obtain ⟨exists', -, hs⟩ := Option.bind_eq_some_iff.mp hs
  split_ifs at hs
  obtain ⟨⟨n, b₃, memory'⟩, hdup, hs⟩ := Option.bind_eq_some_iff.mp hs
  cases hs
  have hmem : ∀ block ∈ s.blocks, ∀ i < block.2, memory' (block.1 + i) = s.memory (block.1 + i) :=
    fun block hblock i hi => duplicate_live hdup hblock hi
  refine ⟨forall_pcb_update (fun _ _ hpcb' => h.named_congr hmem hpcb') ?_, ?_, h.right⟩
  · rintro _ ⟨⟩
    obtain ⟨hlt, name, b₁, b₂, hlast, hnamed⟩ := h.named_congr hmem hpcb
    exact ⟨hlt, name, b₁, b₂, hlast, hnamed.zero, hnamed.threadNameSize, hnamed.fits,
      hnamed.thread, hnamed.process⟩
  · obtain ⟨hlt, name, b₁, b₂, hlast, hnamed⟩ := h.named pid process hpcb
    exact ⟨name, b₁, b₂, hlast, hnamed.start (fun block hblock => mem_blocks hlt hpcb hblock) hdup⟩

theorem Inv.step (h : Inv memorySize s) {l : Label} (hs : step memorySize s l = some s') :
    Inv memorySize s' := by
  cases l with
  | execUpdate name current opened copy processName => exact h.execUpdate hs
  | fork pid =>
    obtain ⟨process, hpcb, hs⟩ := Option.bind_eq_some_iff.mp hs
    split_ifs at hs
    cases hs
    refine ⟨forall_pcb_update h.named ?_, h.right⟩
    rintro _ ⟨⟩
    obtain ⟨hlt, name, b₁, b₂, hlast, hnamed⟩ := h.named _ _ hpcb
    exact ⟨hlt, name, b₁, b₂, hlast, hnamed.zero, hnamed.threadNameSize, hnamed.fits,
      hnamed.thread, hnamed.process⟩
  | start pid fileName =>
    obtain ⟨process, hpcb, hs⟩ := Option.bind_eq_some_iff.mp hs
    split_ifs at hs
    exact h.startProcess hpcb hs
  | exit pid =>
    obtain ⟨process, hpcb, hs⟩ := Option.bind_eq_some_iff.mp hs
    split_ifs at hs
    obtain ⟨bm, -, hs⟩ := Option.bind_eq_some_iff.mp hs
    cases hs
    refine ⟨forall_pcb_update h.named ?_, h.right⟩
    rintro _ ⟨⟩
  | other memory =>
    obtain ⟨hkeep, hs⟩ := Option.ite_none_right_eq_some.mp hs
    cases hs
    apply h.other
    intro block hblock i hi
    have hall := List.all_eq_true.mp (List.all_eq_true.mp hkeep block hblock) i
      (List.mem_range.mpr hi)
    exact of_decide_eq_true hall

end

/-- The kernel before the first call of `ExecUpdate`. -/
def start (memory : Memory) (bm : Bitmap MAX_PROCESS) : State := ⟨memory, bm, fun _ => none, []⟩

/-- In every run, whatever is in memory and whoever else runs, a process gets the name that was
given to `ExecUpdate` exactly if the byte behind each copy happened to be zero. -/
theorem exec_names {memorySize : ℕ} {memory : Memory} {bm : Bitmap MAX_PROCESS} {s : State}
    (h : Runs.Reach (step memorySize) (fun _ _ => True) (start memory bm) s) :
    RightNames s.trace := by
  have h0 : Inv memorySize (start memory bm) := by
    refine ⟨?_, trivial⟩
    rintro pid process ⟨⟩
  exact (h.invariant h0 fun _ _ _ hi _ hs => hi.step hs).right

/-- The string `"a"` at 0 and `"main"` at 40, and one byte of the free memory. -/
def freshMemory (stale : UInt8) : Memory := fun addr =>
  if addr = 0 then 97 else if addr = 11 then stale else if addr < 40 then 0
  else ([109, 97, 105, 110] : List UInt8).getD (addr - 40) 0

/-- `ExecUpdate("a")` with its copies at 10 and 20, and the child with its copy at 30. -/
def execOfA : List Label := [.execUpdate (some 0) 40 true 10 20, .fork 1, .start 1 30]

/-- The trace of that run. -/
def traceOfA (stale : UInt8) : Option (List Event) := do
  let bm ← Bitmap.new MAX_PROCESS
  let bm ← bm.mark 0
  let s ← Runs.exec (step 64) (start (freshMemory stale) bm) execOfA
  return s.trace

theorem exists_of_traceOfA {stale : UInt8} {trace : List Event} (h : traceOfA stale = some trace) :
    ∃ bm s, Runs.Reach (step 64) (fun _ _ => True) (start (freshMemory stale) bm) s ∧
      s.trace = trace := by
  unfold traceOfA at h
  simp only [Option.bind_eq_bind, Option.bind_eq_some_iff] at h
  obtain ⟨-, -, bm, -, s, hs, h⟩ := h
  exact ⟨bm, s, Runs.reach_of_exec hs, Option.some.inj h⟩

theorem exec_names_zero : ∃ bm s,
    Runs.Reach (step 64) (fun _ _ => True) (start (freshMemory 0) bm) s ∧
    s.trace = [.start 1 (some [97]) (some [97]) 0, .exec 1 [97] 0 0] ∧ RightNames s.trace := by
  have htrace : traceOfA 0 = some [.start 1 (some [97]) (some [97]) 0, .exec 1 [97] 0 0] := by
    decide +kernel
  obtain ⟨bm, s, hr, htrace⟩ := exists_of_traceOfA htrace
  exact ⟨bm, s, hr, htrace, exec_names hr⟩

/-- A byte other than zero behind the first copy, and the child runs `"aX"`. -/
theorem exec_names_stale : ∃ bm s,
    Runs.Reach (step 64) (fun _ _ => True) (start (freshMemory 88) bm) s ∧
    s.trace = [.start 1 (some [97, 88]) (some [97, 88]) 0, .exec 1 [97] 88 0] :=
  exists_of_traceOfA (by decide +kernel)

end Nachos.ExecNames

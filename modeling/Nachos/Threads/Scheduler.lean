import Nachos.Library.Runs
import Nachos.Machine.Mipssim
import Nachos.Threads.Synch
import Nachos.Userprog.AddrSpace

/-! Context switches. `Scheduler::Run` saves the user registers before `SWITCH` and restores
them after it, on the stack of the thread that comes back; a thread that has not run yet goes
to `ThreadBegin` instead. All threads share the registers, the page-table pointer and the
memory of one machine. -/
namespace Nachos.Scheduler

open AddrSpace (Members)

/-- A `Thread`, as far as it matters to the machine. -/
structure Thread where
  userRegisters : Registers
  space : Option Members
  /-- The thread has been forked and not run: its stack leads to `ThreadRoot`. -/
  fresh : Bool

structure Kernel where
  machine : Machine
  currentThread : ThreadId
  /-- The threads that have not been deleted, numbered in the order of creation. -/
  threads : ThreadId → Option Thread
  next : ThreadId
  toBeDestroyed : Option ThreadId

namespace Thread

/-- `Thread::SaveUserState`. -/
def saveUserState (th : Thread) (m : Machine) : Thread := { th with userRegisters := m.registers }

/-- `Thread::RestoreUserState`. -/
def restoreUserState (th : Thread) (m : Machine) : Machine :=
  { m with registers := th.userRegisters }

/-- The part of `Run` before `SWITCH`; `AddrSpace::SaveState` does nothing. -/
def saved (th : Thread) (m : Machine) : Thread :=
  if th.space.isSome then th.saveUserState m else th

/-- The part of `Run` after `SWITCH`. -/
def restored (th : Thread) (m : Machine) : Machine :=
  match th.space with
  | some space => AddrSpace.restoreState space (th.restoreUserState m)
  | none => m

end Thread

namespace Kernel

/-- `Scheduler::CheckToBeDestroyed`, with the assertion of `~Thread`. -/
def checkToBeDestroyed (k : Kernel) : Option Kernel :=
  match k.toBeDestroyed with
  | none => some k
  | some t =>
    if t = k.currentThread then none
    else some { k with threads := Function.update k.threads t none, toBeDestroyed := none }

/-- `Scheduler::Run` up to `SWITCH`. -/
def switchOut (k : Kernel) (nextThread : ThreadId) (finishing : Bool) : Option Kernel := do
  let oldThread ← k.threads k.currentThread
  if finishing && k.toBeDestroyed.isSome then none
  else
    return { k with
      toBeDestroyed := if finishing then some k.currentThread else k.toBeDestroyed
      threads := Function.update k.threads k.currentThread (some (oldThread.saved k.machine))
      currentThread := nextThread }

/-- What the thread that has been switched to does first: `Thread::Begin` if it has not run
yet, else the rest of the `Run` by which it left. -/
def switchIn (k : Kernel) : Option Kernel := do
  let k ← k.checkToBeDestroyed
  let th ← k.threads k.currentThread
  return { k with
    machine := if th.fresh then k.machine else th.restored k.machine
    threads := Function.update k.threads k.currentThread (some { th with fresh := false }) }

/-- `Scheduler::Run`. -/
def run (k : Kernel) (nextThread : ThreadId) (finishing : Bool) : Option Kernel := do
  (← k.switchOut nextThread finishing).switchIn

/-- An operation of the machine, on its own or up to the handler it traps to. -/
def hardware {α : Type} (k : Kernel) (x : Sim α) : Option Kernel :=
  match x k.machine with
  | .ok _ m | .trap _ m => some { k with machine := m }
  | .abort => none

/-- The address space of the current thread. -/
def currentSpace (k : Kernel) : Option Members := (k.threads k.currentThread).bind Thread.space

/-- `currentThread->space = space`. -/
def setSpace (k : Kernel) (space : Option Members) : Option Kernel := do
  let th ← k.threads k.currentThread
  return { k with
    threads := Function.update k.threads k.currentThread (some { th with space := space }) }

/-- `AddrSpace::Execute`, up to the first instruction. -/
def execute (k : Kernel) (space : Members) : Option Kernel := do
  let k ← k.setSpace (some space)
  return { k with machine := AddrSpace.execute space k.machine }

/-- A `Thread` is created and forked; `userRegisters` is not initialised. -/
def fork (k : Kernel) (userRegisters : Registers) : Kernel :=
  { k with
    threads := Function.update k.threads k.next (some ⟨userRegisters, none, true⟩)
    next := k.next + 1 }

end Kernel

/-- What happens between two context switches, and the switches. -/
inductive Event where
  /-- One user instruction of the current thread. -/
  | instruction
  /-- What handlers do for the current thread through the machine's interface. -/
  | writeRegister (num : Fin NumTotalRegs) (value : Word)
  | readMem (addr : Word) (size : ℕ)
  | writeMem (addr : Word) (size : ℕ) (value : Word)
  | execute (space : Members)
  /-- `Thread::FreeSpace` of the current thread. -/
  | freeSpace
  | fork (userRegisters : Registers)
  | run (nextThread : ThreadId) (finishing : Bool)
  /-- Anything else in the kernel, such as a constructor of `AddrSpace` that fills a table and
  loads a program. -/
  | kernel (mainMemory : ByteStore.Store) (tables : ℕ → PageTable)

def step (k : Kernel) : Event → Option Kernel
  | .instruction => if k.currentSpace.isSome then k.hardware Sim.oneInstruction else none
  | .writeRegister num value => k.hardware (Sim.setReg num value)
  | .readMem addr size => k.hardware (Sim.readMem addr size)
  | .writeMem addr size value => k.hardware (Sim.writeMem addr size value)
  | .execute space => k.execute space
  | .freeSpace => k.setSpace none
  | .fork userRegisters => some (k.fork userRegisters)
  | .run nextThread finishing => k.run nextThread finishing
  | .kernel mainMemory tables =>
    some { k with machine := { k.machine with mainMemory := mainMemory, tables := tables } }

/-- Nachos after booting: one thread, with no address space. -/
structure Booted (k : Kernel) : Prop where
  main : ∃ th, k.threads k.currentThread = some th ∧ th.space = none ∧ th.fresh = false
  alone : ∀ t, t ≠ k.currentThread → k.threads t = none
  next : k.currentThread < k.next
  toBeDestroyed : k.toBeDestroyed = none

/-- The table of a space. -/
def Kernel.tableOf (k : Kernel) (space : Members) : PageTable :=
  match space.pageTable with
  | some address => k.machine.tables address
  | none => []

/-- The frames that a thread's address space owns. -/
def Kernel.frames (k : Kernel) (t : ThreadId) : List ℕ :=
  match (k.threads t).bind Thread.space with
  | some space => (k.tableOf space).map TranslationEntry.pageFrame
  | none => []

/-- Live address spaces own disjoint frames. -/
def Kernel.SpacesDisjoint (k : Kernel) : Prop :=
  ∀ t < k.next, ∀ u < k.next, t ≠ u → ∀ frame ∈ k.frames t, frame ∉ k.frames u

instance (k : Kernel) : Decidable k.SpacesDisjoint := Nat.decidableBallLT _ _

/-- What the others may do while thread `t` is away: user instructions and what handlers do
for them through their own table, starting and ending programs, and switching. -/
def Event.Permitted (k : Kernel) : Event → Prop
  | .writeRegister .. | .readMem .. | .writeMem .. => k.currentSpace.isSome
  | .kernel .. => False
  | _ => True

instance (k : Kernel) : (e : Event) → Decidable (e.Permitted k)
  | .writeRegister .. | .readMem .. | .writeMem .. =>
    inferInstanceAs (Decidable (k.currentSpace.isSome = true))
  | .kernel .. => inferInstanceAs (Decidable False)
  | .instruction | .execute _ | .freeSpace | .fork _ | .run .. => inferInstanceAs (Decidable True)

def Meanwhile (t : ThreadId) (k : Kernel) (e : Event) : Prop :=
  k.currentThread ≠ t ∧ k.SpacesDisjoint ∧ e.Permitted k

instance (t : ThreadId) (k : Kernel) (e : Event) : Decidable (Meanwhile t k e) :=
  inferInstanceAs (Decidable (_ ∧ _ ∧ _))

/-- The byte that a user program sees at a virtual address. -/
def userByte (m : Machine) (v : Word) : Option UInt8 :=
  m.table.bind fun table => readByte table m.pageTableSize m.mainMemory v

/-- The two states look the same to the user program of the current thread. -/
structure SameUserState (k k' : Kernel) : Prop where
  registers : k'.machine.registers = k.machine.registers
  pageTable : k'.machine.pageTable = k.machine.pageTable
  pageTableSize : k'.machine.pageTableSize = k.machine.pageTableSize
  bytes : ∀ v, userByte k'.machine v = userByte k.machine v

/-- What a step does, by the kind of its event. -/
inductive Move (k : Kernel) : Event → Kernel → Prop
  | hardware {e : Event} {m : Machine} (space : e.Permitted k → k.currentSpace.isSome)
      (confined : k.machine.Confined m) : Move k e { k with machine := m }
  | execute {space : Members} {th : Thread} (current : k.threads k.currentThread = some th) :
      Move k (.execute space) { k with
        machine := AddrSpace.execute space k.machine
        threads := Function.update k.threads k.currentThread
          (some { th with space := some space }) }
  | freeSpace {th : Thread} (current : k.threads k.currentThread = some th) :
      Move k .freeSpace { k with
        threads := Function.update k.threads k.currentThread (some { th with space := none }) }
  | fork (userRegisters : Registers) : Move k (.fork userRegisters) (k.fork userRegisters)
  | run {nextThread : ThreadId} {finishing : Bool} {k' : Kernel}
      (run : k.run nextThread finishing = some k') : Move k (.run nextThread finishing) k'
  | kernel {mainMemory : ByteStore.Store} {tables : ℕ → PageTable} :
      Move k (.kernel mainMemory tables)
        { k with machine := { k.machine with mainMemory := mainMemory, tables := tables } }

theorem hardware_confined {α : Type} {x : Sim α} (hx : x.Keeps) {k k' : Kernel}
    (h : k.hardware x = some k') :
    ∃ m, k.machine.Confined m ∧ k' = { k with machine := m } := by
  have hk := hx k.machine
  unfold Kernel.hardware at h
  split at h
  · next hok =>
    rw [hok] at hk
    exact ⟨_, hk, (Option.some.inj h).symm⟩
  · next htrap =>
    rw [htrap] at hk
    exact ⟨_, hk, (Option.some.inj h).symm⟩
  · cases h

theorem setSpace_eq {k k' : Kernel} {space : Option Members} (h : k.setSpace space = some k') :
    ∃ th, k.threads k.currentThread = some th ∧ k' = { k with
      threads := Function.update k.threads k.currentThread (some { th with space := space }) } := by
  obtain ⟨th, hth, h⟩ := Option.bind_eq_some_iff.mp h
  exact ⟨th, hth, (Option.some.inj h).symm⟩

theorem step_move {k k' : Kernel} {e : Event} (h : step k e = some k') : Move k e k' := by
  cases e with
  | instruction =>
    simp only [step] at h
    split at h
    · next hspace =>
      obtain ⟨m, hm, rfl⟩ := hardware_confined Sim.keeps_oneInstruction h
      exact .hardware (fun _ => hspace) hm
    · cases h
  | writeRegister num value =>
    obtain ⟨m, hm, rfl⟩ := hardware_confined (Sim.keeps_setReg num value) h
    exact .hardware id hm
  | readMem addr size =>
    obtain ⟨m, hm, rfl⟩ := hardware_confined (Sim.keeps_readMem addr size) h
    exact .hardware id hm
  | writeMem addr size value =>
    obtain ⟨m, hm, rfl⟩ := hardware_confined (Sim.keeps_writeMem addr size value) h
    exact .hardware id hm
  | execute space =>
    obtain ⟨k₁, hset, h⟩ := Option.bind_eq_some_iff.mp h
    obtain ⟨th, hth, rfl⟩ := setSpace_eq hset
    cases h
    exact .execute hth
  | freeSpace =>
    obtain ⟨th, hth, rfl⟩ := setSpace_eq h
    exact .freeSpace hth
  | fork userRegisters =>
    cases h
    exact .fork userRegisters
  | run nextThread finishing => exact .run h
  | kernel mainMemory tables =>
    cases h
    exact .kernel

/-- The threads as `SWITCH` leaves them to the next one, with a finished thread deleted. -/
def Kernel.parked (k : Kernel) (oldThread : Thread) (finishing : Bool) :
    ThreadId → Option Thread :=
  Function.update k.threads k.currentThread
    (if finishing then none else some (oldThread.saved k.machine))

/-- One context switch, from either side of `SWITCH`. -/
theorem run_eq {k k' : Kernel} {nextThread : ThreadId} {finishing : Bool}
    (hdestroy : k.toBeDestroyed = none) (h : k.run nextThread finishing = some k') :
    ∃ oldThread th, k.threads k.currentThread = some oldThread ∧
      k.parked oldThread finishing nextThread = some th ∧
      k' = { k with
        currentThread := nextThread
        machine := if th.fresh then k.machine else th.restored k.machine
        threads := Function.update (k.parked oldThread finishing) nextThread
          (some { th with fresh := false }) } := by
  obtain ⟨k₁, hout, hin⟩ := Option.bind_eq_some_iff.mp h
  obtain ⟨oldThread, hold, hout⟩ := Option.bind_eq_some_iff.mp hout
  rw [hdestroy] at hout
  simp only [Option.isSome_none, Bool.and_false, Bool.false_eq_true, if_false] at hout
  cases hout
  obtain ⟨k₂, hcheck, hin⟩ := Option.bind_eq_some_iff.mp hin
  obtain ⟨th, hth, hin⟩ := Option.bind_eq_some_iff.mp hin
  refine ⟨oldThread, th, hold, ?_⟩
  cases finishing with
  | false =>
    cases hcheck
    exact ⟨hth, by cases hin; simp [Kernel.parked, hdestroy]⟩
  | true =>
    simp only [Kernel.checkToBeDestroyed, if_true] at hcheck
    split at hcheck
    · cases hcheck
    · cases hcheck
      cases hin
      simp only [Function.update_idem] at hth
      exact ⟨hth, by simp [Kernel.parked, hdestroy]⟩

/-- The thread found after one entry has been replaced. -/
theorem update_eq_some {threads : ThreadId → Option Thread} {t u : ThreadId} {new : Option Thread}
    {th : Thread} (h : Function.update threads t new u = some th) :
    (u = t ∧ new = some th) ∨ (u ≠ t ∧ threads u = some th) := by
  by_cases hu : u = t
  · subst hu
    rw [Function.update_self] at h
    exact .inl ⟨rfl, h⟩
  · rw [Function.update_of_ne hu] at h
    exact .inr ⟨hu, h⟩

theorem currentSpace_of_thread {k : Kernel} {th : Thread}
    (h : k.threads k.currentThread = some th) : k.currentSpace = th.space := by
  rw [Kernel.currentSpace, h]
  rfl

/-- The current thread with its address space has that space installed. -/
structure KernelInv (k : Kernel) : Prop where
  toBeDestroyed : k.toBeDestroyed = none
  bounded : ∀ t th, k.threads t = some th → t < k.next
  fresh : ∀ t th, k.threads t = some th → th.fresh = true → th.space = none
  current : ∃ th, k.threads k.currentThread = some th ∧ th.fresh = false
  installed : ∀ space, k.currentSpace = some space →
    k.machine.pageTable = space.pageTable ∧ k.machine.pageTableSize = space.numPages

theorem Booted.inv {k : Kernel} (h : Booted k) : KernelInv k := by
  obtain ⟨main, hmain, hspace, hfresh⟩ := h.main
  have honly {t : ThreadId} {th : Thread} (ht : k.threads t = some th) :
      t = k.currentThread ∧ th = main := by
    by_cases hc : t = k.currentThread
    · subst hc
      exact ⟨rfl, Option.some.inj (ht.symm.trans hmain)⟩
    · rw [h.alone t hc] at ht
      cases ht
  refine ⟨h.toBeDestroyed, ?_, ?_, ⟨main, hmain, hfresh⟩, ?_⟩
  · intro t th ht
    rw [(honly ht).1]
    exact h.next
  · intro t th ht _
    rw [(honly ht).2]
    exact hspace
  · intro space hs
    rw [currentSpace_of_thread hmain, hspace] at hs
    cases hs

section

variable {k k' : Kernel}

/-- Replacing the current thread by one that has run keeps the thread table in order. -/
theorem KernelInv.bounded_update (h : KernelInv k) {new : Option Thread} {t : ThreadId}
    {th : Thread} (ht : Function.update k.threads k.currentThread new t = some th) :
    t < k.next := by
  rcases update_eq_some ht with ⟨rfl, -⟩ | ⟨-, ht⟩
  · obtain ⟨cur, hcur, -⟩ := h.current
    exact h.bounded _ cur hcur
  · exact h.bounded t th ht

theorem KernelInv.fresh_update (h : KernelInv k) {new : Option Thread}
    (hnew : ∀ th, new = some th → th.fresh = false) {t : ThreadId} {th : Thread}
    (ht : Function.update k.threads k.currentThread new t = some th) (hf : th.fresh = true) :
    th.space = none := by
  rcases update_eq_some ht with ⟨-, heq⟩ | ⟨-, ht⟩
  · rw [hnew th heq] at hf
    cases hf
  · exact h.fresh t th ht hf

@[simp] theorem Thread.saved_fresh (th : Thread) (m : Machine) : (th.saved m).fresh = th.fresh := by
  unfold Thread.saved
  split <;> rfl

theorem Thread.restored_tables (th : Thread) (m : Machine) :
    (th.restored m).tables = m.tables ∧ (th.restored m).mainMemory = m.mainMemory := by
  unfold Thread.restored
  split <;> exact ⟨rfl, rfl⟩

theorem Thread.restored_installed {th : Thread} {space : Members} (h : th.space = some space)
    (m : Machine) : (th.restored m).pageTable = space.pageTable ∧
      (th.restored m).pageTableSize = space.numPages ∧
      (th.restored m).registers = th.userRegisters := by
  unfold Thread.restored
  rw [h]
  exact ⟨rfl, rfl, rfl⟩

theorem KernelInv.run (h : KernelInv k) {nextThread : ThreadId} {finishing : Bool}
    (hrun : k.run nextThread finishing = some k') : KernelInv k' := by
  obtain ⟨oldThread, th, hold, hth, rfl⟩ := run_eq h.toBeDestroyed hrun
  obtain ⟨cur, hcur, hran⟩ := h.current
  obtain rfl := Option.some.inj (hold.symm.trans hcur)
  have hparked : ∀ new, (if finishing then none else some (oldThread.saved k.machine)) = some new →
      new.fresh = false := by
    intro new hnew
    split at hnew
    · cases hnew
    · cases hnew
      rw [Thread.saved_fresh, hran]
  refine ⟨h.toBeDestroyed, ?_, ?_, ⟨_, Function.update_self .., rfl⟩, ?_⟩
  · intro t uh ht
    rcases update_eq_some ht with ⟨rfl, -⟩ | ⟨-, ht⟩
    · exact h.bounded_update hth
    · exact h.bounded_update ht
  · intro t uh ht hf
    rcases update_eq_some ht with ⟨-, heq⟩ | ⟨-, ht⟩
    · cases heq
      cases hf
    · exact h.fresh_update hparked ht hf
  · intro space hs
    rw [currentSpace_of_thread (Function.update_self ..)] at hs
    cases hf : th.fresh with
    | true =>
      -- a thread that begins has no space yet
      rw [h.fresh_update hparked hth hf] at hs
      cases hs
    | false =>
      obtain ⟨hp, hn, -⟩ := Thread.restored_installed hs k.machine
      simpa using ⟨hp, hn⟩

theorem KernelInv.step (h : KernelInv k) {e : Event} (hs : step k e = some k') : KernelInv k' := by
  obtain ⟨cur, hcur, hran⟩ := h.current
  cases step_move hs with
  | hardware _ hm =>
    refine ⟨h.toBeDestroyed, h.bounded, h.fresh, h.current, ?_⟩
    intro space hspace
    rw [hm.pageTable, hm.pageTableSize]
    exact h.installed space hspace
  | execute hth =>
    obtain rfl := Option.some.inj (hth.symm.trans hcur)
    refine ⟨h.toBeDestroyed, fun t uh => h.bounded_update, fun t uh => h.fresh_update ?_,
      ⟨_, Function.update_self .., hran⟩, ?_⟩
    · rintro _ ⟨⟩
      exact hran
    · intro space hspace
      rw [currentSpace_of_thread (Function.update_self ..)] at hspace
      cases hspace
      exact ⟨rfl, rfl⟩
  | freeSpace hth =>
    obtain rfl := Option.some.inj (hth.symm.trans hcur)
    refine ⟨h.toBeDestroyed, fun t uh => h.bounded_update, fun t uh => h.fresh_update ?_,
      ⟨_, Function.update_self .., hran⟩, ?_⟩
    · rintro _ ⟨⟩
      exact hran
    · intro space hspace
      rw [currentSpace_of_thread (Function.update_self ..)] at hspace
      cases hspace
  | fork userRegisters =>
    have hne : k.currentThread ≠ k.next := (h.bounded _ cur hcur).ne
    have hsame : (k.fork userRegisters).threads k.currentThread = some cur :=
      (Function.update_of_ne hne ..).trans hcur
    refine ⟨h.toBeDestroyed, ?_, ?_, ⟨cur, hsame, hran⟩, ?_⟩
    · intro t uh ht
      rcases update_eq_some ht with ⟨rfl, -⟩ | ⟨-, ht⟩
      · exact Nat.lt_succ_self _
      · exact (h.bounded t uh ht).trans (Nat.lt_succ_self _)
    · intro t uh ht hf
      rcases update_eq_some ht with ⟨-, heq⟩ | ⟨-, ht⟩
      · cases heq
        rfl
      · exact h.fresh t uh ht hf
    · intro space hspace
      rw [currentSpace_of_thread hsame, ← currentSpace_of_thread hcur] at hspace
      exact h.installed space hspace
  | run hrun => exact h.run hrun
  | kernel => exact ⟨h.toBeDestroyed, h.bounded, h.fresh, h.current, h.installed⟩

end

theorem KernelInv.reach {allow : Kernel → Event → Prop} {k k' : Kernel} (h : KernelInv k)
    (hrun : Runs.Reach Scheduler.step allow k k') : KernelInv k' :=
  hrun.invariant h fun _ _ _ hk _ hs => hk.step hs

/-- Two pages that share a byte are the same frame. -/
theorem frame_of_inFrames {table : PageTable} {a : ℤ} (h : InFrames table a) :
    ∃ frame ∈ table.map TranslationEntry.pageFrame,
      (frame * PageSize : ℕ) ≤ a ∧ a < (frame * PageSize + PageSize : ℕ) := by
  obtain ⟨entry, he, h0, h1⟩ := h
  exact ⟨_, List.mem_map_of_mem he, h0, h1⟩

theorem frames_of_thread {k : Kernel} {t : ThreadId} {th : Thread} {space : Members}
    (h : k.threads t = some th) (hs : th.space = some space) :
    k.frames t = (k.tableOf space).map TranslationEntry.pageFrame := by
  unfold Kernel.frames
  rw [h, Option.bind_some, hs]

/-- A byte of one live space is in the frames of no other. -/
theorem SpacesDisjoint.not_inFrames {k : Kernel} (h : k.SpacesDisjoint) {t u : ThreadId}
    {th uh : Thread} {space space' : Members} (ht : k.threads t = some th) (htn : t < k.next)
    (hu : k.threads u = some uh) (hun : u < k.next) (hs : th.space = some space)
    (hs' : uh.space = some space') (hne : t ≠ u) {a : ℤ} (ha : InFrames (k.tableOf space) a) :
    ¬ InFrames (k.tableOf space') a := by
  intro ha'
  obtain ⟨frame, hmem, h0, h1⟩ := frame_of_inFrames ha
  obtain ⟨frame', hmem', h0', h1'⟩ := frame_of_inFrames ha'
  have hframe : frame = frame' := by
    simp only [PageSize] at h0 h1 h0' h1'
    omega
  subst hframe
  rw [← frames_of_thread ht hs] at hmem
  rw [← frames_of_thread hu hs'] at hmem'
  exact h t htn u hun hne frame hmem hmem'

/-- The registers of thread `t` are in its object while it is away, and in the machine again
when it is back. -/
structure Saved (t : ThreadId) (registers : Registers) (space : Members) (k : Kernel) : Prop where
  thread : k.threads t = some ⟨registers, some space, false⟩
  resumed : k.currentThread = t → k.machine.registers = registers

/-- Another thread than `t` is running. -/
def Away (t : ThreadId) (k : Kernel) (_ : Event) : Prop := k.currentThread ≠ t

instance (t : ThreadId) (k : Kernel) (e : Event) : Decidable (Away t k e) :=
  inferInstanceAs (Decidable (_ ≠ _))

section

variable {k k' : Kernel} {t : ThreadId} {registers : Registers} {space : Members}

theorem Saved.run (h : Saved t registers space k) (hk : KernelInv k) (haway : k.currentThread ≠ t)
    {nextThread : ThreadId} {finishing : Bool} (hrun : k.run nextThread finishing = some k') :
    Saved t registers space k' := by
  obtain ⟨oldThread, th, hold, hth, rfl⟩ := run_eq hk.toBeDestroyed hrun
  have hmine : k.parked oldThread finishing t = some _ :=
    (Function.update_of_ne haway.symm ..).trans h.thread
  constructor
  · by_cases hn : t = nextThread
    · subst hn
      obtain rfl := Option.some.inj (hth.symm.trans hmine)
      exact Function.update_self ..
    · exact (Function.update_of_ne hn ..).trans hmine
  · rintro rfl
    obtain rfl := Option.some.inj (hth.symm.trans hmine)
    rfl

/-- Nothing that other threads do changes the saved registers. -/
theorem Saved.step (h : Saved t registers space k) (hk : KernelInv k) {e : Event}
    (haway : Away t k e) (hs : Scheduler.step k e = some k') : Saved t registers space k' := by
  have hother : ∀ {new}, Function.update k.threads k.currentThread new t = k.threads t :=
    Function.update_of_ne (Ne.symm haway) ..
  cases step_move hs with
  | hardware hspace hm => exact ⟨h.thread, fun hc => absurd hc haway⟩
  | execute hth => exact ⟨hother.trans h.thread, fun hc => absurd hc haway⟩
  | freeSpace hth => exact ⟨hother.trans h.thread, fun hc => absurd hc haway⟩
  | fork userRegisters =>
    have hne : t ≠ k.next := (hk.bounded _ _ h.thread).ne
    exact ⟨(Function.update_of_ne hne ..).trans h.thread, h.resumed⟩
  | run hrun => exact h.run hk haway hrun
  | kernel => exact ⟨h.thread, h.resumed⟩

/-- The registers are saved as soon as `Run` has switched away from the thread, also if it
switches to itself because an interrupt made it ready while it waited. -/
theorem KernelInv.saved (hs : KernelInv k) (hspace : k.currentSpace = some space)
    {nextThread : ThreadId} (hrun : k.run nextThread false = some k') :
    Saved k.currentThread k.machine.registers space k' := by
  obtain ⟨oldThread, th, hold, hth, rfl⟩ := run_eq hs.toBeDestroyed hrun
  obtain ⟨cur, hcur, hran⟩ := hs.current
  obtain rfl := Option.some.inj (hold.symm.trans hcur)
  rw [currentSpace_of_thread hold] at hspace
  have hsaved : oldThread.saved k.machine = ⟨k.machine.registers, some space, false⟩ := by
    simp [Thread.saved, Thread.saveUserState, hspace, hran]
  have hmine : k.parked oldThread false k.currentThread =
      some ⟨k.machine.registers, some space, false⟩ := by
    rw [← hsaved]
    exact Function.update_self ..
  constructor
  · by_cases hn : k.currentThread = nextThread
    · subst hn
      obtain rfl := Option.some.inj (hth.symm.trans hmine)
      exact Function.update_self ..
    · exact (Function.update_of_ne hn ..).trans hmine
  · rintro rfl
    obtain rfl := Option.some.inj (hth.symm.trans hmine)
    rfl

end

/-- A thread that has been switched out has its registers back when it runs again. -/
theorem registers_restored {boot s s₁ s₂ : Kernel} {space : Members} {nextThread : ThreadId}
    (hboot : Booted boot) (hrun : Runs.Reach step (fun _ _ => True) boot s)
    (hspace : s.currentSpace = some space) (hout : step s (.run nextThread false) = some s₁)
    (haway : Runs.Reach step (Away s.currentThread) s₁ s₂)
    (hback : s₂.currentThread = s.currentThread) :
    s₂.machine.registers = s.machine.registers := by
  have hs : KernelInv s := hboot.inv.reach hrun
  have hboth : KernelInv s₂ ∧ Saved s.currentThread s.machine.registers space s₂ := by
    refine haway.invariant (P := fun k => KernelInv k ∧ Saved _ _ space k)
      ⟨hs.step hout, hs.saved hspace hout⟩ ?_
    rintro k e k' ⟨hk, hsaved⟩ hallow hstep
    exact ⟨hk.step hstep, hsaved.step hk hallow hstep⟩
  exact hboth.2.resumed hback

/-- What is kept of the state `s` in which the current thread was switched out. -/
structure Parked (s : Kernel) (space : Members) (k : Kernel) : Prop where
  thread : k.threads s.currentThread = some ⟨s.machine.registers, some space, false⟩
  mapping : ∀ address, (k.machine.tables address).map TranslationEntry.mapping =
    (s.machine.tables address).map TranslationEntry.mapping
  memory : ∀ a, InFrames (s.tableOf space) a → k.machine.mainMemory a = s.machine.mainMemory a
  resumed : k.currentThread = s.currentThread → k.machine.registers = s.machine.registers

section

variable {s k k' : Kernel} {space : Members}

theorem Parked.tableOf_mapping (h : Parked s space k) :
    (k.tableOf space).map TranslationEntry.mapping =
      (s.tableOf space).map TranslationEntry.mapping := by
  unfold Kernel.tableOf
  split
  · exact h.mapping _
  · rfl

/-- The machine's table is the table of the current thread's space. -/
theorem KernelInv.table_eq (hk : KernelInv k) (hs : k.currentSpace = some space) {table : PageTable}
    (ht : k.machine.table = some table) : table = k.tableOf space := by
  rw [Machine.table, (hk.installed space hs).1] at ht
  unfold Kernel.tableOf
  cases hp : space.pageTable with
  | none =>
    rw [hp] at ht
    cases ht
  | some address =>
    rw [hp] at ht
    cases ht
    rfl

/-- Instructions of another thread do not reach the frames of the parked one. -/
theorem Parked.hardware (h : Parked s space k) (hk : KernelInv k)
    (haway : k.currentThread ≠ s.currentThread) (hdisj : k.SpacesDisjoint)
    (hspace : k.currentSpace.isSome) {m : Machine} (hm : k.machine.Confined m) :
    Parked s space { k with machine := m } := by
  refine ⟨h.thread, fun address => (hm.mapping address).trans (h.mapping address), ?_,
    fun hc => absurd hc haway⟩
  intro a ha
  have hsame : m.mainMemory a = k.machine.mainMemory a := by
    apply hm.memory
    intro table htable
    obtain ⟨cur, hcur, -⟩ := hk.current
    obtain ⟨space', hs'⟩ := Option.isSome_iff_exists.mp hspace
    rw [hk.table_eq hs' htable]
    rw [currentSpace_of_thread hcur] at hs'
    have hmine : InFrames (k.tableOf space) a := ha.congr h.tableOf_mapping
    have hnot := SpacesDisjoint.not_inFrames hdisj h.thread (hk.bounded _ _ h.thread) hcur
      (hk.bounded _ _ hcur) rfl hs' haway.symm hmine
    exact fun hin => hnot hin.of_take
  exact hsame.trans (h.memory a ha)

theorem Parked.saved (h : Parked s space k) :
    Saved s.currentThread s.machine.registers space k := ⟨h.thread, h.resumed⟩

/-- A context switch changes no table and no memory. -/
theorem run_memory (hk : KernelInv k) {nextThread : ThreadId} {finishing : Bool}
    (hrun : k.run nextThread finishing = some k') :
    k'.machine.tables = k.machine.tables ∧ k'.machine.mainMemory = k.machine.mainMemory := by
  obtain ⟨oldThread, th, -, -, rfl⟩ := run_eq hk.toBeDestroyed hrun
  dsimp only
  split
  · exact ⟨rfl, rfl⟩
  · exact th.restored_tables k.machine

theorem Parked.run (h : Parked s space k) (hk : KernelInv k)
    (haway : k.currentThread ≠ s.currentThread) {nextThread : ThreadId} {finishing : Bool}
    (hrun : k.run nextThread finishing = some k') : Parked s space k' := by
  have hsaved := h.saved.run hk haway hrun
  obtain ⟨htables, hmem⟩ := run_memory hk hrun
  refine ⟨hsaved.thread, ?_, ?_, hsaved.resumed⟩
  · intro address
    rw [htables]
    exact h.mapping address
  · intro a ha
    rw [hmem]
    exact h.memory a ha

theorem Parked.step (h : Parked s space k) (hk : KernelInv k) {e : Event}
    (hallow : Meanwhile s.currentThread k e) (hs : step k e = some k') : Parked s space k' := by
  obtain ⟨haway, hdisj, hperm⟩ := hallow
  cases step_move hs with
  | hardware hspace hm => exact h.hardware hk haway hdisj (hspace hperm) hm
  | execute hth =>
    exact ⟨(Function.update_of_ne haway.symm ..).trans h.thread, h.mapping, h.memory,
      fun hc => absurd hc haway⟩
  | freeSpace hth =>
    exact ⟨(Function.update_of_ne haway.symm ..).trans h.thread, h.mapping, h.memory,
      fun hc => absurd hc haway⟩
  | fork userRegisters =>
    have hne : s.currentThread ≠ k.next := (hk.bounded _ _ h.thread).ne
    exact ⟨(Function.update_of_ne hne ..).trans h.thread, h.mapping, h.memory, h.resumed⟩
  | run hrun => exact h.run hk haway hrun
  | kernel => cases hperm

/-- The thread is parked as soon as `Run` has switched away from it. -/
theorem KernelInv.parked (hs : KernelInv s) (hspace : s.currentSpace = some space)
    {nextThread : ThreadId} (hrun : s.run nextThread false = some k) : Parked s space k := by
  have hsaved := hs.saved hspace hrun
  obtain ⟨htables, hmem⟩ := run_memory hs hrun
  refine ⟨hsaved.thread, ?_, ?_, hsaved.resumed⟩
  · intro address
    rw [htables]
  · intro a _
    rw [hmem]

/-- A parked thread that is back finds what it left. -/
theorem Parked.sameUserState (h : Parked s space k) (hs : KernelInv s) (hk : KernelInv k)
    (hspace : s.currentSpace = some space) (hback : k.currentThread = s.currentThread) :
    SameUserState s k := by
  have hspace' : k.currentSpace = some space := by
    rw [Kernel.currentSpace, hback, h.thread]
    rfl
  obtain ⟨hp, hn⟩ := hs.installed space hspace
  obtain ⟨hp', hn'⟩ := hk.installed space hspace'
  refine ⟨h.resumed hback, hp'.trans hp.symm, hn'.trans hn.symm, ?_⟩
  intro v
  unfold userByte Machine.table
  rw [hp, hp', hn, hn']
  cases hpt : space.pageTable with
  | none => rfl
  | some address =>
    have htable : s.tableOf space = s.machine.tables address := by
      unfold Kernel.tableOf
      rw [hpt]
    refine readByte_congr (h.mapping address) ?_ v
    rw [← htable]
    exact h.memory

end

/-- A context switch is invisible to user programs. Thread `s.currentThread` is switched out
in any reachable state `s` in which it has an address space; `s₂` is the state in which it is
current again. -/
theorem switch_invisible {boot s s₁ s₂ : Kernel} {space : Members} {nextThread : ThreadId}
    (hboot : Booted boot) (hrun : Runs.Reach step (fun _ _ => True) boot s)
    (hspace : s.currentSpace = some space) (hout : step s (.run nextThread false) = some s₁)
    (hmean : Runs.Reach step (Meanwhile s.currentThread) s₁ s₂)
    (hback : s₂.currentThread = s.currentThread) : SameUserState s s₂ := by
  have hs : KernelInv s := hboot.inv.reach hrun
  have hs₁ : KernelInv s₁ := hs.step hout
  have hboth : KernelInv s₂ ∧ Parked s space s₂ := by
    refine hmean.invariant (P := fun k => KernelInv k ∧ Parked s space k)
      ⟨hs₁, hs.parked hspace hout⟩ ?_
    rintro k e k' ⟨hk, hparked⟩ hallow hstep
    exact ⟨hk.step hstep, hparked.step hk hallow hstep⟩
  exact hboth.2.sameUserState hs hboth.1 hspace hback

/-- `addiu $2,$0,7` and `sw $2,64($0)`, in frames 0 and 1 and with a table for each. -/
def twoPrograms : Kernel where
  machine := {
    registers := fun _ => 0
    mainMemory := ByteStore.patchAll (fun _ => 0) ([0, 128].map fun base =>
      ⟨base, Sim.storeBytes 0x24020007 4 ++ Sim.storeBytes 0xac020040 4⟩)
    pageTable := none
    pageTableSize := 0
    tables := fun address => AddrSpace.tableOf 0 [address] }
  currentThread := 0
  threads := Function.update (fun _ => none) 0 (some ⟨fun _ => 0, none, false⟩)
  next := 1
  toBeDestroyed := none

theorem twoPrograms_booted : Booted twoPrograms where
  main := ⟨_, rfl, rfl, rfl⟩
  alone t ht := by
    have ht : t ≠ 0 := ht
    simp [twoPrograms, ht]
  next := by decide
  toBeDestroyed := rfl

/-- The first thread is interrupted after one instruction. -/
def oneSlice : Option Kernel :=
  Runs.exec step twoPrograms [.execute ⟨some 0, 1⟩, .fork fun _ => 0, .instruction]

/-- The second one begins, runs its program and is interrupted. -/
def otherSlice (k : Kernel) : Option Kernel :=
  Runs.execIf step (Meanwhile 0) k [.execute ⟨some 1, 1⟩, .instruction, .instruction, .run 0 false]

theorem switch_invisible_twoPrograms : ∃ s s₁ s₂, oneSlice = some s ∧
    step s (.run 1 false) = some s₁ ∧ otherSlice s₁ = some s₂ ∧
    s₁.machine.mainMemory (128 + 64) ≠ s₂.machine.mainMemory (128 + 64) ∧ SameUserState s s₂ := by
  let s := oneSlice.get (by decide +kernel)
  let s₁ := (step s (.run 1 false)).get (by decide +kernel)
  let s₂ := (otherSlice s₁).get (by decide +kernel)
  have hs : oneSlice = some s := (Option.some_get _).symm
  have hs₁ : step s (.run 1 false) = some s₁ := (Option.some_get _).symm
  have hs₂ : otherSlice s₁ = some s₂ := (Option.some_get _).symm
  have hcur : s.currentThread = 0 := by decide +kernel
  refine ⟨s, s₁, s₂, hs, hs₁, hs₂, by decide +kernel, ?_⟩
  have hspace : s.currentSpace = some ⟨some 0, 1⟩ := by decide +kernel
  refine switch_invisible twoPrograms_booted (Runs.reach_of_exec hs) hspace hs₁ ?_
    (by decide +kernel)
  rw [hcur]
  exact Runs.reach_of_execIf hs₂

end Nachos.Scheduler

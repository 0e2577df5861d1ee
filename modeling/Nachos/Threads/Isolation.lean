import Nachos.Machine.Alike
import Nachos.Threads.Multiprogramming

/-! A program in a time-shared Nachos and the same program alone. Whatever other threads do and
wherever the processor changes hands, the instructions of a program and the accesses that handlers
make for it are answered as on a machine of its own, in any frames. -/
namespace Nachos.Multiprogramming

open AddrSpace (Members)
open Scheduler (KernelInv Thread)

/-- What a program and the handlers that run for it do to the machine. -/
inductive Access where
  | instruction
  | writeRegister (num : Fin NumTotalRegs) (value : Word)
  | readMem (addr : Word) (size : ℕ)
  | writeMem (addr : Word) (size : ℕ) (value : Word)

def Access.sim : Access → Sim (Option Word)
  | .instruction => do
    Sim.oneInstruction
    return none
  | .writeRegister num value => do
    Sim.setReg num value
    return none
  | .readMem addr size => do return some (← Sim.readMem addr size)
  | .writeMem addr size value => do
    Sim.writeMem addr size value
    return none

/-- The value or the exception, and the registers as they are then. -/
structure Answer where
  result : Except ExceptionType (Option Word)
  registers : Registers

def Outcome.answer : Outcome (Option Word) → Option (Answer × Machine)
  | .ok value m => some (⟨.ok value, m.registers⟩, m)
  | .trap which m => some (⟨.error which, m.registers⟩, m)
  | .abort => none

/-- A program with a machine for itself. -/
def alone (m : Machine) : List Access → Option (List Answer × Machine)
  | [] => some ([], m)
  | access :: accesses => do
    let (answer, m) ← Outcome.answer (access.sim m)
    let (answers, m) ← alone m accesses
    return (answer :: answers, m)

/-- The access that the current thread makes by an event. -/
def Event.access : Event → Option Access
  | .kernel .instruction => some .instruction
  | .kernel (.writeRegister num value) => some (.writeRegister num value)
  | .kernel (.readMem addr size) => some (.readMem addr size)
  | .kernel (.writeMem addr size value) => some (.writeMem addr size value)
  | _ => none

/-- The access that thread `t` makes by an event, and how the machine answers it. -/
def System.seen (s : System) (t : ThreadId) (e : Event) : Option (Access × Answer) :=
  if s.kernel.currentThread = t then do
    let access ← e.access
    let (answer, _) ← Outcome.answer (access.sim s.kernel.machine)
    return (access, answer)
  else none

/-- What thread `t` sees of a run. -/
def watch (t : ThreadId) (s : System) : List Event → Option (List (Access × Answer) × System)
  | [] => some ([], s)
  | e :: es => do
    let s' ← step s e
    let (seen, last) ← watch t s' es
    return ((s.seen t e).toList ++ seen, last)

/-- The machine as thread `t` has it: while it is away, its registers are in its object and its
table is that of its space. -/
def System.machineOf (s : System) (t : ThreadId) : Machine :=
  if s.kernel.currentThread = t then s.kernel.machine
  else (s.kernel.threads t).elim s.kernel.machine fun th => th.restored s.kernel.machine

/-- A program that is loaded is copied to its own frames. -/
def Contained (s : System) : Event → Prop
  | .newSpace executable _ => ∀ space bm writes,
    AddrSpace.new (some executable) s.gPhysPageBitMap = some (.loaded space bm writes) →
      ∀ a, ByteStore.Touched writes a → Loader.Owns space a
  | _ => True

/-- A thread writes memory only while it has its space. -/
def WritesOwn (s : System) : Event → Prop
  | .kernel (.writeMem ..) => s.kernel.currentSpace.isSome
  | _ => True

instance (s : System) : (e : Event) → Decidable (WritesOwn s e)
  | .kernel (.writeMem ..) => inferInstanceAs (Decidable (s.kernel.currentSpace.isSome = true))
  | .kernel (.instruction) | .kernel (.writeRegister ..) | .kernel (.readMem ..)
  | .kernel (.execute _) | .kernel .freeSpace | .kernel (.fork _) | .kernel (.run ..)
  | .kernel (.kernel ..) | .newSpace .. | .execute | .freeSpace => .isTrue trivial

/-- The current thread gives up its space, or the processor for good. -/
def Event.leaves : Event → Bool
  | .freeSpace | .kernel (.run _ true) => true
  | _ => false

/-- No program is loaded over another one, no thread writes memory before it has its space, and
thread `t` does not end. -/
def Lasts (t : ThreadId) (s : System) (e : Event) : Prop :=
  Contained s e ∧ WritesOwn s e ∧ (s.kernel.currentThread = t → e.leaves = false)

theorem blind_sim (access : Access) : Sim.Blind access.sim := by
  cases access with
  | instruction => exact Sim.blind_bind Sim.blind_oneInstruction fun _ => Sim.blind_pure _
  | writeRegister num value =>
    exact Sim.blind_bind (Sim.blind_setReg num value) fun _ => Sim.blind_pure _
  | readMem addr size =>
    exact Sim.blind_bind (Sim.blind_readMem addr size) fun _ => Sim.blind_pure _
  | writeMem addr size value =>
    exact Sim.blind_bind (Sim.blind_writeMem addr size value) fun _ => Sim.blind_pure _

/-- Machines that are alike answer alike and stay alike. -/
theorem answer_alike {m m' m₁ : Machine} (h : m.Alike m') {access : Access} {answer : Answer}
    (hanswer : Outcome.answer (access.sim m) = some (answer, m₁)) :
    ∃ m₁', Outcome.answer (access.sim m') = some (answer, m₁') ∧ m₁.Alike m₁' := by
  have hends := blind_sim access m m' h
  cases hm : access.sim m <;> cases hm' : access.sim m' <;> rw [hm, hm'] at hends <;>
    rw [hm] at hanswer
  case ok.ok value m₂ value' m₂' =>
    obtain ⟨rfl, h₂⟩ := hends
    cases hanswer
    exact ⟨m₂', by rw [Outcome.answer, h₂.registers], h₂⟩
  case trap.trap which m₂ which' m₂' =>
    obtain ⟨rfl, h₂⟩ := hends
    cases hanswer
    exact ⟨m₂', by rw [Outcome.answer, h₂.registers], h₂⟩
  case abort.abort => cases hanswer
  all_goals cases hends

section

variable {s s' : System} {e : Event} {t : ThreadId} {space : Members}

/-- An operation that ends is one that is answered. -/
theorem answer_of_hardware {α : Type} {k k' : Scheduler.Kernel} {x : Sim α} (hx : x.Keeps)
    (f : α → Option Word) (h : k.hardware x = some k') : ∃ m answer, k' = { k with machine := m } ∧
      k.machine.Confined m ∧
      Outcome.answer ((do return f (← x) : Sim (Option Word)) k.machine) = some (answer, m) := by
  obtain ⟨m, hm, rfl⟩ := Scheduler.hardware_confined hx h
  unfold Scheduler.Kernel.hardware at h
  rw [Sim.bind_apply]
  cases hxm : x k.machine <;> rw [hxm] at h
  case abort => cases h
  all_goals
    obtain rfl : _ = m := congrArg Scheduler.Kernel.machine (Option.some.inj h)
    exact ⟨_, _, rfl, hm, rfl⟩

/-- An access is answered. -/
theorem answer_of_step {access : Access} (hstep : step s e = some s')
    (haccess : e.access = some access) :
    ∃ m answer, s' = { s with kernel := { s.kernel with machine := m } } ∧
      s.kernel.machine.Confined m ∧
      Outcome.answer (access.sim s.kernel.machine) = some (answer, m) := by
  cases does hstep with
  | @kernel e k husual hs =>
    cases e with
    | instruction =>
      cases haccess
      simp only [Scheduler.step] at hs
      split at hs
      · obtain ⟨m, answer, rfl, hm, hanswer⟩ :=
          answer_of_hardware Sim.keeps_oneInstruction (fun _ => none) hs
        exact ⟨m, answer, rfl, hm, hanswer⟩
      · cases hs
    | writeRegister num value =>
      cases haccess
      obtain ⟨m, answer, rfl, hm, hanswer⟩ :=
        answer_of_hardware (Sim.keeps_setReg num value) (fun _ => none) hs
      exact ⟨m, answer, rfl, hm, hanswer⟩
    | readMem addr size =>
      cases haccess
      obtain ⟨m, answer, rfl, hm, hanswer⟩ :=
        answer_of_hardware (Sim.keeps_readMem addr size) some hs
      exact ⟨m, answer, rfl, hm, hanswer⟩
    | writeMem addr size value =>
      cases haccess
      obtain ⟨m, answer, rfl, hm, hanswer⟩ :=
        answer_of_hardware (Sim.keeps_writeMem addr size value) (fun _ => none) hs
      exact ⟨m, answer, rfl, hm, hanswer⟩
    | execute | freeSpace | fork | run | kernel => cases haccess
  | placed | refused | executed | kept | freed => cases haccess

/-- A thread without a space only reads memory. -/
theorem memory_of_bare {access : Access} {m : Machine} (hstep : step s e = some s')
    (haccess : e.access = some access) (hbare : s.kernel.currentSpace = none)
    (hwrites : WritesOwn s e) {answer : Answer}
    (hanswer : Outcome.answer (access.sim s.kernel.machine) = some (answer, m)) :
    m.mainMemory = s.kernel.machine.mainMemory := by
  cases does hstep with
  | @kernel e k husual hs =>
    cases e with
    | instruction =>
      rw [Scheduler.step, hbare] at hs
      cases hs
    | writeRegister num value =>
      cases haccess
      cases hanswer
      rfl
    | readMem addr size =>
      cases haccess
      have hkept := Sim.leaves_readMem addr size s.kernel.machine
      rw [Access.sim, Sim.bind_apply] at hanswer
      cases hread : Sim.readMem addr size s.kernel.machine with
      | ok value m₁ =>
        rw [hread] at hanswer hkept
        cases hanswer
        exact hkept
      | trap which m₁ =>
        rw [hread] at hanswer hkept
        cases hanswer
        exact hkept
      | abort =>
        rw [hread] at hanswer
        cases hanswer
    | writeMem addr size value =>
      have hspace : s.kernel.currentSpace.isSome := hwrites
      rw [hbare] at hspace
      cases hspace
    | execute | freeSpace | fork | run | kernel => cases haccess
  | placed | refused | executed | kept | freed => cases haccess

namespace System

theorem machineOf_current (h : s.kernel.currentThread = t) : s.machineOf t = s.kernel.machine :=
  if_pos h

theorem machineOf_away (h : s.kernel.currentThread ≠ t) {th : Thread}
    (ht : s.kernel.threads t = some th) : s.machineOf t = th.restored s.kernel.machine := by
  rw [machineOf, if_neg h, ht]
  rfl

/-- A thread has the tables and the memory of the machine, and its own space. -/
theorem machineOf_eq (hk : KernelInv s.kernel) (h : s.space (.thread t) = some space) :
    s.machineOf t = { s.kernel.machine with
      registers := (s.machineOf t).registers
      pageTable := space.pageTable
      pageTableSize := space.numPages } := by
  obtain ⟨th, hth, hspace⟩ := Option.bind_eq_some_iff.mp h
  by_cases ht : s.kernel.currentThread = t
  · have hcurrent : s.kernel.currentSpace = some space := by
      rw [Scheduler.Kernel.currentSpace, ht]
      exact h
    obtain ⟨hp, hn⟩ := hk.installed space hcurrent
    rw [machineOf_current ht, ← hp, ← hn]
  · rw [machineOf_away ht hth, Thread.restored, hspace]
    rfl

theorem Housed.mapped {address numPages : ℕ} (h : s.Housed ⟨some address, numPages⟩)
    (registers : Registers) : Machine.Mapped { s.kernel.machine with
      registers := registers
      pageTable := some address
      pageTableSize := numPages } (s.kernel.machine.tables address) := by
  have hcomplete : (s.entries ⟨some address, numPages⟩).length = numPages := h.complete
  have hentry {i : ℕ} (hi : i < numPages) : (s.entries ⟨some address, numPages⟩)[i]? =
      (s.kernel.machine.tables address)[i]? := List.getElem?_take_of_lt hi
  refine ⟨rfl, ?_, fun i hi entry he _ => ?_, fun i hi j hj a b ha hb _ _ hframe => ?_⟩
  · rw [← hcomplete]
    exact List.length_take_le' _ _
  · rw [← hentry hi] at he
    exact (h.marked _ (List.mem_map_of_mem (List.mem_of_getElem? he))).1
  · have hlength : i < (s.frames ⟨some address, numPages⟩).length := by
      rw [frames, List.length_map, h.complete]
      exact hi
    refine (List.getElem?_inj hlength h.nodup).mp ?_
    rw [frames, List.getElem?_map, List.getElem?_map, hentry hi, hentry hj, ha, hb, Option.map_some,
      Option.map_some, hframe]

/-- Two states in which the thread has the same registers and the same contents in the same
frames. -/
theorem Inv.alike (h : s.Inv) (h' : s'.Inv) {address numPages : ℕ}
    (hs : s.space (.thread t) = some ⟨some address, numPages⟩)
    (hs' : s'.space (.thread t) = some ⟨some address, numPages⟩)
    (hregisters : (s'.machineOf t).registers = (s.machineOf t).registers)
    (hmap : (s'.entries ⟨some address, numPages⟩).map TranslationEntry.mapping =
      (s.entries ⟨some address, numPages⟩).map TranslationEntry.mapping)
    (hmem : ∀ a, InFrames (s.entries ⟨some address, numPages⟩) a →
      s'.kernel.machine.mainMemory a = s.kernel.machine.mainMemory a) :
    (s.machineOf t).Alike (s'.machineOf t) := by
  rw [machineOf_eq h.kernel hs, machineOf_eq h'.kernel hs']
  refine ⟨hregisters, ⟨_, (h.housed _ _ hs).mapped _⟩, ⟨_, (h'.housed _ _ hs').mapped _⟩,
    fun v size writing => ?_, fun v => ?_⟩
  · refine Option.ext fun which => ?_
    rw [Machine.refusal_eq_some_iff, Machine.refusal_eq_some_iff]
    exact Machine.refusal_of_map ((translate_take ..).symm.trans
      ((translate_congr hmap _ _ _ _).trans (translate_take ..)))
  · exact (readByte_take ..).symm.trans ((readByte_congr hmap hmem v).trans (readByte_take ..))

theorem Inv.alike_self (h : s.Inv) {address numPages : ℕ}
    (hs : s.space (.thread t) = some ⟨some address, numPages⟩) :
    (s.machineOf t).Alike (s.machineOf t) :=
  h.alike h hs hs rfl rfl fun _ _ => rfl

/-- While another thread is current, the registers of this one are in its object. -/
theorem registers_away (hcurrent : s'.kernel.currentThread = s.kernel.currentThread)
    (haway : s.kernel.currentThread ≠ t) (hthread : s'.kernel.threads t = s.kernel.threads t)
    (h : s.space (.thread t) = some space) :
    (s'.machineOf t).registers = (s.machineOf t).registers := by
  obtain ⟨th, hth, hspace⟩ := Option.bind_eq_some_iff.mp h
  rw [machineOf_away haway hth, machineOf_away (hcurrent ▸ haway) (hthread.trans hth),
    (Thread.restored_installed hspace _).2.2, (Thread.restored_installed hspace _).2.2]

/-- A switch saves the registers of the thread that leaves and restores those of the other. -/
theorem space_machineOf_run (hk : KernelInv s.kernel) (h : s.space (.thread t) = some space)
    {k : Scheduler.Kernel} {nextThread : ThreadId} {finishing : Bool}
    (hrun : s.kernel.run nextThread finishing = some k)
    (hlasts : s.kernel.currentThread = t → finishing = false) :
    System.space { s with kernel := k } (.thread t) = some space ∧
      (System.machineOf { s with kernel := k } t).registers = (s.machineOf t).registers := by
  obtain ⟨uh, hu, hspace⟩ := Option.bind_eq_some_iff.mp h
  have hran : uh.fresh = false := by
    cases hfresh : uh.fresh with
    | false => rfl
    | true =>
      rw [hk.fresh t uh hu hfresh] at hspace
      cases hspace
  obtain ⟨oldThread, th, hold, hth, rfl⟩ := Scheduler.run_eq hk.toBeDestroyed hrun
  -- the thread as it is between the two halves of `Run`
  obtain ⟨vh, hv, hvspace, hvfresh, hvregisters⟩ : ∃ vh,
      s.kernel.parked oldThread finishing t = some vh ∧ vh.space = some space ∧
        vh.fresh = false ∧ vh.userRegisters = (s.machineOf t).registers := by
    by_cases ht : s.kernel.currentThread = t
    · subst ht
      obtain rfl := Option.some.inj (hold.symm.trans hu)
      refine ⟨oldThread.saved s.kernel.machine, ?_, ?_, (Thread.saved_fresh ..).trans hran, ?_⟩
      · rw [Scheduler.Kernel.parked, Function.update_self, hlasts rfl]
        rfl
      all_goals rw [Thread.saved, hspace]
      · exact hspace
      · rw [machineOf_current rfl]
        rfl
    · refine ⟨uh, (Function.update_of_ne (Ne.symm ht) ..).trans hu, hspace, hran, ?_⟩
      rw [machineOf_away ht hu, (Thread.restored_installed hspace _).2.2]
  by_cases hnext : t = nextThread
  · subst hnext
    obtain rfl := Option.some.inj (hth.symm.trans hv)
    refine ⟨Option.bind_eq_some_iff.mpr ⟨_, Function.update_self .., hvspace⟩, ?_⟩
    rw [machineOf_current rfl, if_neg (by rw [hvfresh]; exact Bool.false_ne_true),
      (Thread.restored_installed hvspace _).2.2, hvregisters]
  · have hstays : Function.update (s.kernel.parked oldThread finishing) nextThread
        (some { th with fresh := false }) t = some vh := (Function.update_of_ne hnext ..).trans hv
    refine ⟨Option.bind_eq_some_iff.mpr ⟨vh, hstays, hvspace⟩, ?_⟩
    rw [machineOf_away (Ne.symm hnext) hstays, (Thread.restored_installed hvspace _).2.2,
      hvregisters]

/-- A thread without a space is not the one that has it. -/
theorem ne_of_bare {th : Thread} (hth : s.kernel.threads s.kernel.currentThread = some th)
    (hbare : th.space = none) (h : s.space (.thread t) = some space) :
    s.kernel.currentThread ≠ t := by
  rintro rfl
  rw [System.space, hth, Option.bind_some, hbare] at h
  cases h

/-- The bytes that a constructor writes are in the frames it has just taken. -/
theorem Inv.place_memory (h : s.Inv) {address numPages : ℕ}
    (hs : s.space (.thread t) = some ⟨some address, numPages⟩) {new : Members} {table : PageTable}
    {bm : Bitmap NumPhysPages} {writes : List ByteStore.Patch} (hc : Constructed s new table bm)
    (hinside : ∀ a, ByteStore.Touched writes a → Loader.Owns ⟨table⟩ a) {a : ℤ}
    (ha : InFrames (s.entries ⟨some address, numPages⟩) a) :
    ByteStore.patchAll s.kernel.machine.mainMemory writes a = s.kernel.machine.mainMemory a := by
  refine ByteStore.patchAll_of_not_touched fun htouched => ?_
  obtain ⟨entry, hentry, h0, h1⟩ := hinside a htouched
  obtain ⟨frame, hframe, h0', h1'⟩ := Scheduler.frame_of_inFrames ha
  -- the entry names a frame that was free, and the byte is in one that was not
  have hmarked := h.marked hs frame hframe
  have hpage : entry.physicalPage ∈ (table.map TranslationEntry.pageFrame).map Nat.cast := by
    rw [← hc.physical]
    exact List.mem_map_of_mem hentry
  obtain ⟨frame', hframe', hpage⟩ := List.mem_map.mp hpage
  obtain ⟨-, hfree, -⟩ := hc.free frame' hframe'
  have hsame : frame = frame' := by
    rw [← hpage] at h0 h1
    simp only [PageSize] at h0 h1 h0' h1'
    omega
  rw [hsame, hfree] at hmarked
  cases hmarked

/-- A byte of one space is in the frames of no other. -/
theorem Inv.not_inFrames (h : s.Inv) {x y : Holder} {space' : Members} (hx : s.space x = some space)
    (hy : s.space y = some space') (hne : x ≠ y) {a : ℤ} (ha : InFrames (s.entries space) a) :
    ¬ InFrames (s.entries space') a := by
  intro ha'
  obtain ⟨frame, hmem, h0, h1⟩ := Scheduler.frame_of_inFrames ha
  obtain ⟨frame', hmem', h0', h1'⟩ := Scheduler.frame_of_inFrames ha'
  have hframe : frame = frame' := by
    simp only [PageSize] at h0 h1 h0' h1'
    omega
  subst hframe
  exact h.disjoint x y space space' hx hy hne frame hmem hmem'

/-- What another thread does to itself leaves this one its space and its machine. -/
theorem Inv.stays_away (h : s.Inv) (h' : s'.Inv) {address numPages : ℕ}
    (hs : s.space (.thread t) = some ⟨some address, numPages⟩)
    (haway : s.kernel.currentThread ≠ t)
    (hcurrent : s'.kernel.currentThread = s.kernel.currentThread)
    (hthread : s'.kernel.threads t = s.kernel.threads t)
    (hmap : (s'.entries ⟨some address, numPages⟩).map TranslationEntry.mapping =
      (s.entries ⟨some address, numPages⟩).map TranslationEntry.mapping)
    (hmem : ∀ a, InFrames (s.entries ⟨some address, numPages⟩) a →
      s'.kernel.machine.mainMemory a = s.kernel.machine.mainMemory a) :
    s'.space (.thread t) = some ⟨some address, numPages⟩ ∧
      (s.machineOf t).Alike (s'.machineOf t) := by
  have hs' : s'.space (.thread t) = some ⟨some address, numPages⟩ := by
    rw [System.space, hthread]
    exact hs
  exact ⟨hs', h.alike h' hs hs' (registers_away hcurrent haway hthread hs) hmap hmem⟩

/-- What is not an access of the thread itself leaves its machine alike. -/
theorem Inv.stays (h : s.Inv) (hstep : Multiprogramming.step s e = some s') {address numPages : ℕ}
    (hs : s.space (.thread t) = some ⟨some address, numPages⟩) (hlasts : Lasts t s e)
    (hother : s.kernel.currentThread = t → e.access = none) :
    s'.space (.thread t) = some ⟨some address, numPages⟩ ∧
      (s.machineOf t).Alike (s'.machineOf t) := by
  have h' := h.step hstep
  cases haccess : e.access with
  | some access =>
    have haway : s.kernel.currentThread ≠ t := fun ht => by
      rw [hother ht] at haccess
      cases haccess
    obtain ⟨m, answer, rfl, hm, hanswer⟩ := answer_of_step hstep haccess
    refine h.stays_away h' hs haway rfl rfl (entries_congr hm.mapping) fun a ha => ?_
    cases hmine : s.kernel.currentSpace with
    | none => exact congrFun (memory_of_bare hstep haccess hmine hlasts.2.1 hanswer) a
    | some mine =>
      refine hm.memory a fun table htable => ?_
      rw [h.kernel.table_eq hmine htable, (h.kernel.installed mine hmine).2]
      have hown : s.space (.thread s.kernel.currentThread) = some mine := hmine
      exact h.not_inFrames hs hown (by simpa using Ne.symm haway) ha
  | none =>
    cases does hstep with
    | @kernel e k husual hk =>
      cases e with
      | fork userRegisters =>
        cases hk
        obtain ⟨th, hth, hthspace⟩ := Option.bind_eq_some_iff.mp hs
        have hthread : Function.update s.kernel.threads s.kernel.next
            (some ⟨userRegisters, none, true⟩) t = s.kernel.threads t :=
          Function.update_of_ne (h.kernel.bounded t th hth).ne ..
        by_cases ht : s.kernel.currentThread = t
        · have hs' := hs
          rw [System.space, ← hthread] at hs'
          refine ⟨hs', h.alike h' hs hs' ?_ rfl fun _ _ => rfl⟩
          rw [machineOf_current ht, machineOf_current (by exact ht)]
          rfl
        · exact h.stays_away h' hs ht rfl hthread rfl fun _ _ => rfl
      | run nextThread finishing =>
        have hends : s.kernel.currentThread = t → finishing = false := fun ht => by
          cases finishing with
          | false => rfl
          | true => exact absurd (hlasts.2.2 ht) Bool.false_ne_true.symm
        obtain ⟨hs', hregisters⟩ := space_machineOf_run h.kernel hs hk hends
        obtain ⟨htables, hmem⟩ := Scheduler.run_memory h.kernel hk
        exact ⟨hs', h.alike h' hs hs' hregisters (entries_congr fun address => by rw [htables])
          fun a _ => congrFun hmem a⟩
      | instruction | writeRegister | readMem | writeMem => cases haccess
      | execute | freeSpace | kernel => cases husual
    | @placed executable stale th new table bm writes hth hbare hc hloaded =>
      exact h.stays_away h' hs (ne_of_bare hth hbare hs) rfl rfl
        (congrArg _ (entries_place (h.housed _ _ hs) ..)) fun a ha =>
          h.place_memory hs hc (hlasts.1 _ _ _ hloaded) ha
    | refused hth hbare =>
      exact h.stays_away h' hs (ne_of_bare hth hbare hs) rfl rfl rfl fun _ _ => rfl
    | executed hth hbare hbuilt =>
      have haway := ne_of_bare hth hbare hs
      exact h.stays_away h' hs haway rfl (Function.update_of_ne (Ne.symm haway) ..) rfl
        fun _ _ => rfl
    | kept => exact ⟨hs, h.alike_self hs⟩
    | freed =>
      have haway : s.kernel.currentThread ≠ t := fun ht =>
        absurd (hlasts.2.2 ht) Bool.false_ne_true.symm
      exact h.stays_away h' hs haway rfl (Function.update_of_ne (Ne.symm haway) ..) rfl
        fun _ _ => rfl

end System

/-- One event of a run, for the thread that is watched. -/
theorem alone_step (h : s.Inv) (hstep : step s e = some s') {address numPages : ℕ}
    (hs : s.space (.thread t) = some ⟨some address, numPages⟩) (hlasts : Lasts t s e) {m : Machine}
    (hm : (s.machineOf t).Alike m) :
    ∃ m', alone m ((s.seen t e).toList.map Prod.fst) =
        some ((s.seen t e).toList.map Prod.snd, m') ∧
      s'.space (.thread t) = some ⟨some address, numPages⟩ ∧ (s'.machineOf t).Alike m' := by
  by_cases hown : s.kernel.currentThread = t ∧ e.access.isSome
  · obtain ⟨ht, hown⟩ := hown
    obtain ⟨access, haccess⟩ := Option.isSome_iff_exists.mp hown
    obtain ⟨m₁, answer, rfl, -, hanswer⟩ := answer_of_step hstep haccess
    rw [System.machineOf_current ht] at hm
    obtain ⟨m', hanswer', hm'⟩ := answer_alike hm hanswer
    have hseen : s.seen t e = some (access, answer) := by
      rw [System.seen, if_pos ht, haccess, Option.bind_eq_bind, Option.bind_some, hanswer]
      rfl
    refine ⟨m', ?_, hs, ?_⟩
    · rw [hseen]
      simp only [Option.toList_some, List.map_cons, List.map_nil, alone, hanswer',
        Option.bind_eq_bind, Option.bind_some]
      rfl
    · rwa [System.machineOf_current (by exact ht)]
  · have hother : s.kernel.currentThread = t → e.access = none := fun ht =>
      Option.not_isSome_iff_eq_none.mp fun haccess => hown ⟨ht, haccess⟩
    have hseen : s.seen t e = none := by
      unfold System.seen
      split
      · next ht =>
        rw [hother ht]
        rfl
      · rfl
    obtain ⟨hs', hstays⟩ := h.stays hstep hs hlasts hother
    exact ⟨m, by rw [hseen]; rfl, hs', hstays.symm.trans hm⟩

theorem alone_append {m m' : Machine} {accesses accesses' : List Access} {answers : List Answer}
    (h : alone m accesses = some (answers, m')) : alone m (accesses ++ accesses') =
      (alone m' accesses').map fun r => (answers ++ r.1, r.2) := by
  induction accesses generalizing m answers with
  | nil =>
    cases h
    simp
  | cons access accesses ih =>
    simp only [alone] at h
    obtain ⟨⟨answer, m₁⟩, hanswer, h⟩ := Option.bind_eq_some_iff.mp h
    obtain ⟨⟨rest, m₂⟩, hrest, h⟩ := Option.bind_eq_some_iff.mp h
    cases h
    simp only [List.cons_append, alone, hanswer, Option.bind_eq_bind, Option.bind_some, ih hrest]
    cases alone m₂ accesses' <;> rfl

theorem watch_alone (h : s.Inv) {events : List Event} {seen : List (Access × Answer)}
    (hwatch : watch t s events = some (seen, s')) {address numPages : ℕ}
    (hs : s.space (.thread t) = some ⟨some address, numPages⟩)
    (hlasts : Runs.Always step (Lasts t) s events) {m : Machine} (hm : (s.machineOf t).Alike m) :
    ∃ m', alone m (seen.map Prod.fst) = some (seen.map Prod.snd, m') ∧
      (s'.machineOf t).Alike m' := by
  induction events generalizing s m seen with
  | nil =>
    cases hwatch
    exact ⟨m, rfl, hm⟩
  | cons e events ih =>
    obtain ⟨s₁, hstep, hwatch⟩ := Option.bind_eq_some_iff.mp hwatch
    obtain ⟨⟨rest, last⟩, hrest, hwatch⟩ := Option.bind_eq_some_iff.mp hwatch
    cases hwatch
    obtain ⟨m₁, hfirst, hs₁, hm₁⟩ := alone_step h hstep hs hlasts.1 hm
    obtain ⟨m', hafter, hm'⟩ := ih (h.step hstep) hrest hs₁ (hlasts.2 s₁ hstep) hm₁
    refine ⟨m', ?_, hm'⟩
    rw [List.map_append, List.map_append, alone_append hfirst, hafter]
    rfl

end

/-- A user program in any interleaving with others, from any reachable state in which it has its
space. Each of its instructions, and each access that a handler makes for it, is answered as on
a machine on which the program is alone, whatever frames it has there. -/
theorem isolated {boot s s' : System} {t : ThreadId} {address numPages : ℕ} {events : List Event}
    {seen : List (Access × Answer)} (hboot : Booted boot)
    (hrun : Runs.Reach step (fun _ _ => True) boot s)
    (hspace : s.space (.thread t) = some ⟨some address, numPages⟩)
    (hlasts : Runs.Always step (Lasts t) s events) (hwatch : watch t s events = some (seen, s')) :
    (s.machineOf t).Alike (s.machineOf t) ∧ ∀ m, (s.machineOf t).Alike m →
      ∃ m', alone m (seen.map Prod.fst) = some (seen.map Prod.snd, m') ∧
        (s'.machineOf t).Alike m' := by
  have h : s.Inv := (System.Inv.booted hboot).reach hrun
  exact ⟨h.alike_self hspace, fun m hm => watch_alone h hwatch hspace hlasts hm⟩

/-- Before any program is loaded. -/
def justBooted : System where
  kernel := {
    machine := {
      registers := fun _ => 0
      mainMemory := fun _ => 0
      pageTable := none
      pageTableSize := 0
      tables := fun _ => [] }
    currentThread := 0
    threads := Function.update (fun _ => none) 0 (some ⟨fun _ => 0, none, false⟩)
    next := 1
    toBeDestroyed := none }
  gPhysPageBitMap := (Bitmap.new NumPhysPages).get (by decide +kernel)
  heap := 0
  built _ := none
  refused _ := false

theorem justBooted_booted : Booted justBooted where
  kernel := by
    refine ⟨⟨_, rfl, rfl, rfl⟩, fun t ht => ?_, by decide, rfl⟩
    have ht : t ≠ 0 := ht
    simp [justBooted, ht]
  bitmap := by simp [justBooted]
  built _ := rfl

/-- A program of two instructions. -/
def noff (first second : ℕ) : HostFile :=
  [0xbadfad, 0, 52, 8, 0, 0, 0, 0, 0, 0, 0, 0, 0, first, second].flatMap (Sim.storeBytes · 4)

/-- `addiu $2,$0,7` and `sw $2,64($0)`. -/
def started : Option System :=
  Runs.exec step justBooted [.newSpace (noff 0x24020007 0xac020040) none, .execute]

/-- Another program, `addiu $2,$0,9` and `sw $2,64($0)`, is loaded and runs in between. -/
def turns : List Event := [
  .kernel .instruction, .kernel (.fork fun _ => 0), .kernel (.run 1 false),
  .newSpace (noff 0x24020009 0xac020040) none, .execute, .kernel .instruction,
  .kernel .instruction, .kernel (.run 0 false), .kernel .instruction, .kernel (.readMem 64 4)]

/-- Each write is to one page of the program. -/
def OnPages (space : AddrSpace) (writes : List ByteStore.Patch) : Prop :=
  ∀ p ∈ writes, ∃ entry ∈ space.pageTable, entry.physicalPage * PageSize ≤ p.dest ∧
    p.dest + p.bytes.length ≤ entry.physicalPage * PageSize + PageSize

instance (space : AddrSpace) (writes : List ByteStore.Patch) : Decidable (OnPages space writes) :=
  inferInstanceAs (Decidable (∀ p ∈ writes, ∃ entry ∈ space.pageTable, _))

def loadsOnPages (s : System) : Event → Bool
  | .newSpace executable _ =>
    match AddrSpace.new (some executable) s.gPhysPageBitMap with
    | some (.loaded space _ writes) => decide (OnPages space writes)
    | _ => true
  | _ => true

theorem contained_of_onPages {s : System} {e : Event} (h : loadsOnPages s e = true) :
    Contained s e := by
  cases e with
  | kernel | execute | freeSpace => trivial
  | newSpace executable null =>
    rintro space bm writes hnew a ⟨p, hp, h0, h1⟩
    rw [loadsOnPages, hnew] at h
    obtain ⟨entry, hentry, h0', h1'⟩ := of_decide_eq_true h p hp
    exact ⟨entry, hentry, h0'.trans h0, h1.trans_le h1'⟩

theorem isolated_turns : ∃ s s' seen m', started = some s ∧ watch 0 s turns = some (seen, s') ∧
    seen.length = 3 ∧ s.kernel.machine.mainMemory (33 * 128) = 0 ∧
    s'.kernel.machine.mainMemory (33 * 128) = 9 ∧
    alone (s.machineOf 0) (seen.map Prod.fst) = some (seen.map Prod.snd, m') ∧
      (s'.machineOf 0).Alike m' := by
  let s := started.get (by decide +kernel)
  have hs : started = some s := (Option.some_get _).symm
  obtain ⟨⟨seen, s'⟩, hwatch⟩ :=
    Option.isSome_iff_exists.mp (show (watch 0 s turns).isSome by decide +kernel)
  have hends : (watch 0 s turns).map
      (fun r => (r.1.length, r.2.kernel.machine.mainMemory (33 * 128))) = some (3, 9) := by
    decide +kernel
  rw [hwatch] at hends
  obtain ⟨hlength, hloaded⟩ := Prod.mk.inj (Option.some.inj hends)
  have hspace : s.space (.thread 0) = some ⟨some 0, 33⟩ := by decide +kernel
  have hlasts : Runs.Always step (fun s e => loadsOnPages s e = true ∧ WritesOwn s e ∧
      (s.kernel.currentThread = 0 → e.leaves = false)) s turns := by decide +kernel
  obtain ⟨hself, halone⟩ := isolated justBooted_booted (Runs.reach_of_exec hs)
    hspace (hlasts.mono fun _ _ h => ⟨contained_of_onPages h.1, h.2⟩) hwatch
  obtain ⟨m', hm', hlast⟩ := halone _ hself
  exact ⟨s, s', seen, m', hs, hwatch, hlength, by decide +kernel, hloaded, hm', hlast⟩

end Nachos.Multiprogramming

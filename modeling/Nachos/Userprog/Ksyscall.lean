import Nachos.Filesys.OpenFile
import Mathlib.Data.List.TakeWhile

/-! Transfers between user memory, the console and kernel buffers (`userprog/ksyscall.h`
and the console loops of `userprog/exception.cc`). A kernel buffer is a list of exactly the
bytes that were allocated, so an index outside it has no byte behind it. -/
namespace Nachos

/-- A machine on which no access to user memory fails an assertion or finds an invalid entry. -/
structure Machine.Sound (m : Machine) : Prop where
  loadReg : (m.registers LoadReg).toNat < NumTotalRegs
  table : ∃ t, m.table = some t ∧ m.pageTableSize ≤ t.length ∧ ∀ entry ∈ t, entry.valid = true

/-- The registers once `IncreasePC` is done. -/
def Machine.advanced (m : Machine) : Machine :=
  let registers := Function.update m.registers PrevPCReg (m.registers PCReg)
  let registers := Function.update registers PCReg (registers PCReg + 4)
  { m with registers := Function.update registers NextPCReg (registers PCReg + 4) }

/-- The machine a handler leaves that returns `value`. -/
def Machine.finished (m : Machine) (value : Word) : Machine :=
  { m with registers := Function.update m.registers 2 value }.advanced

/-- Only user memory has been used. -/
structure Kernel.Accessed {W : Type} (k k' : Kernel W) : Prop where
  registers : k'.machine.registers = k.machine.registers
  confined : k.machine.Confined k'.machine
  fileSystem : k'.fileSystem = k.fileSystem
  host : k'.host = k.host

/-- What a refused access to user memory ends in. -/
def Refusal (m : Machine) (stop : Stop) : Prop :=
  (∃ which, stop = .trap which ∧ (m.Sound → which = .addressErrorException ∨
    which = .readOnlyException ∨ which = .busErrorException)) ∨ stop = .abort ∧ ¬ m.Sound

namespace Machine.Sound

variable {m m' : Machine} {addr : Word} {size : ℕ} {writing : Bool}

theorem translate_ne_none (h : m.Sound) (hsize : size = 1 ∨ size = 2 ∨ size = 4) :
    translate (m.pageTable.map m.tables) m.pageTableSize addr size writing ≠ none := by
  obtain ⟨t, ht, hcomplete, -⟩ := h.table
  unfold Machine.table at ht
  rw [ht]
  exact Nachos.translate_ne_none hcomplete hsize

/-- A valid entry is refused for what is asked of it only. -/
theorem translate_error (h : m.Sound) {which : ExceptionType}
    (htr : translate (m.pageTable.map m.tables) m.pageTableSize addr size writing =
      some (.error which)) : which = .addressErrorException ∨ which = .readOnlyException ∨
        which = .busErrorException := by
  obtain ⟨t, ht, -, hvalid⟩ := h.table
  unfold Machine.table at ht
  rw [ht] at htr
  unfold translate at htr
  split at htr
  · cases htr
    exact .inl rfl
  simp only [Option.bind_eq_bind, Option.bind_some] at htr
  split at htr
  · cases htr
    exact .inl rfl
  obtain ⟨entry, hentry, htr⟩ := Option.bind_eq_some_iff.mp htr
  rw [hvalid entry (List.mem_of_getElem? hentry)] at htr
  simp only [Bool.not_true, Bool.false_eq_true, if_false] at htr
  split at htr
  · cases htr
    exact .inr (.inl rfl)
  split at htr
  · cases htr
    exact .inr (.inr rfl)
  split at htr <;> cases htr

theorem of_trap (h : m.Sound) {which : ExceptionType}
    (htr : Sim.translateOrRaise addr size writing m = .trap which m') :
    which = .addressErrorException ∨ which = .readOnlyException ∨ which = .busErrorException := by
  unfold Sim.translateOrRaise at htr
  split at htr
  · cases htr
  · next reason herror =>
    rw [Sim.raiseException_apply reason addr h.loadReg] at htr
    cases htr
    exact h.translate_error herror
  · split at htr <;> cases htr

theorem ne_abort (h : m.Sound) (hsize : size = 1 ∨ size = 2 ∨ size = 4) :
    Sim.translateOrRaise addr size writing m ≠ .abort := by
  obtain ⟨t, ht, -, -⟩ := h.table
  obtain ⟨address, haddress, -⟩ := Option.map_eq_some_iff.mp ht
  intro habort
  unfold Sim.translateOrRaise at habort
  split at habort
  · next hnone => exact h.translate_ne_none hsize hnone
  · next reason _ =>
    rw [Sim.raiseException_apply reason addr h.loadReg] at habort
    cases habort
  · rw [haddress] at habort
    cases habort

theorem of_confined (h : m.Sound) (hr : m'.registers = m.registers) (hc : m.Confined m') :
    m'.Sound := by
  obtain ⟨t, ht, hcomplete, hvalid⟩ := h.table
  obtain ⟨address, haddress, rfl⟩ := Option.map_eq_some_iff.mp ht
  refine ⟨hr ▸ h.loadReg, m'.tables address, ?_, ?_, ?_⟩
  · rw [Machine.table, hc.pageTable, haddress]
    rfl
  · have hlength := congrArg List.length (hc.mapping address)
    rw [List.length_map, List.length_map] at hlength
    rw [hc.pageTableSize, hlength]
    exact hcomplete
  · intro entry hentry
    have hmem := List.mem_map_of_mem (f := TranslationEntry.mapping) hentry
    rw [hc.mapping address] at hmem
    obtain ⟨entry', hentry', hmap⟩ := List.mem_map.mp hmem
    have hbits := congrArg (fun mapping => mapping.2.2.1) hmap
    exact hbits.symm.trans (hvalid entry' hentry')

end Machine.Sound

namespace Kernel.Accessed

variable {W : Type} {k k' k'' : Kernel W}

theorem refl (k : Kernel W) : k.Accessed k := ⟨rfl, Machine.Confined.refl _, rfl, rfl⟩

theorem trans (h : k.Accessed k') (h' : k'.Accessed k'') : k.Accessed k'' :=
  ⟨h'.registers.trans h.registers, h.confined.trans h'.confined,
    h'.fileSystem.trans h.fileSystem, h'.host.trans h.host⟩

theorem sound (h : k.Accessed k') (hs : k.machine.Sound) : k'.machine.Sound :=
  hs.of_confined h.registers h.confined

theorem refusal (h : k.Accessed k') {stop : Stop} (hr : Refusal k'.machine stop) :
    Refusal k.machine stop := by
  rcases hr with ⟨which, rfl, hwhich⟩ | ⟨rfl, hunsound⟩
  · exact .inl ⟨which, rfl, fun hs => hwhich (h.sound hs)⟩
  · exact .inr ⟨rfl, fun hs => hunsound (h.sound hs)⟩

end Kernel.Accessed

namespace Sys

variable {W : Type} (host : Host W)

/-- `IncreasePC`. -/
def increasePC : Sys W Unit := do
  writeRegister PrevPCReg (← readRegister PCReg)
  writeRegister PCReg ((← readRegister PCReg) + 4)
  writeRegister NextPCReg ((← readRegister PCReg) + 4)

/-- The way every handler ends: a result in register 2, and on to the next instruction. -/
def finish (value : Word) : Sys W Unit := do
  writeRegister 2 value
  increasePC

theorem zero_notMem_takeWhile (buffer : List UInt8) : 0 ∉ buffer.takeWhile (· ≠ 0) := by
  intro h
  simpa using List.mem_takeWhile_imp h

/-- The C string at the beginning of a buffer. -/
def cString (buffer : List UInt8) : CString :=
  ⟨buffer.takeWhile (· ≠ 0), zero_notMem_takeWhile buffer⟩

/-- The loop of `User2System` at index `i`, with `n` turns left before `limit`. -/
def copyIn (virtAddr : Word) : (n i : ℕ) → List UInt8 → Sys W (List UInt8)
  | 0, _, kernelBuf => pure kernelBuf
  | n + 1, i, kernelBuf => do
    let oneChar ← hardware (Sim.readMem (virtAddr + BitVec.ofNat 32 i) 1)
    let kernelBuf ← poke kernelBuf i (UInt8.ofNat oneChar.toNat)
    if oneChar = 0 then pure kernelBuf else copyIn virtAddr n (i + 1) kernelBuf

/-- `User2System`. The `NULL` its callers test for is never returned by `new`. -/
def user2System (virtAddr : Word) (limit : ℤ) : Sys W (List UInt8) := do
  let kernelBuf ← newChars host (limit + 1)
  copyIn virtAddr limit.toNat 0 (List.replicate kernelBuf.length 0)

/-- The loop of `System2User` at index `i`, with `n` turns left before `len`. -/
def copyOut (virtAddr : Word) (buffer : List UInt8) : (n i : ℕ) → Sys W ℤ
  | 0, i => pure i
  | n + 1, i => do
    let oneChar ← peek buffer i
    hardware (Sim.writeMem (virtAddr + BitVec.ofNat 32 i) 1 (charValue oneChar))
    if oneChar = 0 then pure (i + 1) else copyOut virtAddr buffer n (i + 1)

/-- `System2User`. -/
def system2User (virtAddr : Word) (len : ℤ) (buffer : List UInt8) : Sys W ℤ :=
  if len < 0 then pure (-1)
  else copyOut virtAddr buffer len.toNat 0

/-- The loop that reads a line from the console. Its bound is tested for equality only, so
for `len ≤ 0` it goes on until a newline or the end of the buffer. The index leaves the
buffer before `room` runs out. -/
def readChars (len : ℤ) : (room : ℕ) → (size : ℤ) → List UInt8 → Sys W (ℤ × List UInt8)
  | 0, _, _ => throw .badIndex
  | room + 1, size, buffer =>
    if size = len - 1 then pure (size, buffer)
    else do
      let oneChar ← ask host.getChar
      let buffer ← poke buffer size oneChar
      if oneChar = 10 then pure (size, buffer) else readChars len room (size + 1) buffer

/-- A line from the console into user memory, for `SC_Read` and `SC_ReadString`. -/
def readLine (virtAddr : Word) (len : ℤ) (buffer : List UInt8) : Sys W Unit := do
  let (size, buffer) ← readChars host len (buffer.length + 1) 0 buffer
  let buffer ← poke buffer size 0
  let _ ← system2User virtAddr (size + 1) buffer
  finish (BitVec.ofInt 32 (size + 1))

/-- The loop that writes a string to the console, with the same test for its bound. -/
def putChars (len : ℤ) (buffer : List UInt8) : (room : ℕ) → (size : ℤ) → Sys W ℤ
  | 0, _ => throw .badIndex
  | room + 1, size =>
    if size = len - 1 then pure size
    else do
      let oneChar ← peek buffer size
      ask fun w => ((), host.putChar w oneChar)
      if oneChar = 0 then pure size else putChars len buffer room (size + 1)

/-- A string to the console, for `SC_Write` and `SC_PrintString`. -/
def putString (len : ℤ) (buffer : List UInt8) : Sys W Unit := do
  let size ← putChars host len buffer (buffer.length + 1) 0
  finish (BitVec.ofInt 32 size)

section

open EStateM

variable {k k' k'' : Kernel W} {E : Stop → Kernel W → Prop}

@[simp] theorem ends_increasePC {Q : Unit → Kernel W → Prop} :
    Ends increasePC k Q E ↔ Q () { k with machine := k.machine.advanced } := Iff.rfl

@[simp] theorem ends_finish {value : Word} {Q : Unit → Kernel W → Prop} :
    Ends (finish value) k Q E ↔ Q () { k with machine := k.machine.finished value } := Iff.rfl

/-- The rule for an access, from what the operation is known to do. -/
theorem ends_access {α : Type} {x : Sim α} (addr : Word) {size : ℕ} (writing : Bool)
    (hsize : size = 1 ∨ size = 2 ∨ size = 4) (hkeeps : Sim.Keeps x)
    (hok : ∀ a m', x k.machine = .ok a m' → m'.registers = k.machine.registers)
    (htrap : ∀ which m', x k.machine = .trap which m' →
      Sim.translateOrRaise addr size writing k.machine = .trap which m')
    (habort : x k.machine = .abort →
      Sim.translateOrRaise addr size writing k.machine = .abort) :
    Ends (hardware x) k (fun _ k' => k.Accessed k') fun stop _ => Refusal k.machine stop := by
  unfold Ends hardware
  cases h : x k.machine with
  | ok a m' => exact ⟨hok a m' h, hkeeps.confined h, rfl, rfl⟩
  | trap which m' => exact .inl ⟨which, rfl, fun hs => hs.of_trap (htrap which m' h)⟩
  | abort => exact .inr ⟨rfl, fun hs => hs.ne_abort hsize (habort h)⟩

theorem ends_readMem (addr : Word) {size : ℕ} (hsize : size = 1 ∨ size = 2 ∨ size = 4) :
    Ends (hardware (Sim.readMem addr size)) k (fun _ k' => k.Accessed k')
      fun stop _ => Refusal k.machine stop := by
  refine ends_access addr false hsize (Sim.keeps_readMem addr size) ?_
    (fun which m' => Sim.readMem_trap hsize) (Sim.readMem_abort hsize)
  intro a m' h
  obtain ⟨physAddr, m₁, ht, hread⟩ := Sim.bind_eq_ok_iff.mp h
  obtain ⟨address, entry, hp, htr, rfl⟩ := Sim.translateOrRaise_ok ht
  rcases hsize with rfl | rfl | rfl <;> cases hread <;> rfl

theorem ends_writeMem (addr value : Word) :
    Ends (hardware (Sim.writeMem addr 1 value)) k (fun _ k' => k.Accessed k')
      fun stop _ => Refusal k.machine stop := by
  refine ends_access addr true (.inl rfl) (Sim.keeps_writeMem addr 1 value)
    ?_ (fun which m' => Sim.writeMem_trap (.inl rfl)) (Sim.writeMem_abort (.inl rfl))
  intro a m' h
  obtain ⟨address, physAddr, entry, -, -, rfl⟩ := Sim.writeMem_ok h
  rfl

theorem ends_copyIn (virtAddr : Word) (n i : ℕ) {kernelBuf : List UInt8}
    (h : i + n ≤ kernelBuf.length) :
    Ends (copyIn virtAddr n i kernelBuf) k (fun buffer k' => k.Accessed k' ∧
      buffer.length = kernelBuf.length ∧ ∀ j, i + n ≤ j → buffer[j]? = kernelBuf[j]?)
      fun stop _ => Refusal k.machine stop := by
  induction n generalizing i kernelBuf k with
  | zero => exact ⟨.refl k, rfl, fun _ _ => rfl⟩
  | succ n ih =>
    refine (ends_readMem _ (.inl rfl)).bind ?_ fun stop _ hstop => hstop
    intro oneChar k₁ hk₁
    have hin : (0 : ℤ) ≤ i ∧ (i : ℤ) < kernelBuf.length := by omega
    simp only [ends_bind, ends_poke, hin, and_self, if_true, ends_ite, Int.toNat_natCast]
    have hset (j : ℕ) (hj : i + (n + 1) ≤ j) (ch : UInt8) :
        (kernelBuf.set i ch)[j]? = kernelBuf[j]? := List.getElem?_set_ne (by omega)
    split
    · exact ⟨hk₁, List.length_set, fun j hj => hset j hj _⟩
    · refine (ih (i + 1) ?_).mono ?_ fun stop _ hstop => hk₁.refusal hstop
      · rw [List.length_set]
        omega
      · rintro buffer k₂ ⟨hk₂, hlength, hrest⟩
        refine ⟨hk₁.trans hk₂, hlength.trans List.length_set, ?_⟩
        intro j hj
        rw [hrest j (by omega), hset j hj]

/-- `User2System` returns what it has allocated, with a terminator behind the last byte. -/
theorem ends_user2System (virtAddr : Word) (limit : ℤ) :
    Ends (user2System host virtAddr limit) k (fun buffer k' => k.Accessed k' ∧
      (buffer.length : ℤ) = limit + 1 ∧ (0 ≤ limit → buffer[limit.toNat]? = some 0))
      fun stop _ => Refusal k.machine stop ∨
        stop = .abort ∧ ¬ (0 ≤ limit + 1 ∧ limit + 1 < 2 ^ 31) := by
  simp only [user2System, ends_bind, ends_newChars]
  split
  next hsize =>
    refine (ends_copyIn virtAddr limit.toNat 0 ?_).mono ?_ fun stop _ hstop => .inl hstop
    · simp only [List.length_replicate, List.length_map, List.length_range]
      omega
    · rintro buffer k' ⟨hk', hlength, hrest⟩
      simp only [List.length_replicate, List.length_map, List.length_range] at hlength hrest
      refine ⟨hk', by omega, ?_⟩
      intro hlimit
      rw [hrest _ (by omega), List.getElem?_replicate]
      exact if_pos (by omega)
  next hsize => exact .inr ⟨trivial, hsize⟩

/-- With nothing to copy, `User2System` only allocates. -/
theorem ends_user2System_of_nonpos (virtAddr : Word) {limit : ℤ} (h : limit ≤ 0)
    {Q : List UInt8 → Kernel W → Prop} :
    Ends (user2System host virtAddr limit) k Q E ↔
      if -1 ≤ limit then Q (List.replicate (limit + 1).toNat 0) k else E .abort k := by
  have hzero : limit.toNat = 0 := by omega
  have hsize : (0 ≤ limit + 1 ∧ limit + 1 < 2 ^ 31) ↔ -1 ≤ limit := by omega
  simp only [user2System, ends_bind, ends_newChars, hsize, hzero, copyIn, ends_pure,
    List.length_map, List.length_range]

/-- What is left to copy is inside the buffer, or a terminator comes before its end. -/
def Bounded (buffer : List UInt8) (i n : ℕ) : Prop :=
  i + n ≤ buffer.length ∨ ∃ z, i ≤ z ∧ buffer[z]? = some 0

theorem ends_copyOut (virtAddr : Word) {buffer : List UInt8} (n i : ℕ)
    (h : Bounded buffer i n) :
    Ends (copyOut virtAddr buffer n i) k (fun _ k' => k.Accessed k')
      fun stop _ => Refusal k.machine stop := by
  induction n generalizing i k with
  | zero => exact .refl k
  | succ n ih =>
    have hi : i < buffer.length := by
      rcases h with h | ⟨z, hz, hzero⟩
      · omega
      · have := (List.getElem?_eq_some_iff.mp hzero).1
        omega
    have hin : (0 : ℤ) ≤ i ∧ (i : ℤ) < buffer.length := by omega
    simp only [copyOut, ends_bind, ends_peek, hin, and_self, if_true, Int.toNat_natCast]
    refine (ends_writeMem _ _).mono ?_ fun stop _ hstop => hstop
    intro _ k₁ hk₁
    simp only [ends_ite, ends_pure]
    split
    · exact hk₁
    next hne =>
      refine (ih (i + 1) ?_).mono (fun _ k₂ hk₂ => hk₁.trans hk₂)
        fun stop _ hstop => hk₁.refusal hstop
      rcases h with h | ⟨z, hz, hzero⟩
      · exact .inl (by omega)
      · refine .inr ⟨z, ?_, hzero⟩
        rcases Nat.lt_or_eq_of_le hz with hlt | rfl
        · exact hlt
        · exact absurd (by rw [List.getD_eq_getElem?_getD, hzero]; rfl) hne

theorem ends_system2User (virtAddr : Word) {len : ℤ} {buffer : List UInt8}
    (h : Bounded buffer 0 len.toNat) :
    Ends (system2User virtAddr len buffer) k (fun _ k' => k.Accessed k')
      fun stop _ => Refusal k.machine stop := by
  simp only [system2User, ends_ite, ends_pure]
  split
  · exact .refl k
  · exact ends_copyOut virtAddr _ 0 h

/-- With a positive bound that fits the buffer, the loop stops at the bound if not before. -/
theorem ends_readChars {len : ℤ} (room : ℕ) {size : ℤ} {buffer : List UInt8}
    (hlen : len ≤ buffer.length) (h0 : 0 ≤ size) (hsize : size < len) (hroom : len ≤ size + room) :
    Ends (readChars host len room size buffer) k (fun r k' => 0 ≤ r.1 ∧ r.1 < len ∧
      r.2.length = buffer.length ∧ k'.machine = k.machine ∧ k'.fileSystem = k.fileSystem) E := by
  induction room generalizing size buffer k with
  | zero =>
    rw [Nat.cast_zero] at hroom
    omega
  | succ room ih =>
    simp only [readChars, ends_ite, ends_pure, ends_bind, ends_ask, ends_poke]
    split
    · exact ⟨h0, hsize, trivial, trivial, trivial⟩
    next hne =>
      rw [if_pos ⟨h0, by omega⟩]
      split
      · exact ⟨h0, hsize, List.length_set, trivial, trivial⟩
      · refine (ih ?_ ?_ ?_ ?_).mono ?_ fun stop _ hstop => hstop
        · rwa [List.length_set]
        · omega
        · omega
        · push_cast at hroom
          omega
        · rintro r k' ⟨hr0, hr, hlength, hmachine, hfs⟩
          exact ⟨hr0, hr, hlength.trans List.length_set, hmachine, hfs⟩

theorem ends_readLine (virtAddr : Word) {len : ℤ} {buffer : List UInt8} (hlen : 1 ≤ len)
    (hbuffer : len ≤ buffer.length) :
    Ends (readLine host virtAddr len buffer) k (fun _ k' => k'.fileSystem = k.fileSystem)
      fun stop _ => Refusal k.machine stop := by
  refine (ends_readChars host (buffer.length + 1) hbuffer le_rfl (by omega) ?_).bind ?_
    fun stop _ hstop => hstop
  · push_cast
    omega
  rintro ⟨size, buffer'⟩ k₁ ⟨h0, hsize, hlength, hmachine, hfs⟩
  dsimp only at h0 hsize hlength ⊢
  simp only [ends_bind, ends_poke, ends_finish]
  rw [if_pos ⟨h0, by omega⟩]
  refine (ends_system2User virtAddr ?_).mono ?_ ?_
  · refine .inl ?_
    rw [List.length_set]
    omega
  · intro _ k₂ hk₂
    exact hk₂.fileSystem.trans hfs
  · intro stop _ hstop
    rwa [hmachine] at hstop

/-- The loop stops at a terminator if not before. -/
theorem ends_putChars {len : ℤ} (room : ℕ) {size : ℤ} {buffer : List UInt8} {z : ℕ}
    (hz : buffer[z]? = some 0) (h0 : 0 ≤ size) (hsize : size ≤ z) (hroom : (z : ℤ) < size + room) :
    Ends (putChars host len buffer room size) k (fun _ k' => k'.fileSystem = k.fileSystem) E := by
  induction room generalizing size k with
  | zero =>
    rw [Nat.cast_zero] at hroom
    omega
  | succ room ih =>
    have hlength := (List.getElem?_eq_some_iff.mp hz).1
    simp only [putChars, ends_ite, ends_pure, ends_bind, ends_ask, ends_peek]
    split
    · trivial
    rw [if_pos ⟨h0, by omega⟩]
    split
    · trivial
    next hne =>
      have hz' : size ≠ z := by
        rintro rfl
        exact hne (by rw [Int.toNat_natCast, List.getD_eq_getElem?_getD, hz]; rfl)
      refine ih (by omega) (by omega) ?_
      push_cast at hroom
      omega

theorem ends_putString {len : ℤ} {buffer : List UInt8} {z : ℕ} (hz : buffer[z]? = some 0) :
    Ends (putString host len buffer) k (fun _ k' => k'.fileSystem = k.fileSystem) E := by
  have hlength := (List.getElem?_eq_some_iff.mp hz).1
  refine (ends_putChars host (buffer.length + 1) hz le_rfl (by omega) ?_).bind
    (fun _ _ hfs => hfs) fun stop _ hstop => hstop
  push_cast
  omega

end

end Sys
end Nachos

import Nachos.Userprog.CallHistory
import Nachos.Userprog.ConsoleSlots
import Nachos.Userprog.ReadNum
import Nachos.Userprog.UserBuffer

/-! Lines from the console: `Read` on descriptor 0 and `ReadString`. -/
namespace Nachos

open EStateM Machine

namespace ConsoleLine

/-- The characters of a line, of which there are at most `limit`. -/
def line (limit : ℕ) (stream : List UInt8) : List UInt8 := (stream.take limit).takeWhile (· ≠ 10)

/-- The characters that are taken from the stream, with the newline if it comes in time. -/
def taken (limit : ℕ) (stream : List UInt8) : ℕ :=
  if (line limit stream).length < limit then (line limit stream).length + 1 else limit

/-- The newline comes, or enough characters do. -/
def Enough (limit : ℕ) (stream : List UInt8) : Prop := 10 ∈ stream ∨ limit ≤ stream.length

variable {limit : ℕ} {stream : List UInt8} {c : UInt8}

theorem line_zero (stream : List UInt8) : line 0 stream = [] := by
  rw [line, List.take_zero, List.takeWhile_nil]

theorem line_newline (limit : ℕ) (stream : List UInt8) : line (limit + 1) (10 :: stream) = [] := by
  rw [line, List.take_succ_cons, List.takeWhile_cons]
  rfl

theorem line_cons (hc : c ≠ 10) : line (limit + 1) (c :: stream) = c :: line limit stream := by
  rw [line, List.take_succ_cons, List.takeWhile_cons, if_pos (decide_eq_true hc)]
  rfl

theorem length_line_le (limit : ℕ) (stream : List UInt8) : (line limit stream).length ≤ limit :=
  (List.takeWhile_sublist _).length_le.trans (List.length_take_le limit stream)

theorem taken_zero (stream : List UInt8) : taken 0 stream = 0 := by
  rw [taken, if_neg (Nat.not_lt_zero _)]

theorem taken_newline (limit : ℕ) (stream : List UInt8) : taken (limit + 1) (10 :: stream) = 1 := by
  rw [taken, line_newline]
  exact if_pos (Nat.succ_pos limit)

theorem taken_cons (hc : c ≠ 10) : taken (limit + 1) (c :: stream) = taken limit stream + 1 := by
  unfold taken
  rw [line_cons hc, List.length_cons]
  split <;> split <;> omega

theorem Enough.tail (h : Enough (limit + 1) (c :: stream)) (hc : c ≠ 10) : Enough limit stream := by
  rcases h with hmem | hlength
  · exact .inl ((List.mem_cons.mp hmem).resolve_left (Ne.symm hc))
  · exact .inr (Nat.le_of_succ_le_succ hlength)

/-- What is taken is the line, with its newline unless the line is full. -/
theorem take_taken (h : Enough limit stream) : stream.take (taken limit stream) =
    line limit stream ++ if (line limit stream).length < limit then [10] else [] := by
  induction limit generalizing stream with
  | zero => rw [taken_zero, line_zero, List.take_zero, if_neg (Nat.not_lt_zero _), List.append_nil]
  | succ limit ih =>
    cases stream with
    | nil => simp [Enough] at h
    | cons c stream =>
      by_cases hc : c = 10
      · subst hc
        rw [taken_newline, line_newline]
        simp
      · rw [taken_cons hc, line_cons hc, List.take_succ_cons, ih (h.tail hc), List.length_cons]
        simp only [Nat.add_lt_add_iff_right, List.cons_append]

theorem not_mem_line (h : 0 ∉ stream) (limit : ℕ) : 0 ∉ line limit stream := by
  intro hmem
  exact h (List.mem_of_mem_take ((List.takeWhile_sublist _).subset hmem))

end ConsoleLine

namespace Sys

open ConsoleLine

variable {W : Type} (host : Host W)

/-- The console when `n` characters have been taken. -/
def afterChars (w : W) (n : ℕ) : W := (fun w => (host.getChar w).2)^[n] w

variable {host} {k : Kernel W} {stream buffer : List UInt8} {len : ℤ} {n size room : ℕ}

/-- What has not been taken is still to come. -/
theorem Typed.after {w : W} (h : Typed host w stream) (n : ℕ) :
    Typed host (afterChars host w n) (stream.drop n) := by
  induction n generalizing w stream with
  | zero => exact h
  | succ n ih =>
    cases stream with
    | nil =>
      rw [List.drop_nil]
      trivial
    | cons c stream => exact ih h.2

/-- The loop of `Read` and `ReadString` stores the line, and takes no more characters than it has
to. -/
theorem ends_readChars_line (hlen : len - 1 = (size + n : ℕ)) (hbuffer : size + n < buffer.length)
    (hroom : n < room) (htyped : Typed host k.host stream) (henough : Enough n stream) :
    Ends (readChars host len room size buffer) k (fun r k' =>
      r.1 = (size + (line n stream).length : ℕ) ∧ r.2.length = buffer.length ∧
      r.2.take (size + (line n stream).length) = buffer.take size ++ line n stream ∧
      k' = { k with host := afterChars host k.host (taken n stream) }) fun _ _ => False := by
  induction n generalizing size room buffer stream k with
  | zero =>
    obtain ⟨room, rfl⟩ : ∃ m, room = m + 1 := ⟨room - 1, by omega⟩
    rw [readChars, if_pos (by omega), line_zero, taken_zero]
    exact ⟨rfl, rfl, (List.append_nil _).symm, rfl⟩
  | succ n ih =>
    obtain ⟨room, rfl⟩ : ∃ m, room = m + 1 := ⟨room - 1, by omega⟩
    have hin : (0 : ℤ) ≤ size ∧ (size : ℤ) < buffer.length := by omega
    cases stream with
    | nil => simp [Enough] at henough
    | cons c stream =>
      rw [readChars, if_neg (by omega)]
      simp only [ends_bind, ends_ask, ends_poke, hin, and_self, if_true, ends_ite, ends_pure,
        htyped.1, Int.toNat_natCast]
      by_cases hc : c = 10
      · subst hc
        rw [if_pos rfl, line_newline, taken_newline]
        refine ⟨rfl, List.length_set, ?_, rfl⟩
        rw [List.append_nil]
        exact List.take_set_of_le le_rfl
      · have hsize : (size : ℤ) + 1 = (size + 1 : ℕ) := by omega
        rw [if_neg hc, hsize, line_cons hc, taken_cons hc]
        refine (ih (by omega) (by rw [List.length_set]; omega) (by omega) htyped.2
          (henough.tail hc)).mono ?_ fun _ _ h => h
        rintro ⟨last, after⟩ k' ⟨hlast, hlength, hstored, hk'⟩
        refine ⟨?_, ?_, ?_, ?_⟩
        · rw [hlast, List.length_cons]
          omega
        · rw [hlength, List.length_set]
        · have hone : (buffer.set size c).take (size + 1) = buffer.take size ++ [c] := by
            rw [List.take_add_one, List.take_set_of_le le_rfl, List.getElem?_set_self (by omega)]
            rfl
          rw [List.length_cons, ← Nat.add_assoc, Nat.add_right_comm, hstored, hone,
            List.append_assoc]
          rfl
        · rw [hk', afterChars, afterChars, Function.iterate_succ_apply]

/-- A line has been read into the user's buffer, from the console in state `w`. -/
structure LineRead (host : Host W) (m : Machine) (w : W) (virtAddr : Word) (limit : ℕ)
    (stream : List UInt8) (k' : Kernel W) : Prop where
  console : k'.host = afterChars host w (taken limit stream)
  stored : k'.machine.Shows virtAddr (line limit stream ++ [0])
  others : ∀ v, (∀ i < (line limit stream).length + 1, v ≠ virtAddr + BitVec.ofNat 32 i) →
    k'.machine.virtualByte v = m.virtualByte v
  /-- Register 2 has the result; the other registers are those of a call that is done. -/
  registers : k'.machine.registers =
    (m.finished (BitVec.ofNat 32 ((line limit stream).length + 1))).registers

theorem advanced_registers {m m' : Machine} (h : m'.registers = m.registers) (value : Word) :
    (m'.finished value).registers = (m.finished value).registers := by
  unfold Machine.finished Machine.advanced
  rw [h]

theorem ends_readLine_line {virtAddr : Word} (hlen : len - 1 = n) (hlength : n < buffer.length)
    (hbuffer : k.machine.HasBuffer virtAddr (n + 1)) (htyped : Typed host k.host stream)
    (hzero : 0 ∉ stream) (henough : Enough n stream) :
    Ends (readLine host virtAddr len buffer) k
      (fun _ k' => LineRead host k.machine k.host virtAddr n stream k') fun _ _ => False := by
  have hshort := length_line_le n stream
  have hbound : len - 1 = (0 + n : ℕ) := by omega
  refine (ends_readChars_line hbound (by omega) (by omega) htyped henough).bind ?_ fun _ _ h => h
  rintro ⟨last, after⟩ k₁ ⟨hlast, hsame, hstored, rfl⟩
  rw [Nat.zero_add] at hlast hstored
  dsimp only at hlast hsame hstored ⊢
  have hin : (0 : ℤ) ≤ last ∧ last < after.length := by omega
  have hnat : last.toNat = (line n stream).length := by omega
  simp only [ends_bind, ends_poke, hin, and_self, if_true, hnat]
  -- what is copied out: the line and its terminator
  set out := after.set (line n stream).length 0 with hout
  have htake : out.take ((line n stream).length + 1) = line n stream ++ [0] := by
    rw [hout, List.take_add_one, List.take_set_of_le le_rfl, hstored,
      List.getElem?_set_self (by omega)]
    rfl
  have hget {j : ℕ} (hj : j < (line n stream).length + 1) :
      out[j]? = (line n stream ++ [0])[j]? := by
    rw [← htake, List.getElem?_take_of_lt hj]
  have hreaches {j : ℕ} : Reaches out 0 ((line n stream).length + 1) j ↔
      j < (line n stream).length + 1 := by
    refine ⟨fun h => by unfold Reaches at h; omega, fun hj => ⟨Nat.zero_le j, by omega, ?_⟩⟩
    intro l _ hl heq
    rw [hget (by omega), List.getElem?_append_left (by omega)] at heq
    exact not_mem_line hzero n (List.mem_of_getElem? heq)
  have hsize : out.length = after.length := List.length_set
  have hroom : k.machine.HasBuffer virtAddr ((line n stream).length + 1) := hbuffer.mono (by omega)
  have hfits : (line n stream).length + 1 ≤ out.length := by omega
  have hcount : last + 1 = ((line n stream).length + 1 : ℕ) := by omega
  refine (ends_system2User_buffer (k := { k with host := afterChars host k.host (taken n stream) })
    hcount hroom hfits).mono ?_ fun _ _ h => h
  rintro _ k₂ ⟨hk₂, hcopied, hothers⟩
  rw [ends_finish]
  have hresult : BitVec.ofInt 32 (last + 1) = BitVec.ofNat 32 ((line n stream).length + 1) := by
    rw [hlast, ← Int.natCast_succ, BitVec.ofInt_natCast]
  refine ⟨hk₂.host, ?_, ?_, ?_⟩
  · intro j hj
    rw [List.length_append, List.length_singleton] at hj
    rw [virtualByte_finished, hcopied j (hreaches.mpr hj), hget hj]
  · intro v hv
    rw [virtualByte_finished, hothers v fun j hj => hv j (hreaches.mp hj)]
  · rw [hresult]
    exact advanced_registers hk₂.registers _

/-- `lseek` with `SEEK_CUR` and no offset takes nothing from the console. -/
def KeepsTyped (host : Host W) : Prop :=
  ∀ w fd stream, Typed host w stream → Typed host (host.lseek w fd 0 1).2 stream

/-- What the kernel does before it reads the line. -/
theorem ends_lineInto {virtAddr : Word} (hlen : len = (n + 1 : ℕ))
    (hbuffer : k.machine.HasBuffer virtAddr (n + 1)) (htyped : Typed host k.host stream)
    (hzero : 0 ∉ stream) (henough : Enough n stream) :
    Ends (user2System host virtAddr len >>= readLine host virtAddr len) k
      (fun _ k' => LineRead host k.machine k.host virtAddr n stream k') fun _ _ => False := by
  obtain ⟨bytes, hbytes, hshows⟩ := hbuffer.shows
  have hsmall := hbuffer.length_le
  have hmemory : MemorySize + 1 < 2 ^ 31 := by decide
  refine (ends_user2System_shown host hlen hbuffer.mapped hshows (.inl hbytes.ge)
    (by omega)).bind ?_ fun _ _ h => h
  rintro buffer k₁ ⟨rfl, haccessed, hunchanged⟩
  have htyped₁ : Typed host k₁.host stream := haccessed.host ▸ htyped
  refine (ends_readLine_line (n := n) (by omega) ?_ (hbuffer.confined haccessed.confined) htyped₁
    hzero henough).mono ?_ fun _ _ h => h
  · rw [List.rightpad, List.length_append, List.length_replicate]
    omega
  · rintro _ k₂ ⟨hconsole, hstored, hothers, hregisters⟩
    refine ⟨haccessed.host ▸ hconsole, hstored, fun v hv => ?_, ?_⟩
    · exact (hothers v hv).trans (hunchanged.2 v)
    · exact hregisters.trans (advanced_registers haccessed.registers _)

theorem scReadString_line (hlen : (k.machine.registers 5).toInt = (n + 1 : ℕ))
    (hbuffer : k.machine.HasBuffer (k.machine.registers 4) (n + 1))
    (htyped : Typed host k.host stream) (hzero : 0 ∉ stream) (henough : Enough n stream) :
    Ends (scReadString host) k
      (fun _ k' => LineRead host k.machine k.host (k.machine.registers 4) n stream k')
      fun _ _ => False := by
  rw [scReadString, ends_bind, ends_readRegister, ends_bind, ends_argument]
  exact ends_lineInto hlen hbuffer htyped hzero henough

theorem scRead_line (hid : k.machine.registers 6 = 0) {f : OpenFile}
    (hopen : k.fileSystem.openf 0 = some f) (hlen : (k.machine.registers 5).toInt = (n + 1 : ℕ))
    (hbuffer : k.machine.HasBuffer (k.machine.registers 4) (n + 1))
    (htyped : Typed host (host.lseek k.host f.file 0 1).2 stream) (hzero : 0 ∉ stream)
    (henough : Enough n stream) :
    Ends (scRead host) k (fun _ k' => LineRead host k.machine (host.lseek k.host f.file 0 1).2
      (k.machine.registers 4) n stream k') fun _ _ => False := by
  have hentry : k.fileSystem.entry 0 = some f := hopen
  have hread : Ends (Descriptors.readConsole host (k.machine.registers 4)
      (k.machine.registers 5).toInt) k (fun _ k' => LineRead host k.machine
        (host.lseek k.host f.file 0 1).2 (k.machine.registers 4) n stream k') fun _ _ => False := by
    rw [Descriptors.readConsole, ends_bind, ends_onFile hentry, OpenFile.getCurrentPos, ends_bind,
      ends_tell, ends_pure]
    exact ends_lineInto hlen hbuffer htyped hzero henough
  unfold Ends at hread ⊢
  rw [Descriptors.scRead_console hid hopen]
  exact hread

/-- `Read` on descriptor 0 and `ReadString` leave the user program in the same state, and have taken
the same characters. -/
structure ReadsAlike (host : Host W) (k : Kernel W) (limit : ℕ) (stream : List UInt8)
    (k₁ k₂ : Kernel W) : Prop where
  read : ∃ f, k.fileSystem.openf 0 = some f ∧ LineRead host k.machine
    (host.lseek k.host f.file 0 1).2 (k.machine.registers 4) limit stream k₁
  readString : LineRead host k.machine k.host (k.machine.registers 4) limit stream k₂
  consumed : stream.take (taken limit stream) =
    line limit stream ++ if (line limit stream).length < limit then [10] else []
  rest : Typed host k₁.host (stream.drop (taken limit stream)) ∧
    Typed host k₂.host (stream.drop (taken limit stream))
  registers : k₁.machine.registers = k₂.machine.registers
  memory : ∀ v, k₁.machine.virtualByte v = k₂.machine.virtualByte v
  /-- The result is the number of characters stored, with the terminator. -/
  result : (k₁.machine.registers 2).toInt = (line limit stream).length + 1
  le : (k₁.machine.registers 2).toInt ≤ limit + 1

theorem LineRead.memory {m : Machine} {w w' : W} {virtAddr : Word} {k₁ k₂ : Kernel W}
    (h₁ : LineRead host m w virtAddr n stream k₁) (h₂ : LineRead host m w' virtAddr n stream k₂)
    (v : Word) : k₁.machine.virtualByte v = k₂.machine.virtualByte v := by
  by_cases hv : ∀ i < (line n stream).length + 1, v ≠ virtAddr + BitVec.ofNat 32 i
  · rw [h₁.others v hv, h₂.others v hv]
  · obtain ⟨i, hi, rfl⟩ : ∃ i < (line n stream).length + 1, v = virtAddr + BitVec.ofNat 32 i := by
      by_contra hnone
      exact hv fun i hi heq => hnone ⟨i, hi, heq⟩
    have hlength : i < (line n stream ++ [0]).length := by
      rw [List.length_append, List.length_singleton]
      exact hi
    rw [h₁.stored i hlength, h₂.stored i hlength]

theorem LineRead.result {m : Machine} {w : W} {virtAddr : Word} {k₁ : Kernel W}
    (h : LineRead host m w virtAddr n stream k₁) (hn : n < 2 ^ 31 - 1) :
    (k₁.machine.registers 2).toInt = (line n stream).length + 1 := by
  have hshort := length_line_le n stream
  rw [h.registers, finished_two, BitVec.toInt_eq_toNat_of_lt]
  · rw [BitVec.toNat_ofNat, Nat.mod_eq_of_lt (by omega)]
    rfl
  · rw [BitVec.toNat_ofNat, Nat.mod_eq_of_lt (by omega)]
    omega

theorem console_line (hkeeps : KeepsTyped host) (hid : k.machine.registers 6 = 0)
    (hopen : k.fileSystem.openf 0 ≠ none) (hlen : (k.machine.registers 5).toInt = (n + 1 : ℕ))
    (hbuffer : k.machine.HasBuffer (k.machine.registers 4) (n + 1))
    (htyped : Typed host k.host stream) (hzero : 0 ∉ stream) (henough : Enough n stream) :
    ∃ k₁ k₂, scRead host k = .ok () k₁ ∧ scReadString host k = .ok () k₂ ∧
      ReadsAlike host k n stream k₁ k₂ := by
  obtain ⟨f, hf⟩ := Option.ne_none_iff_exists'.mp hopen
  have htold := hkeeps k.host f.file stream htyped
  have hread := scRead_line hid hf hlen hbuffer htold hzero henough
  have hstring := scReadString_line hlen hbuffer htyped hzero henough
  have hsmall : n < 2 ^ 31 - 1 := by
    have hlt := BitVec.toInt_lt (x := k.machine.registers 5)
    omega
  unfold Ends at hread hstring
  split at hread
  · next a k₁ hk₁ =>
    split at hstring
    · next a' k₂ hk₂ =>
      have hresult := hread.result hsmall
      have hshort := length_line_le n stream
      refine ⟨k₁, k₂, hk₁, hk₂, ⟨f, hf, hread⟩, hstring, take_taken henough, ⟨?_, ?_⟩, ?_,
        hread.memory hstring, hresult, ?_⟩
      · rw [hread.console]
        exact htold.after _
      · rw [hstring.console]
        exact htyped.after _
      · exact hread.registers.trans hstring.registers.symm
      · rw [hresult]
        omega
    · exact hstring.elim
  · exact hread.elim

/-- A call with a buffer of four bytes at address 0. -/
def lineKernel (console : List UInt8) : Kernel (List UInt8) where
  machine :=
    { registers := Function.update (fun _ => 0) 5 4
      mainMemory := fun _ => 65
      pageTable := some 0
      pageTableSize := 1
      tables := fun _ => AddrSpace.tableOf 0 [0] }
  fileSystem := { FileSystem.blank with openf := fun _ => some (OpenFile.new 7 2 0) }
  host := console

theorem console_line_short : ∃ k₁ k₂, scRead typing (lineKernel [72, 105, 10, 33]) = .ok () k₁ ∧
    scReadString typing (lineKernel [72, 105, 10, 33]) = .ok () k₂ ∧
    ReadsAlike typing (lineKernel [72, 105, 10, 33]) 3 [72, 105, 10, 33] k₁ k₂ :=
  console_line (fun _ _ _ h => h) rfl (by simp [lineKernel]) rfl
    (Descriptors.hasBuffer_onePage rfl rfl (by decide)) ⟨rfl, rfl, rfl, rfl, trivial⟩ (by decide)
    (.inl (by decide))

end Sys
end Nachos

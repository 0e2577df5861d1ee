import Nachos.Userprog.ConsoleLines

/-! `User2System` and `System2User` are inverse: a string that the kernel writes into user
memory is the string it reads back, and neither touches anything else. -/
namespace Nachos.Sys

open EStateM Machine

variable {W : Type} (host : Host W) {k : Kernel W}

/-- User memory holds the string and its terminator, and all else is as before. -/
structure StringWritten (virtAddr : Word) (s : List UInt8) (m m' : Machine) : Prop where
  string : m'.Shows virtAddr (s ++ [0])
  others : ∀ v, (∀ i ≤ s.length, v ≠ virtAddr + BitVec.ofNat 32 i) →
    m'.virtualByte v = m.virtualByte v

/-- The copy of a string stops behind its terminator. -/
theorem reaches_string {s rest : List UInt8} (hs : 0 ∉ s) {j : ℕ} :
    Reaches (s ++ 0 :: rest) 0 (s.length + 1) j ↔ j ≤ s.length := by
  constructor
  · rintro ⟨-, hlt, -⟩
    omega
  · intro hj
    refine ⟨Nat.zero_le j, by omega, fun l _ hl hzero => ?_⟩
    rw [List.getElem?_append_left (by omega)] at hzero
    exact hs (List.mem_of_getElem? hzero)

theorem CopiedOut.stringWritten {virtAddr : Word} {s rest : List UInt8} {m m' : Machine}
    (hs : 0 ∉ s) (h : CopiedOut virtAddr (s ++ 0 :: rest) 0 (s.length + 1) m m') :
    StringWritten virtAddr s m m' where
  string := by
    intro i hi
    rw [List.length_append, List.length_singleton] at hi
    have hsplit : s ++ 0 :: rest = (s ++ [0]) ++ rest := by simp
    rw [h.copied i ((reaches_string hs).mpr (Nat.le_of_lt_succ hi)), hsplit,
      List.getElem?_append_left (by simpa using hi)]
  others v hv := h.others v fun j hj => hv j ((reaches_string hs).mp hj)

theorem ends_system2User_string {virtAddr : Word} {s : List UInt8} (rest : List UInt8)
    (hs : 0 ∉ s) (hbuffer : k.machine.HasBuffer virtAddr (s.length + 1)) :
    Ends (system2User virtAddr (s.length + 1) (s ++ 0 :: rest)) k (fun _ k' => k.Accessed k' ∧
      StringWritten virtAddr s k.machine k'.machine) fun _ _ => False := by
  have hlength : s.length + 1 ≤ (s ++ 0 :: rest).length := by
    rw [List.length_append, List.length_cons]
    omega
  refine (ends_system2User_buffer rfl hbuffer hlength).mono ?_ fun _ _ h => h
  rintro _ k' ⟨hk', hcopied⟩
  exact ⟨hk', hcopied.stringWritten hs⟩

/-- A string in user memory comes back with zeros behind it. -/
theorem ends_user2System_written {virtAddr : Word} {s : List UInt8} {limit : ℤ} {n : ℕ}
    (hlimit : limit = n) (hs : 0 ∉ s) (hlength : s.length < n)
    (hbuffer : k.machine.HasBuffer virtAddr n)
    (hshows : k.machine.Shows virtAddr (s ++ [0])) :
    Ends (user2System host virtAddr limit) k
      (fun buffer _ => buffer = s.rightpad (n + 1) 0) fun _ _ => False := by
  have hsmall := hbuffer.length_le
  have hmemory : MemorySize + 1 < 2 ^ 31 := by decide
  have hzero : (0 : UInt8) ∈ s ++ [0] := List.mem_append_right _ List.mem_cons_self
  refine (ends_user2System_shown host hlimit hbuffer.mapped hshows (.inr hzero)
    (by omega)).mono ?_ fun _ _ h => h
  rintro buffer k' ⟨rfl, -⟩
  rw [takeWhile_take_string hs, List.take_of_length_le hlength.le]

/-- What `User2System` makes of `n` bytes. -/
structure CopiedIn (n : ℕ) (bytes buffer : List UInt8) : Prop where
  size : buffer.length = n + 1
  terminated : 0 ∈ buffer
  string : buffer.takeWhile (· ≠ 0) = bytes.takeWhile (· ≠ 0)

theorem copiedIn_rightpad {bytes : List UInt8} {n : ℕ} (h : bytes.length = n) :
    CopiedIn n bytes ((bytes.takeWhile (· ≠ 0)).rightpad (n + 1) 0) := by
  have hshort : (bytes.takeWhile (· ≠ 0)).length ≤ n :=
    h ▸ (List.takeWhile_prefix _).length_le
  refine ⟨?_, ?_, ?_⟩
  · rw [List.length_rightpad]
    omega
  · rw [List.rightpad]
    refine List.mem_append_right _ (List.mem_replicate.mpr ⟨?_, rfl⟩)
    omega
  · exact takeWhile_rightpad (zero_notMem_takeWhile bytes) _

theorem ends_user2System_memory {virtAddr : Word} {limit : ℤ} {n : ℕ} (hlimit : limit = n)
    (hbuffer : k.machine.HasBuffer virtAddr n) {bytes : List UInt8}
    (hlength : bytes.length = n) (hshows : k.machine.Shows virtAddr bytes) :
    Ends (user2System host virtAddr limit) k (fun buffer k' => CopiedIn n bytes buffer ∧
      k.machine.Unchanged k'.machine) fun _ _ => False := by
  have hsmall := hbuffer.length_le
  have hmemory : MemorySize + 1 < 2 ^ 31 := by decide
  refine (ends_user2System_shown host hlimit hbuffer.mapped hshows (.inl hlength.ge)
    (by omega)).mono ?_ fun _ _ h => h
  rintro buffer k' ⟨rfl, hk'⟩
  rw [List.take_of_length_le hlength.le]
  exact ⟨copiedIn_rightpad hlength, hk'.2⟩

theorem peek_append {buffer : List UInt8} {i : ℕ} (hi : i < buffer.length) (rest : List UInt8) :
    (peek (buffer ++ rest) i : Sys W UInt8) = peek buffer i := by
  have hin : (0 : ℤ) ≤ i ∧ (i : ℤ) < buffer.length := by omega
  have hin' : (0 : ℤ) ≤ i ∧ (i : ℤ) < (buffer ++ rest).length := by
    rw [List.length_append]
    omega
  rw [peek, peek, if_pos hin, if_pos hin', Int.toNat_natCast, List.getD_eq_getElem?_getD,
    List.getD_eq_getElem?_getD, List.getElem?_append_left hi]

/-- The loop of `System2User` does not see what is behind its last byte. -/
theorem copyOut_append (virtAddr : Word) {buffer : List UInt8} (rest : List UInt8) (n i : ℕ)
    (h : i + n ≤ buffer.length) :
    (copyOut virtAddr (buffer ++ rest) n i : Sys W ℤ) = copyOut virtAddr buffer n i := by
  induction n generalizing i with
  | zero => rfl
  | succ n ih =>
    rw [copyOut, copyOut, peek_append (by omega), ih (i + 1) (by omega)]

theorem system2User_append (virtAddr : Word) {len : ℤ} {buffer : List UInt8}
    (h : buffer.length = len.toNat) (rest : List UInt8) :
    (system2User virtAddr len (buffer ++ rest) : Sys W ℤ) = system2User virtAddr len buffer := by
  rw [system2User, system2User, copyOut_append virtAddr rest _ 0 (by omega)]

/-- `System2User` does not index its buffer at `len` or beyond. -/
theorem ends_system2User_inside (virtAddr : Word) {len : ℤ} {buffer : List UInt8}
    (h : buffer.length = len.toNat) :
    Ends (system2User virtAddr len buffer) k (fun _ _ => True)
      fun stop _ => stop ≠ .badIndex := by
  refine (ends_system2User virtAddr (.inl (by omega))).mono (fun _ _ _ => trivial) ?_
  rintro stop k' (⟨which, rfl, -⟩ | ⟨rfl, -⟩) <;> simp

/-- How the two routines stand to each other, in a buffer of `n` bytes. -/
structure CopiesInverse (k : Kernel W) (virtAddr : Word) (limit : ℤ) (n : ℕ) : Prop where
  /-- What has been copied out comes in again. -/
  roundTrip : ∀ s rest : List UInt8, 0 ∉ s → s.length < n →
    Ends (system2User virtAddr (s.length + 1) (s ++ 0 :: rest)) k (fun _ k' =>
      StringWritten virtAddr s k.machine k'.machine ∧
      Ends (user2System host virtAddr limit) k'
        (fun buffer _ => buffer = s.rightpad (n + 1) 0) fun _ _ => False) fun _ _ => False
  /-- Copying in takes what is there, and changes no byte of it. -/
  copiesIn : ∃ bytes, bytes.length = n ∧ k.machine.Shows virtAddr bytes ∧
    Ends (user2System host virtAddr limit) k (fun buffer k' =>
      CopiedIn n bytes buffer ∧ k.machine.Unchanged k'.machine) fun _ _ => False
  /-- Copying out uses nothing of its buffer from `len` on, wherever it copies to. -/
  copiesOut : ∀ (start : Kernel W) (address : Word) (len : ℤ) (buffer rest : List UInt8),
    buffer.length = len.toNat →
    system2User address len (buffer ++ rest) start = system2User address len buffer start ∧
    Ends (system2User address len buffer) start (fun _ _ => True) fun stop _ => stop ≠ .badIndex

theorem copies_inverse {virtAddr : Word} {limit : ℤ} {n : ℕ} (hlimit : limit = n)
    (hbuffer : k.machine.HasBuffer virtAddr n) : CopiesInverse host k virtAddr limit n where
  roundTrip s rest hs hlength := by
    refine (ends_system2User_string rest hs (hbuffer.mono hlength)).mono ?_ fun _ _ h => h
    rintro _ k' ⟨hk', hwritten⟩
    exact ⟨hwritten, ends_user2System_written host hlimit hs hlength
      (hbuffer.confined hk'.confined) hwritten.string⟩
  copiesIn := by
    obtain ⟨bytes, hlength, hshows⟩ := hbuffer.shows
    exact ⟨bytes, hlength, hshows,
      ends_user2System_memory host hlimit hbuffer hlength hshows⟩
  copiesOut start address len buffer rest hlen :=
    ⟨by rw [system2User_append address hlen rest], ends_system2User_inside address hlen⟩

theorem copies_inverse_onePage :
    CopiesInverse typing (lineKernel []) 120 8 8 ∧ (lineKernel []).machine.HasBuffer 120 8 :=
  have hbuffer : (lineKernel []).machine.HasBuffer 120 8 :=
    Descriptors.hasBuffer_onePage rfl rfl (by decide)
  ⟨copies_inverse typing rfl hbuffer, hbuffer⟩

end Nachos.Sys

import Nachos.Userprog.CallHistory
import Nachos.Userprog.RegularFiles

/-! `Write` on a regular file and on the console. A zero in the buffer ends what `User2System`
copies; the file then gets one byte less than it was asked for, and what is returned is one more
than the bytes written. The console gets one byte less in any case. -/
namespace Nachos

variable {W : Type}

/-- A call of `Write` for index `id`, with these bytes in the buffer. -/
structure Kernel.WriteCall (k : Kernel W) (id : ℤ) (bytes : List UInt8) : Prop where
  index : (k.machine.registers 6).toInt = id
  length : (k.machine.registers 5).toInt = bytes.length
  length_pos : 1 ≤ bytes.length
  mapped : ∃ t, k.machine.Mapped t
  shows : k.machine.Shows (k.machine.registers 4) bytes

/-- Index `id` holds file `i`, and the file has been opened for writing. -/
structure Kernel.WritableOn (view : W → HostFiles) (k : Kernel W) (id : ℤ) (f : OpenFile)
    (i : ℕ) : Prop where
  openOn : k.OpenOn view id f i
  two_le : 2 ≤ id
  normal : f.fdType = 0
  writable : f.permission ≠ 1

namespace Sys

open EStateM Machine

variable {host : Host W} {view : W → HostFiles} {k k' : Kernel W} {id : ℤ} {f : OpenFile}
  {i : ℕ} {bytes : List UInt8}

/-- What `User2System` makes of the buffer. -/
def kernelCopy (bytes : List UInt8) : List UInt8 :=
  (bytes.takeWhile (· ≠ 0)).rightpad (bytes.length + 1) 0

/-- The bytes that the file system is to write. -/
def writtenBytes (bytes : List UInt8) : List UInt8 :=
  (kernelCopy bytes).take (if 0 ∈ bytes then bytes.length - 1 else bytes.length)

/-- The files of the host after a write that is left out if there is nothing to write. -/
def afterWrite (v : HostFiles) (fd : Word) (i : ℕ) (bytes : List UInt8) : HostFiles :=
  if bytes = [] then v else v.written fd i bytes

/-- What a call of `Write` leaves that has written these bytes. -/
structure HasWritten (view : W → HostFiles) (k : Kernel W) (id : ℤ) (f : OpenFile) (i : ℕ)
    (written : List UInt8) (k' : Kernel W) : Prop where
  machine : ∃ m, k.machine.Confined m ∧ k'.machine =
    m.finished (if written = [] then -1 else BitVec.ofNat 32 (written.length + 1))
  files : view k'.host = afterWrite (view k.host) f.file i written
  table : k'.fileSystem =
    k.fileSystem.setEntry id (some (f.movedTo (k.offset view f + written.length)))

theorem length_takeWhile_lt (h : 0 ∈ bytes) :
    (bytes.takeWhile (· ≠ 0)).length < bytes.length := by
  refine lt_of_le_of_ne (List.takeWhile_prefix _).length_le fun heq => ?_
  have hall := (List.takeWhile_prefix (· ≠ (0 : UInt8)) (l := bytes)).eq_of_length heq
  have hne := List.mem_takeWhile_imp (hall.symm ▸ h)
  simp at hne

theorem length_kernelCopy (bytes : List UInt8) :
    (kernelCopy bytes).length = bytes.length + 1 := by
  have hle := (List.takeWhile_prefix (· ≠ (0 : UInt8)) (l := bytes)).length_le
  rw [kernelCopy, List.length_rightpad]
  omega

theorem length_writtenBytes (bytes : List UInt8) :
    (writtenBytes bytes).length = if 0 ∈ bytes then bytes.length - 1 else bytes.length := by
  rw [writtenBytes, List.length_take, length_kernelCopy]
  split <;> omega

theorem writtenBytes_of_notMem (h : 0 ∉ bytes) : writtenBytes bytes = bytes := by
  rw [writtenBytes, if_neg h, kernelCopy, takeWhile_ne_zero h, List.rightpad,
    List.take_left]

theorem last_kernelCopy (hpos : 1 ≤ bytes.length) :
    (kernelCopy bytes).getD (bytes.length - 1) 0 = 0 ↔ 0 ∈ bytes := by
  rw [kernelCopy, List.rightpad, List.getD_eq_getElem?_getD]
  constructor
  · intro hlast
    by_contra hmem
    rw [takeWhile_ne_zero hmem, List.getElem?_append_left (by omega),
      List.getElem?_eq_getElem (by omega)] at hlast
    exact hmem (hlast ▸ List.getElem_mem _)
  · intro hmem
    have hlt := length_takeWhile_lt hmem
    rw [List.getElem?_append_right (by omega), List.getElem?_replicate, if_pos (by omega)]
    rfl

/-- Bytes go back where they have come from, if the program may write there. -/
theorem ends_system2User_back {virtAddr : Word} {buffer : List UInt8} {len : ℤ} {n : ℕ}
    (hlen : len = n) (hlength : n ≤ buffer.length) :
    Ends (system2User virtAddr len buffer) k (fun _ k' => k.Accessed k')
      fun _ _ => ¬ k.machine.HasBuffer virtAddr n := by
  by_cases hbuffer : k.machine.HasBuffer virtAddr n
  · exact (ends_system2User_buffer hlen hbuffer hlength).mono (fun _ _ h => h.1)
      fun _ _ h => h.elim
  · refine (ends_system2User virtAddr (.inl ?_)).mono (fun _ _ h => h) fun _ _ _ => hbuffer
    omega

theorem length_writtenBytes_le (bytes : List UInt8) :
    (writtenBytes bytes).length ≤ bytes.length := by
  rw [length_writtenBytes]
  split <;> omega

theorem take_kernelCopy (bytes : List UInt8) :
    (kernelCopy bytes).take (writtenBytes bytes).length = writtenBytes bytes := by
  rw [length_writtenBytes]
  rfl

theorem Working.hasWritten {v : HostFiles} {written : List UInt8} {p : ℕ}
    (h : Working view k id f i p v k') {k'' : Kernel W} (ha : k'.Accessed k'')
    (hp : p = k.offset view f + written.length)
    (hv : v = afterWrite (view k.host) f.file i written) :
    HasWritten view k id f i written ⟨k''.machine.finished
      (if written = [] then -1 else BitVec.ofNat 32 (written.length + 1)), k''.fileSystem,
      k''.host⟩ where
  machine := ⟨k''.machine, h.confined.trans ha.confined, rfl⟩
  files := by rw [ha.host, h.files, hv]
  table := by rw [ha.fileSystem, h.table, hp]

theorem ends_scWrite_regular (hr : host.Regular view) (h : k.WriteCall id bytes)
    (hw : k.WritableOn view id f i) :
    Ends (scWrite host) k (fun _ => HasWritten view k id f i (writtenBytes bytes))
      fun _ _ => ¬ k.machine.HasBuffer (k.machine.registers 4) bytes.length ∨
        2 ^ 31 ≤ k.offset view f + (writtenBytes bytes).length := by
  have hrange := FileSystem.range_of_entry hw.openOn.entry
  have htwo := hw.two_le
  have hpos := h.length_pos
  have hlen := Shows.length_le h.mapped h.shows
  have hmemory : MemorySize < 2 ^ 20 := by decide
  have hle := length_writtenBytes_le bytes
  have hroom := length_kernelCopy bytes
  obtain ⟨hoffset, -⟩ : k.offset view f < 2 ^ 31 ∧ _ :=
    hr.small k.host f.file i hw.openOn.isOpen
  have hlength := h.length
  simp only [scWrite, ends_bind, ends_readRegister, ends_argument, h.index, ends_ite, ends_openf,
    hrange, and_self, if_true, hw.openOn.entry, reduceCtorEq, if_false, ends_deref,
    Option.elim_some, hw.normal, hw.writable, ne_eq, not_true_eq_false, and_false,
    show ¬ (id > 19 ∨ id < 0) by omega, show ¬ id = 1 by omega, show ¬ id = 0 by omega]
  generalize (k.machine.registers 5).toInt = size at hlength
  refine (ends_user2System_shown host hlength h.mapped h.shows (.inl le_rfl) (by omega)).mono ?_
    fun _ _ h => h.elim
  rintro buffer k₁ ⟨hbuffer, hlooked⟩
  rw [List.take_length, ← kernelCopy] at hbuffer
  subst hbuffer
  refine (((Working.start hw.openOn).looked hlooked).getCurrentPos hr).mono ?_ fun _ _ h => h.elim
  rintro _ k₂ ⟨rfl, hk₂⟩
  rw [show (view k.host).offset f.file = k.offset view f from rfl] at hk₂ ⊢
  have hin : (0 : ℤ) ≤ size - 1 ∧ size - 1 < (kernelCopy bytes).length := by omega
  have hnat : (size - 1).toNat = bytes.length - 1 := by omega
  have hcount : (if 0 ∈ bytes then size - 1 else size) = (writtenBytes bytes).length := by
    rw [length_writtenBytes]
    split <;> omega
  simp only [ends_peek, hin, and_self, if_true, hnat, last_kernelCopy hpos, hcount]
  by_cases hnone : writtenBytes bytes = []
  · have hzero : (writtenBytes bytes).length = 0 := List.length_eq_zero_iff.mpr hnone
    simp only [hzero, Nat.cast_zero, le_refl, if_true, ends_finish]
    have hend : k.offset view f = k.offset view f + (writtenBytes bytes).length := by
      rw [hzero, Nat.add_zero]
    have hwritten := hk₂.hasWritten (.refl k₂) hend (by rw [afterWrite, if_pos hnone])
    rwa [if_pos hnone] at hwritten
  have hsome : (writtenBytes bytes).length ≠ 0 := fun h => hnone (List.length_eq_zero_iff.mp h)
  rw [if_neg (by omega)]
  by_cases hfar : 2 ^ 31 ≤ k.offset view f + (writtenBytes bytes).length
  · exact (ends_write_tooFar hr hk₂.openOn rfl hoffset (by omega) hfar (by omega)).mono
      (fun _ _ h => h.elim) fun _ _ _ => .inr hfar
  refine (hk₂.write hr hsome (by omega) (by omega)).mono ?_ fun _ _ h => h.elim
  rintro _ k₃ ⟨rfl, hk₃⟩
  have hmoved : (view k.host).moved f.file (k.offset view f) = view k.host :=
    HostFiles.moved_self
  have hend : ((view k.host).written f.file i (writtenBytes bytes)).offset f.file =
      k.offset view f + (writtenBytes bytes).length := Function.update_self ..
  have hne : BitVec.ofNat 32 (writtenBytes bytes).length ≠ 0 := fun heq =>
    hsome ((ofNat_inj_small (by omega) (by omega)).mp heq)
  rw [take_kernelCopy, hmoved] at hk₃
  rw [if_pos hne]
  refine (hk₃.getCurrentPos hr).mono ?_ fun _ _ h => h.elim
  rintro _ k₄ ⟨rfl, hk₄⟩
  rw [hend] at hk₄ ⊢
  rw [ofNat_add_sub, toInt_ofNat_small (by omega)]
  refine (ends_system2User_back rfl (by omega)).mono ?_ fun _ _ hback => .inl fun hbuffer =>
    hback ((hk₄.hasBuffer hbuffer).mono hle)
  rintro _ k₅ haccessed₅
  rw [ends_finish]
  have hwritten := hk₄.hasWritten haccessed₅ rfl (by rw [afterWrite, if_neg hnone])
  rw [if_neg hnone, BitVec.ofNat_add] at hwritten
  exact hwritten

/-- The loop for the console stops at the latest with one byte left. -/
theorem ends_putChars_le {len : ℤ} {buffer : List UInt8} (room : ℕ) {size : ℤ}
    (hsize : size ≤ len - 1) : Ends (putChars host len buffer room size) k
      (fun r _ => size ≤ r ∧ r ≤ len - 1) fun _ _ => True := by
  induction room generalizing size k with
  | zero => trivial
  | succ room ih =>
    simp only [putChars, ends_ite, ends_pure, ends_bind, ends_peek, ends_ask]
    split
    · exact ⟨le_rfl, hsize⟩
    split
    · split
      · exact ⟨le_rfl, hsize⟩
      · exact (ih (by omega)).mono (fun _ _ h => ⟨by omega, h.2⟩) fun _ _ h => h
    · trivial

theorem ends_scWrite_console (h : k.WriteCall 1 bytes) (hf : k.fileSystem.entry 1 = some f)
    (hp : f.permission ≠ 1) :
    Ends (scWrite host) k (fun _ k' => ∃ r < bytes.length,
      k'.machine.registers 2 = BitVec.ofNat 32 r) fun _ _ => True := by
  have hpos := h.length_pos
  have hlen := Shows.length_le h.mapped h.shows
  have hmemory : MemorySize < 2 ^ 20 := by decide
  simp only [scWrite, ends_bind, ends_readRegister, ends_argument, h.index, ends_ite, ends_openf,
    hf, reduceCtorEq, if_false, ends_deref, Option.elim_some, hp, ne_eq, not_true_eq_false,
    false_and, if_true, show (0 : ℤ) ≤ 1 ∧ (1 : ℤ) < 20 by omega, and_self,
    show ¬ ((1 : ℤ) > 19 ∨ (1 : ℤ) < 0) by omega, show ¬ (1 : ℤ) = 0 by omega]
  have hlength := h.length
  generalize (k.machine.registers 5).toInt = size at hlength
  refine (ends_user2System_shown host hlength h.mapped h.shows (.inl le_rfl) (by omega)).mono ?_
    fun _ _ _ => trivial
  rintro buffer k₁ -
  rw [putString, ends_bind]
  refine (ends_putChars_le _ (show (0 : ℤ) ≤ size - 1 by omega)).mono ?_ fun _ _ h => h
  rintro r k₂ ⟨h0, hr⟩
  rw [ends_finish]
  refine ⟨r.toNat, by omega, ?_⟩
  rw [finished_two, ← BitVec.ofInt_natCast, Int.toNat_of_nonneg h0]

/-- `Write` has returned the number of bytes, and they are in the file at its offset. -/
structure WritesFile (view : W → HostFiles) (k : Kernel W) (f : OpenFile) (i : ℕ)
    (bytes : List UInt8) (k' : Kernel W) : Prop where
  result : k'.machine.registers 2 = BitVec.ofNat 32 bytes.length
  content : (view k'.host).content i =
    overwrite ((view k.host).content i) (k.offset view f) bytes
  offset : k'.offset view f = k.offset view f + bytes.length

/-- `Write` has returned the number of bytes, and they have come out of the console. -/
structure WritesConsole (host : Host W) (k : Kernel W) (bytes : List UInt8) (k' : Kernel W) :
    Prop where
  result : k'.machine.registers 2 = BitVec.ofNat 32 bytes.length
  output : k'.host = bytes.foldl host.putChar k.host

theorem HasWritten.offset {written : List UInt8} (h : HasWritten view k id f i written k') :
    k'.offset view f = k.offset view f + written.length := by
  rw [Kernel.offset, h.files, afterWrite]
  split
  · next hnone =>
    rw [hnone]
    rfl
  · exact Function.update_self ..

/-- Either the result is wrong or the last byte is missing. -/
theorem HasWritten.not_writesFile (hpos : 1 ≤ bytes.length) (hlen : bytes.length < 2 ^ 30)
    (h : HasWritten view k id f i (writtenBytes bytes) k') : ¬ WritesFile view k f i bytes k' := by
  intro hwrites
  have hoffset := h.offset.symm.trans hwrites.offset
  have hcount : (writtenBytes bytes).length = bytes.length := by omega
  obtain ⟨m, -, hm⟩ := h.machine
  have hne : writtenBytes bytes ≠ [] := List.ne_nil_of_length_pos (by omega)
  have hresult := hwrites.result
  rw [hm, finished_two, if_neg hne, hcount, ofNat_inj_small (by omega) (by omega)] at hresult
  omega

theorem not_writesFile (hr : host.Regular view) (h : k.WriteCall id bytes)
    (hw : k.WritableOn view id f i) :
    ¬ Ends (scWrite host) k (fun _ => WritesFile view k f i bytes) fun _ _ => False := by
  have hlen := Shows.length_le h.mapped h.shows
  have hmemory : MemorySize < 2 ^ 20 := by decide
  exact (ends_scWrite_regular hr h hw).refutes fun _ _ hwritten =>
    hwritten.not_writesFile h.length_pos (by omega)

theorem not_writesConsole (h : k.WriteCall 1 bytes) (hf : k.fileSystem.entry 1 = some f)
    (hp : f.permission ≠ 1) :
    ¬ Ends (scWrite host) k (fun _ => WritesConsole host k bytes) fun _ _ => False := by
  have hlen := Shows.length_le h.mapped h.shows
  have hmemory : MemorySize < 2 ^ 20 := by decide
  refine (ends_scWrite_console h hf hp).refutes ?_
  rintro _ k' ⟨r, hlt, hr⟩ hwrites
  rw [hwrites.result, ofNat_inj_small (by omega) (by omega)] at hr
  omega

/-- For no call does `Write` return the length of the buffer and deliver its bytes, neither to a
file nor to the console. -/
theorem write_never_delivers (hr : host.Regular view) (h : k.WriteCall id bytes) :
    (∀ f i, k.WritableOn view id f i →
      ¬ Ends (scWrite host) k (fun _ => WritesFile view k f i bytes) fun _ _ => False) ∧
    (∀ f, id = 1 → k.fileSystem.entry 1 = some f → f.permission ≠ 1 →
      ¬ Ends (scWrite host) k (fun _ => WritesConsole host k bytes) fun _ _ => False) := by
  constructor
  · intro f i hw
    exact not_writesFile hr h hw
  · rintro f rfl hf hp
    exact not_writesConsole h hf hp

/-- The byte `a` for index `id`, which is a file that is empty. -/
def writeKernel (id : Word) : Kernel FileWorld where
  machine :=
    { registers := fun r => if r = 5 then 1 else if r = 6 then id else 0
      mainMemory := fun _ => 97
      pageTable := some 0
      pageTableSize := 1
      tables := fun _ => AddrSpace.tableOf 0 [0] }
  fileSystem := (FileSystem.blank.setEntry 1 (some (OpenFile.new 6 3 0))).setEntry 2
    (some (OpenFile.new 7 0 0))
  host :=
    { files := ⟨fun fd => if fd = 7 then some 0 else none, fun _ => [], fun _ => 0⟩
      small := fun _ _ _ => ⟨show 0 < 2 ^ 31 by decide, show 0 < 2 ^ 31 by decide⟩ }

theorem writeCall_writeKernel (id : Word) : (writeKernel id).WriteCall id.toInt [97] where
  index := rfl
  length := rfl
  length_pos := le_rfl
  mapped := ⟨_, Descriptors.mapped_onePage rfl rfl⟩
  shows := by
    show ∀ i < 1, (writeKernel 0).machine.virtualByte (0 + BitVec.ofNat 32 i) = [97][i]?
    decide

theorem writableOn_writeKernel :
    (writeKernel 2).WritableOn FileWorld.files 2 (OpenFile.new 7 0 0) 0 where
  openOn := ⟨rfl, rfl⟩
  two_le := le_rfl
  normal := rfl
  writable := by decide

/-- The byte is written, and 2 is returned. -/
theorem one_byte_counts_two : (writeKernel 2).WriteCall 2 [97] ∧
    (writeKernel 2).WritableOn FileWorld.files 2 (OpenFile.new 7 0 0) 0 ∧
    ¬ Ends (scWrite FileWorld.host) (writeKernel 2)
      (fun _ => WritesFile FileWorld.files (writeKernel 2) (OpenFile.new 7 0 0) 0 [97])
      (fun _ _ => False) :=
  ⟨writeCall_writeKernel 2, writableOn_writeKernel,
    not_writesFile FileWorld.regular (writeCall_writeKernel 2) writableOn_writeKernel⟩

theorem write_never_delivers_here :
    ¬ Ends (scWrite FileWorld.host) (writeKernel 2)
      (fun _ => WritesFile FileWorld.files (writeKernel 2) (OpenFile.new 7 0 0) 0 [97])
      (fun _ _ => False) ∧
    ¬ Ends (scWrite FileWorld.host) (writeKernel 1)
      (fun _ => WritesConsole FileWorld.host (writeKernel 1) [97]) (fun _ _ => False) :=
  ⟨(write_never_delivers FileWorld.regular (writeCall_writeKernel 2)).1 _ _ writableOn_writeKernel,
    (write_never_delivers FileWorld.regular (writeCall_writeKernel 1)).2 _ rfl rfl (by decide)⟩

end Sys
end Nachos

import Nachos.Userprog.CallHistory
import Nachos.Userprog.RegularFiles

/-! `Read` on a regular file. It asks for one byte less than the buffer holds, and `System2User`
stops at the first zero. -/
namespace Nachos

variable {W : Type}

/-- A call of `Read` for a regular file, with a buffer of at least one byte. -/
structure Kernel.ReadCall (view : W → HostFiles) (k : Kernel W) (id : ℤ) (f : OpenFile)
    (i len : ℕ) : Prop where
  openOn : k.OpenOn view id f i
  two_le : 2 ≤ id
  index : (k.machine.registers 6).toInt = id
  length : (k.machine.registers 5).toInt = len
  length_pos : 1 ≤ len
  buffer : k.machine.HasBuffer (k.machine.registers 4) len

namespace Sys

open EStateM Machine

variable {host : Host W} {view : W → HostFiles} {k k' : Kernel W} {id : ℤ} {f : OpenFile}
  {i len r : ℕ}

/-- What `Read` answers after it has transferred `r` bytes from offset `p`. -/
def readResult (content : List UInt8) (p r : ℕ) : Word :=
  if p = content.length then 0 else if r = 0 then -1 else BitVec.ofNat 32 r

/-- What a call of `Read` leaves that has transferred `r` bytes. -/
structure HasRead (view : W → HostFiles) (k : Kernel W) (id : ℤ) (f : OpenFile) (i r : ℕ)
    (k' : Kernel W) : Prop where
  machine : ∃ buffer m,
    (∀ j < r, buffer[j]? = ((view k.host).content i)[k.offset view f + j]?) ∧
    CopiedOut (k.machine.registers 4) buffer 0 r k.machine m ∧ k.machine.Confined m ∧
    k'.machine = m.finished (readResult ((view k.host).content i) (k.offset view f) r)
  files : view k'.host = (view k.host).moved f.file (k.offset view f + r)
  table : k'.fileSystem = k.fileSystem.setEntry id (some (f.movedTo (k.offset view f + r)))

/-- How many bytes a call of `Read` transfers. -/
def readCount (view : W → HostFiles) (k : Kernel W) (f : OpenFile) (i len : ℕ) : ℕ :=
  min (len - 1) (((view k.host).content i).length - k.offset view f)

theorem Working.hasRead_nothing
    (h : Working view k id f i (k.offset view f)
      ((view k.host).moved f.file (k.offset view f)) k') :
    HasRead view k id f i 0 ⟨k'.machine.finished
      (readResult ((view k.host).content i) (k.offset view f) 0), k'.fileSystem, k'.host⟩ where
  machine := by
    refine ⟨[], k'.machine, fun j hj => absurd hj (Nat.not_lt_zero j), ⟨?_, fun a _ => h.same a⟩,
      h.confined, rfl⟩
    rintro j ⟨-, hj, -⟩
    exact absurd hj (by omega)
  files := h.files
  table := h.table

theorem Working.hasRead {k'' : Kernel W} {buffer : List UInt8}
    (h : Working view k id f i (k.offset view f + r)
      ((view k.host).moved f.file (k.offset view f + r)) k')
    (ha : k'.Accessed k'')
    (hbuffer : ∀ j < r, buffer[j]? = ((view k.host).content i)[k.offset view f + j]?)
    (hcopied : CopiedOut (k.machine.registers 4) buffer 0 r k'.machine k''.machine) :
    HasRead view k id f i r ⟨k''.machine.finished
      (readResult ((view k.host).content i) (k.offset view f) r), k''.fileSystem, k''.host⟩ where
  machine := ⟨buffer, k''.machine, hbuffer,
    ⟨hcopied.copied, fun a ha => (hcopied.others a ha).trans (h.same a)⟩,
    h.confined.trans ha.confined, rfl⟩
  files := by rw [ha.host, h.files]
  table := by rw [ha.fileSystem, h.table]

theorem ends_scRead_regular (hr : host.Regular view) (h : k.ReadCall view id f i len) :
    Ends (scRead host) k (fun _ => HasRead view k id f i (readCount view k f i len))
      fun _ _ => False := by
  have hrange := FileSystem.range_of_entry h.openOn.entry
  have htwo := h.two_le
  have hpos := h.length_pos
  have hlen := h.buffer.length_le
  have hmemory : MemorySize < 2 ^ 20 := by decide
  have hmax : 2 ^ 20 < MaxTransfer := by decide
  obtain ⟨hoffset, hcontent⟩ : k.offset view f < 2 ^ 31 ∧ _ :=
    hr.small k.host f.file i h.openOn.isOpen
  obtain ⟨bytes, hbytes, hshows⟩ := h.buffer.shows
  have hlength := h.length
  simp only [scRead, ends_bind, ends_readRegister, ends_argument, h.index, ends_ite, ends_openf,
    hrange, and_self, if_true, h.openOn.entry, reduceCtorEq, if_false,
    show ¬ (id > 19 ∨ id < 0) by omega, show ¬ id = 1 by omega, show ¬ id = 0 by omega]
  generalize (k.machine.registers 5).toInt = size at hlength
  refine ((Working.start h.openOn).getCurrentPos hr).mono ?_ fun _ _ h => h
  rintro _ k₁ ⟨rfl, hk₁⟩
  refine (ends_user2System_shown host hlength (hk₁.hasBuffer h.buffer).mapped (hk₁.shows hshows)
    (.inl hbytes.ge) (by omega)).mono ?_ fun _ _ h => h
  rintro buffer k₂ ⟨hbuffer, hlooked⟩
  refine ((hk₁.looked hlooked).length hr).mono ?_ fun _ _ h => h
  rintro _ k₃ ⟨rfl, hk₃⟩
  rw [show (view k.host).offset f.file = k.offset view f from rfl] at hk₃ ⊢
  have hend : BitVec.ofNat 32 (k.offset view f) =
      BitVec.ofNat 32 ((view k.host).content i).length ∧ size > 0 ↔
        k.offset view f = ((view k.host).content i).length := by
    rw [ofNat_inj_small hoffset hcontent]
    exact and_iff_left (by omega)
  by_cases hp : k.offset view f = ((view k.host).content i).length
  · have hnone : readCount view k f i len = 0 := by
      unfold readCount
      omega
    rw [← hp] at hk₃
    rw [if_pos (hend.mpr hp), ends_finish, hnone]
    have hread := hk₃.hasRead_nothing
    rwa [readResult, if_pos hp] at hread
  · rw [if_neg (fun h => hp (hend.mp h))]
    have hsize : size - 1 = ((len - 1 : ℕ) : ℤ) := by omega
    have hroom : buffer.length = len + 1 := by
      rw [hbuffer, List.length_rightpad]
      have htake := (List.takeWhile_prefix (· ≠ 0) (l := bytes.take len)).length_le
      rw [List.length_take] at htake
      omega
    have hread : ((((view k.host).content i).drop (k.offset view f)).take (len - 1)).length =
        readCount view k f i len := by
      rw [List.length_take, List.length_drop, readCount]
    have hle : readCount view k f i len ≤ len - 1 := Nat.min_le_left ..
    rw [hsize]
    refine (hk₃.read hr hoffset (by omega) (by omega)).mono ?_ fun _ _ h => h
    rintro r k₄ ⟨rfl, hk₄⟩
    rw [HostFiles.moved_content, hread, HostFiles.moved_moved] at hk₄
    rw [HostFiles.moved_content, hread, toInt_ofNat_small (by omega)]
    generalize hcount : readCount view k f i len = r at *
    dsimp only
    split
    · next hpositive =>
      have hin : (0 : ℤ) ≤ (len - 1 : ℕ) ∧ ((len - 1 : ℕ) : ℤ) <
          ((((view k.host).content i).drop (k.offset view f)).take (len - 1) ++
            buffer.drop r).length := by
        rw [List.length_append, hread, List.length_drop, hroom]
        omega
      simp only [ends_poke, hin, and_self, if_true, Int.toNat_natCast]
      refine (hk₄.getCurrentPos hr).mono ?_ fun _ _ h => h
      rintro _ k₅ ⟨rfl, hk₅⟩
      rw [HostFiles.moved_offset] at hk₅ ⊢
      rw [ofNat_add_sub, toInt_ofNat_small (by omega)]
      refine (ends_system2User_buffer rfl ((hk₅.hasBuffer h.buffer).mono (by omega)) ?_).mono ?_
        fun _ _ h => h
      · rw [List.length_set]
        omega
      rintro _ k₆ ⟨haccessed₆, hcopied⟩
      have hread := hk₅.hasRead haccessed₆ (fun j hj => ?_) hcopied
      · rwa [readResult, if_neg hp, if_neg (by omega)] at hread
      · rw [List.getElem?_set_ne (by omega), List.getElem?_append_left (by omega),
          List.getElem?_take_of_lt (by omega), List.getElem?_drop]
    · next hzero =>
      obtain rfl : r = 0 := by omega
      have hread := hk₄.hasRead_nothing
      rwa [readResult, if_neg hp, if_pos rfl] at hread

/-- `Read` has returned what the file holds from its offset on, as far as the buffer goes. -/
structure ReadsFile (view : W → HostFiles) (k : Kernel W) (f : OpenFile) (i len : ℕ)
    (k' : Kernel W) : Prop where
  result : k'.machine.registers 2 = BitVec.ofNat 32
    (min len (((view k.host).content i).length - k.offset view f))
  copied : ∀ j < min len (((view k.host).content i).length - k.offset view f),
    k'.machine.virtualByte (k.machine.registers 4 + BitVec.ofNat 32 j) =
      ((view k.host).content i)[k.offset view f + j]?
  outside : ∀ v, (∀ j < len, v ≠ k.machine.registers 4 + BitVec.ofNat 32 j) →
    k'.machine.virtualByte v = k.machine.virtualByte v
  content : (view k'.host).content i = (view k.host).content i
  offset : k'.offset view f = k.offset view f +
    min len (((view k.host).content i).length - k.offset view f)

/-- What is left of the file fits the buffer with a byte to spare, and behind its first zero the
buffer has the bytes of the file already. -/
structure FitsBuffer (view : W → HostFiles) (k : Kernel W) (f : OpenFile) (i len : ℕ) : Prop where
  inside : k.offset view f < ((view k.host).content i).length
  spare : ((view k.host).content i).length - k.offset view f ≤ len - 1
  shown : ∀ j < ((view k.host).content i).length - k.offset view f,
    (∀ l < j, ((view k.host).content i)[k.offset view f + l]? ≠ some 0) ∨
      k.machine.virtualByte (k.machine.registers 4 + BitVec.ofNat 32 j) =
        ((view k.host).content i)[k.offset view f + j]?

theorem HasRead.result (h : HasRead view k id f i r k') : k'.machine.registers 2 =
    readResult ((view k.host).content i) (k.offset view f) r := by
  obtain ⟨buffer, m, -, -, -, hm⟩ := h.machine
  rw [hm, finished_two]

theorem HasRead.offset (h : HasRead view k id f i r k') :
    k'.offset view f = k.offset view f + r := by
  rw [Kernel.offset, h.files, HostFiles.moved_offset]

theorem HasRead.content (h : HasRead view k id f i r k') :
    (view k'.host).content i = (view k.host).content i := by
  rw [h.files, HostFiles.moved_content]

/-- A byte up to the first zero comes from the file, and every other byte is as it was. -/
theorem HasRead.byte (h : HasRead view k id f i r k') (hbuffer : r ≤ MemorySize) {j : ℕ}
    (hj : j < r) : k'.machine.virtualByte (k.machine.registers 4 + BitVec.ofNat 32 j) =
      if ∀ l < j, ((view k.host).content i)[k.offset view f + l]? ≠ some 0
      then ((view k.host).content i)[k.offset view f + j]?
      else k.machine.virtualByte (k.machine.registers 4 + BitVec.ofNat 32 j) := by
  obtain ⟨buffer, m, hfile, hcopied, -, hm⟩ := h.machine
  have hmemory : MemorySize < 2 ^ 32 := by decide
  rw [hm, virtualByte_finished]
  split
  · next hzero =>
    rw [hcopied.copied j ⟨Nat.zero_le j, by omega, fun l _ hl => ?_⟩, hfile j hj]
    rw [hfile l (by omega)]
    exact hzero l hl
  · next hzero =>
    apply hcopied.others
    intro l hl heq
    obtain rfl := ofNat_add_inj (by omega) (by have := hl.2.1; omega) heq
    refine hzero fun l hlj => ?_
    rw [← hfile l (by omega)]
    exact hl.2.2 l (Nat.zero_le l) hlj

theorem HasRead.other (h : HasRead view k id f i r k') {v : Word}
    (hv : ∀ j < r, v ≠ k.machine.registers 4 + BitVec.ofNat 32 j) :
    k'.machine.virtualByte v = k.machine.virtualByte v := by
  obtain ⟨buffer, m, -, hcopied, -, hm⟩ := h.machine
  rw [hm, virtualByte_finished]
  refine hcopied.others v fun j hj => hv j ?_
  have hlt := hj.2.1
  omega

theorem neg_one_ne_ofNat {n : ℕ} (hn : n < 2 ^ 31) : (-1 : Word) ≠ BitVec.ofNat 32 n := by
  intro heq
  have hint := congrArg BitVec.toInt heq
  rw [toInt_ofNat_small hn] at hint
  change -1 = _ at hint
  omega

theorem HasRead.readsFile_iff (h : k.ReadCall view id f i len)
    (hk' : HasRead view k id f i (readCount view k f i len) k') :
    ReadsFile view k f i len k' ↔
      k.offset view f = ((view k.host).content i).length ∨ FitsBuffer view k f i len := by
  have hpos := h.length_pos
  have hlen := h.buffer.length_le
  have hmemory : MemorySize < 2 ^ 20 := by decide
  have hresult := hk'.result
  have hcount : readCount view k f i len =
    min (len - 1) (((view k.host).content i).length - k.offset view f) := rfl
  unfold readResult at hresult
  constructor
  · intro hreads
    have hn := hreads.result
    rw [hresult] at hn
    split at hn
    · next hp => exact .inl hp
    right
    split at hn
    · exact absurd hn (neg_one_ne_ofNat (by omega))
    rw [ofNat_inj_small (by omega) (by omega)] at hn
    refine ⟨by omega, by omega, fun j hj => ?_⟩
    have hbyte := hk'.byte (j := j) (by omega) (by omega)
    rw [hreads.copied j (by omega)] at hbyte
    split at hbyte
    · next hzero => exact .inl hzero
    · exact .inr hbyte.symm
  · rintro (hp | hfits)
    · have hnone : readCount view k f i len = 0 := by omega
      have hleft : min len (((view k.host).content i).length - k.offset view f) = 0 := by omega
      rw [if_pos hp] at hresult
      refine ⟨?_, ?_, fun v hv => hk'.other fun j hj => hv j (by omega), hk'.content, ?_⟩
      · rw [hresult, hleft]
        rfl
      · intro j hj
        omega
      · rw [hk'.offset, hnone, hleft]
    · have hinside := hfits.inside
      have hspare := hfits.spare
      have hall : readCount view k f i len =
          min len (((view k.host).content i).length - k.offset view f) := by omega
      rw [if_neg (by omega), if_neg (by omega)] at hresult
      refine ⟨?_, ?_, fun v hv => hk'.other fun j hj => hv j (by omega), hk'.content, ?_⟩
      · rw [hresult, hall]
      · intro j hj
        rw [hk'.byte (by omega) (by omega)]
        split
        · rfl
        · next hzero => exact (hfits.shown j (by omega)).resolve_left hzero
      · rw [hk'.offset, hall]

/-- A call of `Read` on a regular file returns what the file holds exactly at the end of the file,
or when all that is left of it fits the buffer and gets past `System2User`. -/
theorem read_returns_iff (hr : host.Regular view) (h : k.ReadCall view id f i len) :
    Ends (scRead host) k (fun _ => ReadsFile view k f i len) (fun _ _ => False) ↔
      k.offset view f = ((view k.host).content i).length ∨ FitsBuffer view k f i len :=
  (ends_scRead_regular hr h).iff fun _ _ hk' => hk'.readsFile_iff h

/-- A file with the bytes `ab`, open at index 2, and a buffer of `len` bytes for it. -/
def readKernel (len : ℕ) : Kernel FileWorld where
  machine :=
    { registers := fun r => if r = 5 then BitVec.ofNat 32 len else if r = 6 then 2 else 0
      mainMemory := fun _ => 0
      pageTable := some 0
      pageTableSize := 1
      tables := fun _ => AddrSpace.tableOf 0 [0] }
  fileSystem := FileSystem.blank.setEntry 2 (some (OpenFile.new 7 0 1))
  host :=
    { files := ⟨fun fd => if fd = 7 then some 0 else none, fun _ => [97, 98], fun _ => 0⟩
      small := fun _ _ _ => ⟨show 0 < 2 ^ 31 by decide, show 2 < 2 ^ 31 by decide⟩ }

theorem readCall_readKernel {len : ℕ} (hpos : 1 ≤ len) (hlen : len ≤ PageSize) :
    (readKernel len).ReadCall FileWorld.files 2 (OpenFile.new 7 0 1) 0 len where
  openOn := ⟨rfl, rfl⟩
  two_le := le_rfl
  index := rfl
  length := toInt_ofNat_small (hlen.trans_lt (by decide))
  length_pos := hpos
  buffer := Descriptors.hasBuffer_onePage rfl rfl ((Nat.zero_add len).trans_le hlen)

theorem read_returns_whole : Ends (scRead FileWorld.host) (readKernel 3)
    (fun _ => ReadsFile FileWorld.files (readKernel 3) (OpenFile.new 7 0 1) 0 3)
    (fun _ _ => False) := by
  have hcall := readCall_readKernel (show 1 ≤ 3 by decide) (show 3 ≤ PageSize by decide)
  rw [read_returns_iff FileWorld.regular hcall]
  right
  refine ⟨by decide, by decide, fun j _ => .inl fun l _ => ?_⟩
  show ([97, 98] : List UInt8)[0 + l]? ≠ some 0
  intro hzero
  have hmem := List.mem_of_getElem? hzero
  revert hmem
  decide

/-- A file that fills the buffer is cut short. -/
theorem not_readsFile_of_full (hr : host.Regular view) (h : k.ReadCall view id f i len)
    (hfull : k.offset view f + len ≤ ((view k.host).content i).length) :
    ¬ Ends (scRead host) k (fun _ => ReadsFile view k f i len) (fun _ _ => False) := by
  rw [(ends_scRead_regular hr h).iff fun _ _ hk' => hk'.readsFile_iff h]
  have hpos := h.length_pos
  rintro (hend | hfits)
  · omega
  · have hspare := hfits.spare
    omega

/-- With room for both bytes of the file, `Read` returns one of them only. -/
theorem read_returns_one : (readKernel 2).ReadCall FileWorld.files 2 (OpenFile.new 7 0 1) 0 2 ∧
    ¬ Ends (scRead FileWorld.host) (readKernel 2)
      (fun _ => ReadsFile FileWorld.files (readKernel 2) (OpenFile.new 7 0 1) 0 2)
      (fun _ _ => False) := by
  have hcall := readCall_readKernel (show 1 ≤ 2 by decide) (show 2 ≤ PageSize by decide)
  exact ⟨hcall, not_readsFile_of_full FileWorld.regular hcall (by decide)⟩

end Sys
end Nachos

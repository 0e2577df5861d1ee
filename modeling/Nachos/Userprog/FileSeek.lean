import Nachos.Userprog.FileRead
import Nachos.Userprog.FileWrite

/-! `Seek` on a regular file. The length of the file is found with the offset of the descriptor,
and a `Seek` that fails does not put it back. -/
namespace Nachos

variable {W : Type}

/-- A call of `Seek` for a regular file. -/
structure Kernel.SeekCall (view : W → HostFiles) (k : Kernel W) (id : ℤ) (f : OpenFile) (i : ℕ)
    (pos : Word) : Prop where
  openOn : k.OpenOn view id f i
  two_le : 2 ≤ id
  index : (k.machine.registers 5).toInt = id
  pos_eq : k.machine.registers 4 = pos

namespace Sys

open EStateM Machine

/-- Where `Read` and `Write` start: both ask for the offset first, and `HasRead` and `HasWritten`
say that they go on from there. -/
def StartsAt {W : Type} (host : Host W) (k : Kernel W) (id : ℤ) (q : Word) : Prop :=
  Ends (onFile id (OpenFile.getCurrentPos host)) k (fun pos _ => pos = q) fun _ _ => False

/-- A position that is in the file, with -1 for its end. -/
def InFile (length : ℕ) (pos : Word) : Prop := pos = -1 ∨ 0 ≤ pos.toInt ∧ pos.toInt ≤ length

instance (length : ℕ) (pos : Word) : Decidable (InFile length pos) :=
  inferInstanceAs (Decidable (_ ∨ _))

/-- The offset a position stands for. -/
def target (length : ℕ) (pos : Word) : Word := if pos = -1 then BitVec.ofNat 32 length else pos

/-- A call of `Seek` has either set the position or failed and left it alone. -/
def SeekDone (host : Host W) (k : Kernel W) (id : ℤ) (length : ℕ) (pos : Word) (k' : Kernel W) :
    Prop :=
  if InFile length pos then
    k'.machine.registers 2 = target length pos ∧ StartsAt host k' id (target length pos)
  else k'.machine.registers 2 = -1 ∧ ∀ q, StartsAt host k' id q ↔ StartsAt host k id q

variable {host : Host W} {view : W → HostFiles} {k k' : Kernel W} {id : ℤ} {f f' : OpenFile}
  {i length : ℕ} {pos q : Word} {v : HostFiles}

theorem startsAt_iff (hr : host.Regular view) (hk : k.OpenOn view id f i) :
    StartsAt host k id q ↔ q = BitVec.ofNat 32 (k.offset view f) := by
  refine (ends_getCurrentPos_regular hr hk).iff ?_
  rintro _ _ ⟨rfl, -⟩
  exact eq_comm

/-- What a call of `Seek` leaves that has answered `value`, with the descriptor at `offset`. -/
structure HasSought (view : W → HostFiles) (k : Kernel W) (id : ℤ) (f : OpenFile)
    (value : Word) (f' : OpenFile) (offset : ℕ) (k' : Kernel W) : Prop where
  machine : k'.machine = k.machine.finished value
  files : view k'.host = (view k.host).moved f.file offset
  table : k'.fileSystem = k.fileSystem.setEntry id (some f')

theorem inFile_iff (hlength : length < 2 ^ 31) :
    InFile length pos ↔ 0 ≤ (target length pos).toInt ∧ (target length pos).toInt ≤ length := by
  unfold InFile target
  split
  · next h =>
    rw [toInt_ofNat_small hlength]
    exact iff_of_true (.inl h) ⟨Int.natCast_nonneg _, le_rfl⟩
  · next h => exact or_iff_right h

/-- The position in the file that is meant. -/
theorem ends_target_regular (hr : host.Regular view) (hk : k.OpenOn view id f i)
    (hlength : length = ((view k.host).content i).length) :
    Ends (if pos = -1 then onFile id (OpenFile.length host) else pure pos) k (fun pos' k' =>
        pos' = target length pos ∧
          ∃ offset, k.Used view id f ((view k.host).moved f.file offset) k')
      fun _ _ => False := by
  subst hlength
  unfold target
  split
  · exact (ends_length_regular hr hk).mono (fun _ _ h => ⟨h.1, _, h.2⟩) fun _ _ h => h
  · refine ⟨rfl, k.offset view f, ?_⟩
    rw [Kernel.offset, HostFiles.moved_self]
    exact .refl hk

/-- What a call of `Seek` leaves, by the position it is given. -/
def AfterSeek (view : W → HostFiles) (k : Kernel W) (id : ℤ) (f : OpenFile) (length : ℕ)
    (pos : Word) (k' : Kernel W) : Prop :=
  if InFile length pos then HasSought view k id f (target length pos)
    (f.movedTo (target length pos).toNat) (target length pos).toNat k'
  else HasSought view k id f (-1) f length k'

theorem ends_scSeek_regular (hr : host.Regular view) (h : k.SeekCall view id f i pos)
    (hlength : length = ((view k.host).content i).length) :
    Ends (scSeek host) k (fun _ => AfterSeek view k id f length pos) fun _ _ => False := by
  have hrange := FileSystem.range_of_entry h.openOn.entry
  have htwo := h.two_le
  have hsmall : length < 2 ^ 31 := hlength ▸ (hr.small k.host f.file i h.openOn.isOpen).2
  simp only [scSeek, ends_bind, ends_readRegister, ends_argument, h.index, h.pos_eq, ends_openf,
    hrange, and_self, if_true, h.openOn.entry, reduceCtorEq, if_false,
    show ¬ (id < 0 ∨ id > 19) by omega, show ¬ (id = 0 ∨ id = 1) by omega]
  rw [ends_ite_bind]
  refine (ends_target_regular hr h.openOn hlength).mono ?_ fun _ _ h => h
  rintro _ k₁ ⟨rfl, offset, hused₁⟩
  have hk₁ := hused₁.openOn h.openOn rfl rfl
  have hcontent : ((view k₁.host).content i).length = length := by
    rw [hused₁.files, hlength]
    rfl
  refine (ends_length_regular hr hk₁).bind ?_ fun _ _ h => h
  rintro _ k₂ ⟨rfl, hused₂⟩
  have hk₂ := hused₂.openOn hk₁ rfl rfl
  rw [hcontent, hused₁.files, HostFiles.moved_moved] at hused₂
  have hmachine₂ : k₂.machine = k.machine := hused₂.machine.trans hused₁.machine
  have htable₂ : k₂.fileSystem = k.fileSystem.setEntry id (some f) := by
    rw [hused₂.fileSystem, hused₁.fileSystem, FileSystem.setEntry_setEntry]
  have hout : (target length pos).toInt > length ∨ (target length pos).toInt < 0 ↔
      ¬ InFile length pos := by
    rw [inFile_iff hsmall]
    omega
  rw [hcontent, toInt_ofNat_small hsmall, ends_ite]
  simp only [hout]
  by_cases hin : InFile length pos
  · simp only [hin, not_true_eq_false, if_false]
    refine (ends_seek_regular hr hk₂ ((inFile_iff hsmall).mp hin).1).bind ?_ fun _ _ h => h
    rintro _ k₃ hused₃
    rw [ends_finish, AfterSeek, if_pos hin]
    refine ⟨?_, ?_, ?_⟩
    · rw [hused₃.machine, hmachine₂]
    · rw [hused₃.files, hused₂.files, HostFiles.moved_moved]
    · rw [hused₃.fileSystem, htable₂, FileSystem.setEntry_setEntry]
  · simp only [hin, not_false_eq_true, if_true, ends_finish]
    rw [AfterSeek, if_neg hin]
    refine ⟨?_, ?_, ?_⟩
    · rw [hmachine₂]
    · rw [hused₂.files]
    · rw [htable₂]

theorem HasSought.startsAt_iff (hr : host.Regular view) (h : k.OpenOn view id f i) {value : Word}
    {offset : ℕ} (hk' : HasSought view k id f value f' offset k') (hf : f'.file = f.file) :
    StartsAt host k' id q ↔ q = BitVec.ofNat 32 offset := by
  have hopen : k'.OpenOn view id f' i := by
    refine ⟨?_, ?_⟩
    · rw [hk'.table]
      exact FileSystem.entry_setEntry (FileSystem.range_of_entry h.entry) _
    · rw [hk'.files, hf]
      exact h.isOpen
  rw [Sys.startsAt_iff hr hopen, Kernel.offset, hk'.files, hf, HostFiles.moved_offset]

theorem AfterSeek.seekDone_iff (hr : host.Regular view) (h : k.OpenOn view id f i)
    (hlength : length = ((view k.host).content i).length)
    (hk' : AfterSeek view k id f length pos k') :
    SeekDone host k id length pos k' ↔ InFile length pos ∨ k.offset view f = length := by
  obtain ⟨hoffset, hsmall⟩ : k.offset view f < 2 ^ 31 ∧ _ := hr.small k.host f.file i h.isOpen
  rw [← hlength] at hsmall
  unfold AfterSeek at hk'
  unfold SeekDone
  split
  · next hin =>
    rw [if_pos hin] at hk'
    refine iff_of_true ⟨?_, ?_⟩ (.inl hin)
    · rw [hk'.machine, finished_two]
    · rw [hk'.startsAt_iff hr h rfl, BitVec.ofNat_toNat, BitVec.setWidth_eq]
  · next hout =>
    rw [if_neg hout] at hk'
    have hvalue : k'.machine.registers 2 = -1 := by rw [hk'.machine, finished_two]
    rw [or_iff_right hout, and_iff_right hvalue]
    simp only [hk'.startsAt_iff hr h rfl, startsAt_iff hr h]
    constructor
    · intro hsame
      exact ((ofNat_inj_small hsmall hoffset).mp ((hsame _).mp rfl)).symm
    · rintro hsame q
      rw [hsame]

/-- A position outside the file moves a descriptor that is not at the end. -/
theorem not_seekDone (hr : host.Regular view) (h : k.SeekCall view id f i pos)
    (hlength : length = ((view k.host).content i).length) (hout : ¬ InFile length pos)
    (hne : k.offset view f ≠ length) :
    ¬ Ends (scSeek host) k (fun _ => SeekDone host k id length pos) fun _ _ => False := by
  refine (ends_scSeek_regular hr h hlength).refutes ?_
  intro _ k' hk'
  rw [AfterSeek.seekDone_iff hr h.openOn hlength hk']
  exact not_or.mpr ⟨hout, hne⟩

/-- `Seek` does what it returns exactly if the position is in the file, or the descriptor has been
at the end of the file before. -/
theorem seek_atomic_iff (hr : host.Regular view) (h : k.SeekCall view id f i pos)
    (hlength : length = ((view k.host).content i).length) :
    Ends (scSeek host) k (fun _ => SeekDone host k id length pos) (fun _ _ => False) ↔
      InFile length pos ∨ k.offset view f = length :=
  (ends_scSeek_regular hr h hlength).iff fun _ _ => AfterSeek.seekDone_iff hr h.openOn hlength

/-- A call of `Seek` on the file `ab`, which is at position 0. -/
def seekKernel (pos : Word) : Kernel FileWorld :=
  { readKernel 0 with
    machine := { (readKernel 0).machine with
      registers := fun r => if r = 4 then pos else if r = 5 then 2 else 0 } }

theorem seekCall_seekKernel (pos : Word) :
    (seekKernel pos).SeekCall FileWorld.files 2 (OpenFile.new 7 0 1) 0 pos where
  openOn := ⟨rfl, rfl⟩
  two_le := le_rfl
  index := rfl
  pos_eq := rfl

theorem seek_atomic_inside : Ends (scSeek FileWorld.host) (seekKernel 1)
    (fun _ => SeekDone FileWorld.host (seekKernel 1) 2 2 1) (fun _ _ => False) := by
  rw [seek_atomic_iff FileWorld.regular (seekCall_seekKernel 1) (show 2 = _ from rfl)]
  exact .inl (.inr ⟨by decide, by decide⟩)

/-- After a `Seek` to 5 has failed, the descriptor is at 2, the end of the file. -/
theorem seek_outside_moves :
    (seekKernel 5).SeekCall FileWorld.files 2 (OpenFile.new 7 0 1) 0 5 ∧ ¬ InFile 2 5 ∧
    ¬ Ends (scSeek FileWorld.host) (seekKernel 5)
      (fun _ => SeekDone FileWorld.host (seekKernel 5) 2 2 5) (fun _ _ => False) :=
  ⟨seekCall_seekKernel 5, by decide,
    not_seekDone FileWorld.regular (seekCall_seekKernel 5) rfl (by decide) (by decide)⟩

end Sys
end Nachos

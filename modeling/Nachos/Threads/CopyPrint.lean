import Mathlib.Data.List.GetD
import Nachos.Filesys.StoreRefinement
import Nachos.Filesys.OpenFile

/-! `Copy` and `Print` of `threads/main.cc`. They move `TransferSize` bytes at a time between a file
of the disk and the host. -/
namespace Nachos.Filesys

abbrev TransferSize : ℕ := 128

variable {W : Type} (host : Host W)

/-- What `Copy` says in the end. -/
inductive CopyResult where
  | noInput
  | noOutput
  | copied
  deriving DecidableEq

/-- The loop of `Copy`, with at most `fuel` reads. `Write` is given what an array holds that has
just been allocated. -/
def copyLoop (fd : Word) : (fuel : ℕ) → W → OpenFile → (buffer : Buffer) → Drive →
    Option (W × Drive)
  | 0, _, _, _, _ => none
  | fuel + 1, w, file, buffer, d => do
    let (answer, w) := host.read w fd TransferSize
    if answer.value.toInt > 0 then
      let buffer := bcopy (fun k => answer.stored.getD k 0) buffer 0 answer.stored.length
      let (_, file, d) ← file.write d buffer (host.fresh w) answer.value.toInt
      copyLoop fd fuel w file buffer d
    else some (w, d)

/-- `Close`, which asserts that the host has closed the file. -/
def closeUnix (w : W) (fd : Word) : Option W :=
  let (retVal, w) := host.close w fd
  if 0 ≤ retVal.toInt then some w else none

/-- `Lseek(fd, 0, 2)`, `Tell(fd)` and `Lseek(fd, 0, 0)`. -/
def measureUnix (w : W) (fd : Word) : Option (Word × W) :=
  let (retVal, w) := host.lseek w fd 0 2
  if 0 ≤ retVal.toInt then
    let (fileLength, w) := host.lseek w fd 0 1
    let (retVal, w) := host.lseek w fd 0 0
    if 0 ≤ retVal.toInt then some (fileLength, w) else none
  else none

/-- There is no result where an assertion fails, and after more reads than `fuel`. -/
def copy (fuel : ℕ) (w : W) (fs : FileSystem) (fresh : Fresh) (source target : CString) :
    Option (CopyResult × W × FileSystem) :=
  let (fd, w) := host.openFd w source false
  if fd.toInt < 0 then some (.noInput, w, fs)
  else do
    let (fileLength, w) ← measureUnix host w fd
    let (created, fs) ← fs.create target fresh fileLength
    if created then
      let (_, file) ← ← fs.openFile target fresh
      let (w, disk) ← copyLoop host fd fuel w file (host.fresh w) fs.disk
      return (.copied, ← closeUnix host w fd, { fs with disk })
    else return (.noOutput, ← closeUnix host w fd, fs)

/-- The host gives the bytes of a file piece by piece, and then none. -/
inductive Delivers (fd : Word) : W → List UInt8 → Prop
  | done {w : W} (h : (host.read w fd TransferSize).1.bytes = some []) : Delivers fd w []
  | piece {w : W} {bytes rest : List UInt8} (hsome : bytes ≠ [])
      (h : (host.read w fd TransferSize).1.bytes = some bytes)
      (hrest : Delivers fd (host.read w fd TransferSize).2 rest) : Delivers fd w (bytes ++ rest)

section

variable {host} {fd : Word} {w : W} {d : Drive} {file : OpenFile} {bytes rest : List UInt8} {p : ℕ}

theorem length_piece (h : (host.read w fd TransferSize).1.bytes = some bytes) :
    bytes.length ≤ 128 ∧ (host.read w fd TransferSize).1.value.toInt = bytes.length ∧
      (host.read w fd TransferSize).1.stored = bytes := by
  have hle := (host.read w fd TransferSize).1.length_le bytes h
  have hle : bytes.length ≤ 128 := hle.trans (min_le_left _ _)
  refine ⟨hle, ?_, ?_⟩
  · rw [Transfer.value, h]
    simp only [BitVec.toInt_eq_toNat_cond, BitVec.toNat_ofNat]
    omega
  · rw [Transfer.stored, h]
    rfl

/-- The file that `Copy` writes gets what the host delivers. -/
theorem copyLoop_eq (hfits : file.hdr.Fits) (hnodup : file.hdr.sectors.Nodup) (buffer : Buffer)
    (hbytes : Delivers host fd w bytes) (hposition : file.seekPosition.toInt = p)
    (hroom : p + bytes.length ≤ file.hdr.length) {fuel : ℕ} (hfuel : bytes.length < fuel) :
    ∃ w' d', copyLoop host fd fuel w file buffer d = some (w', d') ∧
      Written file.hdr d d' (fun k => bytes.getD k 0) p bytes.length := by
  induction hbytes generalizing file buffer d p fuel with
  | @done w h =>
    obtain ⟨fuel, rfl⟩ := Nat.exists_eq_add_of_lt hfuel
    obtain ⟨-, hvalue, -⟩ := length_piece h
    refine ⟨(host.read w fd TransferSize).2, d, ?_, .refl _ _⟩
    simp only [copyLoop, hvalue, List.length_nil, Nat.cast_zero, gt_iff_lt, lt_self_iff_false,
      if_false]
  | @piece w piece rest hsome h hrest ih =>
    obtain ⟨hsmall, hvalue, hstored⟩ := length_piece h
    have hpos := List.length_pos_of_ne_nil hsome
    rw [List.length_append] at hroom hfuel
    obtain ⟨fuel, rfl⟩ : ∃ fuel', fuel = fuel' + 1 := ⟨fuel - 1, by omega⟩
    have hlength := hfits.length_le
    have hdef : file.hdr.length = file.hdr.numBytes.toInt.toNat := rfl
    have hall : file.hdr.clipped piece.length file.seekPosition.toInt = piece.length := by
      rw [hposition]
      unfold FileHeader.clipped
      omega
    obtain ⟨d₁, hwrite, hfirst⟩ := OpenFile.write_clipped (d := d) hfits hnodup
      (bcopy (fun k => piece.getD k 0) buffer 0 piece.length)
      (host.fresh (host.read w fd TransferSize).2) (show 0 ≤ file.seekPosition.toInt by omega)
      (show file.seekPosition.toInt + piece.length < 2 ^ 31 by omega)
    rw [hall, hposition, Int.toNat_natCast, Int.toNat_natCast] at hfirst
    rw [hall] at hwrite
    have hmoved : (file.moved piece.length).seekPosition.toInt = (p + piece.length : ℕ) := by
      rw [OpenFile.toInt_moved (by omega) (by omega) (by omega), hposition]
      rfl
    obtain ⟨w', d', hloop, hsecond⟩ := ih (d := d₁)
      (show (file.moved piece.length).hdr.Fits from hfits) hnodup
      (bcopy (fun k => piece.getD k 0) buffer 0 piece.length) hmoved
      (show p + piece.length + rest.length ≤ file.hdr.length by omega)
      (show rest.length < fuel by omega)
    refine ⟨w', d', ?_, ?_⟩
    · simp only [copyLoop, hvalue, hstored, if_pos (show (piece.length : ℤ) > 0 by omega), hwrite,
        Option.bind_eq_bind, Option.bind_some, hloop]
    · rw [List.length_append]
      refine (hfirst.append hsecond).congr fun k hk => ?_
      by_cases hin : k < piece.length
      · rw [if_pos hin, List.getD_append _ _ _ _ hin, bcopy, if_pos (by omega), Nat.sub_zero]
      · rw [if_neg hin, List.getD_append_right _ _ _ _ (not_lt.mp hin)]

end

/-- The names in the directory are distinct. -/
def Distinct (d : Drive) : Prop := ∃ m, Directory.Stands m (directoryOf d)

namespace DiskState

variable {s s' : DiskState} {l : DiskCall} {d' : Drive} {name : CString} {bytes : List UInt8}

theorem distinct_step (h : s.Inv) (hdistinct : Distinct s.fs.disk) (hnamed : l.WritesNamed s)
    (hstep : s.step l = some s') : Distinct s'.fs.disk := by
  obtain ⟨m, hm⟩ := hdistinct
  cases h.does hnamed hstep with
  | nothing hsame => exact ⟨m, hsame ▸ hm⟩
  | created hname hc =>
    rw [Distinct, hc.rewritten.directoryOf_eq h.ok.disk]
    refine ⟨_, hm.fill ?_ hc.unused (Directory.slot_of_findIndex hc.found) hc.other⟩
    rw [hm.mem_iff, hname]
    exact Bool.false_ne_true
  | removed hfind hr =>
    rw [Distinct, hr.rewritten.directoryOf_eq h.ok.disk]
    exact ⟨_, hm.empty (Directory.slot_of_findIndex hfind) hr.unused hr.other⟩
  | written _ hf hw =>
    obtain ⟨i, hsector, hhdr⟩ := h.linked _ (List.mem_of_getElem? hf) _ rfl
    rw [Distinct, h.ok.disk.directoryOf_written hsector (hhdr ▸ hw.outside)]
    exact ⟨m, hm⟩

end DiskState

/-- What holds of a disk after any history of calls. -/
structure DiskState.Sound (fs₀ : FileSystem) (s : DiskState) : Prop where
  inv : s.Inv
  sized : Sized fs₀.disk s.fs.disk
  distinct : Distinct s.fs.disk

namespace DiskState.Sound

variable {fs₀ : FileSystem} {s s' : DiskState} {l : DiskCall} {d' : Drive}

theorem step (h : Sound fs₀ s) (hnamed : l.WritesNamed s) (hstep : s.step l = some s') :
    Sound fs₀ s' :=
  ⟨h.inv.step hnamed hstep, sized_step h.inv h.sized hnamed hstep,
    distinct_step h.inv h.distinct hnamed hstep⟩

theorem format (h : fs₀.Formatted) : Sound fs₀ ⟨fs₀, []⟩ where
  inv := ⟨h.ok, fun f hf => by cases hf⟩
  sized := h.sized
  distinct := ⟨[], h.keeps.directory⟩

variable {W : Type} {host : Host W} {w : W} {source target : CString} {bytes : List UInt8}

theorem reach {allow : DiskState → DiskCall → Prop} (h : Sound fs₀ s)
    (hnamed : ∀ t l, allow t l → l.WritesNamed t)
    (hr : Runs.Reach DiskState.step allow s s') : Sound fs₀ s' :=
  hr.invariant h fun t l _ ht hl hstep => ht.step (hnamed t l hl) hstep

end DiskState.Sound

section

variable {W : Type} {host : Host W} {w : W} {disk : Drive} {fresh : Fresh} {fs : FileSystem}
  {s : DiskState} {source target : CString} {bytes : List UInt8}

end

namespace BlankDisk

def oneByte (w : List UInt8) (count : ℕ) : Nachos.Transfer count where
  bytes := some (w.take (min 1 (min count MaxTransfer)))
  length_le := by
    rintro stored ⟨⟩
    rw [List.length_take]
    omega

end BlankDisk

end Nachos.Filesys

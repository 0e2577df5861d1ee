import Nachos.Filesys.DiskFile

/-! Transfers to and from a file on the disk, and transfers one behind the other. -/
namespace Nachos.Filesys

/-- The bytes of a request that are in the file. -/
def FileHeader.clipped (hdr : FileHeader) (numBytes position : ℤ) : ℤ :=
  max 0 (min numBytes (hdr.numBytes.toInt - position))

variable {d d₁ d₂ : Drive} {hdr : FileHeader} {file : OpenFile} {numBytes position : ℤ}

namespace OpenFile

theorem request_clipped (file : OpenFile) (hposition : 0 ≤ position)
    (hsum : position + numBytes < 2 ^ 31) :
    file.request numBytes position = some ((file.hdr.clipped numBytes position).toNat : ℤ) := by
  rw [request_eq file hposition hsum, FileHeader.clipped, Int.toNat_of_nonneg (le_max_left _ _)]

theorem toNat_clipped (hdr : FileHeader) (numBytes position : ℤ) :
    ((hdr.clipped numBytes position).toNat : ℤ) = hdr.clipped numBytes position :=
  Int.toNat_of_nonneg (le_max_left _ _)

theorem clipped_inside (hposition : 0 ≤ position)
    (hsome : 0 < (hdr.clipped numBytes position).toNat) :
    position.toNat + (hdr.clipped numBytes position).toNat ≤ hdr.length := by
  unfold FileHeader.clipped at hsome ⊢
  unfold FileHeader.length
  omega

theorem readAt_clipped (h : file.hdr.Fits) (into : Buffer) (hposition : 0 ≤ position)
    (hsum : position + numBytes < 2 ^ 31) :
    file.readAt d into numBytes position = some (file.hdr.clipped numBytes position, fun k =>
      if k < (file.hdr.clipped numBytes position).toNat then byteAt d file.hdr (position.toNat + k)
      else into k) := by
  have hrequest := file.request_clipped hposition hsum
  have hnonneg := toNat_clipped file.hdr numBytes position
  rcases Nat.eq_zero_or_pos (file.hdr.clipped numBytes position).toNat with hzero | hsome
  · rw [hzero] at hrequest hnonneg
    rw [readAt, hrequest, ← hnonneg]
    rfl
  · rw [readAt_eq h into (Int.toNat_of_nonneg hposition).symm hsome (clipped_inside hposition hsome)
      hrequest, hnonneg]

theorem writeAt_clipped (h : file.hdr.Fits) (hnodup : file.hdr.sectors.Nodup) (source buf : Buffer)
    (hposition : 0 ≤ position) (hsum : position + numBytes < 2 ^ 31) :
    ∃ d', file.writeAt d source buf numBytes position =
        some (file.hdr.clipped numBytes position, d') ∧
      Written file.hdr d d' source position.toNat (file.hdr.clipped numBytes position).toNat := by
  have hrequest := file.request_clipped hposition hsum
  have hnonneg := toNat_clipped file.hdr numBytes position
  rcases Nat.eq_zero_or_pos (file.hdr.clipped numBytes position).toNat with hzero | hsome
  · rw [hzero] at hrequest hnonneg ⊢
    refine ⟨d, ?_, fun _ _ => rfl, fun k _ => ?_⟩
    · rw [writeAt, hrequest, ← hnonneg]
      rfl
    · rw [if_neg (by omega)]
  · obtain ⟨d', hd', hwritten⟩ := writeAt_eq (d := d) h hnodup source buf
      (Int.toNat_of_nonneg hposition).symm hsome (clipped_inside hposition hsome) hrequest
    rw [hnonneg] at hd'
    exact ⟨d', hd', hwritten⟩

end OpenFile

/-- A call of `Read` or `Write`: the buffer of the caller and the number of bytes. `Write` allocates
`buf`. -/
structure Transfer where
  user : Buffer
  buf : Buffer
  numBytes : ℤ

/-- The bytes that a list of calls asks for. -/
def total (calls : List Transfer) : ℤ := (calls.map fun call => max 0 call.numBytes).sum

/-- The buffers of a list of calls, one behind the other. -/
def concatenated : List Transfer → Buffer
  | [] => fun _ => 0
  | call :: calls => fun k =>
    if k < call.numBytes.toNat then call.user k else concatenated calls (k - call.numBytes.toNat)

namespace OpenFile

/-- `Read` for each of the calls, with the bytes that arrive. -/
def readAll (d : Drive) (file : OpenFile) : List Transfer → Option (List UInt8 × OpenFile)
  | [] => some ([], file)
  | call :: calls => do
    let (result, into, file) ← file.read d call.user call.numBytes
    let (bytes, file) ← readAll d file calls
    return ((List.range result.toNat).map into ++ bytes, file)

/-- `Write` for each of the calls, with the sum of the results. -/
def writeAll (file : OpenFile) (d : Drive) : List Transfer → Option (ℤ × OpenFile × Drive)
  | [] => some (0, file, d)
  | call :: calls => do
    let (result, file, d) ← file.write d call.user call.buf call.numBytes
    let (sum, file, d) ← writeAll file d calls
    return (result + sum, file, d)

end OpenFile

/-- The bytes of a file from `p` on. -/
def window (d : Drive) (hdr : FileHeader) (p m : ℕ) : List UInt8 :=
  (List.range m).map fun k => byteAt d hdr (p + k)

theorem window_add (p m m' : ℕ) :
    window d hdr p (m + m') = window d hdr p m ++ window d hdr (p + m) m' := by
  simp only [window, List.range_add, List.map_append, List.map_map, Function.comp_def,
    Nat.add_assoc]

theorem total_cons (call : Transfer) (calls : List Transfer) :
    total (call :: calls) = max 0 call.numBytes + total calls := by
  rw [total, List.map_cons, List.sum_cons]
  rfl

theorem total_nonneg (calls : List Transfer) : 0 ≤ total calls := by
  induction calls with
  | nil => exact le_rfl
  | cons call calls ih =>
    rw [total_cons]
    omega

/-- The bytes of two requests, one behind the other. -/
theorem FileHeader.clipped_add (hdr : FileHeader) {n n' p : ℤ} (hn' : 0 ≤ n') :
    hdr.clipped (max 0 n + n') p = hdr.clipped n p + hdr.clipped n' (p + hdr.clipped n p) := by
  unfold FileHeader.clipped
  omega

theorem FileHeader.clipped_bounds (hdr : FileHeader) (n p : ℤ) :
    0 ≤ hdr.clipped n p ∧ hdr.clipped n p ≤ max 0 n := by
  unfold FileHeader.clipped
  omega

/-- Two writes, one behind the other. -/
theorem Written.append {source source' : Buffer} {p m m' : ℕ} (h : Written hdr d d₁ source p m)
    (h' : Written hdr d₁ d₂ source' (p + m) m') :
    Written hdr d d₂ (fun k => if k < m then source k else source' (k - m)) p (m + m') where
  outside n hn := (h'.outside n hn).trans (h.outside n hn)
  bytes k hk := by
    rw [h'.bytes k hk, h.bytes k hk]
    by_cases hsecond : p + m ≤ k ∧ k < p + m + m'
    · rw [if_pos hsecond, if_pos (by omega), if_neg (by omega)]
      congr 1
      omega
    · rw [if_neg hsecond]
      by_cases hfirst : p ≤ k ∧ k < p + m
      · rw [if_pos hfirst, if_pos (by omega), if_pos (by omega)]
      · rw [if_neg hfirst, if_neg (by omega)]

/-- Only the bytes that are written count. -/
theorem Written.congr {source source' : Buffer} {p m : ℕ} (h : Written hdr d d₁ source p m)
    (hsame : ∀ k < m, source' k = source k) : Written hdr d d₁ source' p m where
  outside := h.outside
  bytes k hk := by
    rw [h.bytes k hk]
    split
    · rw [hsame _ (by omega)]
    · rfl

theorem Written.refl (source : Buffer) (p : ℕ) : Written hdr d d source p 0 where
  outside _ _ := rfl
  bytes k _ := by rw [if_neg (by omega)]

/-- Where a first request ends before all it asks for, nothing is left for the next. -/
theorem FileHeader.clipped_next (hdr : FileHeader) {n n' p : ℤ}
    (hnext : 0 < hdr.clipped n' (p + hdr.clipped n p)) : hdr.clipped n p = max 0 n := by
  unfold FileHeader.clipped at hnext ⊢
  omega

namespace OpenFile

/-- `seekPosition += result`. -/
def moved (file : OpenFile) (result : ℤ) : OpenFile :=
  file.seek (file.seekPosition + BitVec.ofInt 32 result)

theorem moved_zero (file : OpenFile) : file.moved 0 = file :=
  congrArg (OpenFile.mk file.hdr) (BitVec.add_zero _)

theorem moved_moved (file : OpenFile) (k k' : ℤ) :
    (file.moved k).moved k' = file.moved (k + k') := by
  refine congrArg (OpenFile.mk file.hdr) ?_
  show file.seekPosition + BitVec.ofInt 32 k + BitVec.ofInt 32 k' = _
  rw [BitVec.add_assoc, BitVec.ofInt_add]

theorem toInt_moved {k : ℤ} (hposition : 0 ≤ file.seekPosition.toInt) (hk : 0 ≤ k)
    (hsum : file.seekPosition.toInt + k < 2 ^ 31) :
    (file.moved k).seekPosition.toInt = file.seekPosition.toInt + k := by
  show (file.seekPosition + BitVec.ofInt 32 k).toInt = _
  rw [BitVec.toInt_add, BitVec.toInt_ofInt, Int.add_bmod_bmod, Int.bmod_eq_of_le]
  · omega
  · omega

theorem read_clipped (h : file.hdr.Fits) (into : Buffer) (hposition : 0 ≤ file.seekPosition.toInt)
    (hsum : file.seekPosition.toInt + numBytes < 2 ^ 31) :
    file.read d into numBytes = some (file.hdr.clipped numBytes file.seekPosition.toInt, (fun k =>
      if k < (file.hdr.clipped numBytes file.seekPosition.toInt).toNat then
        byteAt d file.hdr (file.seekPosition.toInt.toNat + k) else into k),
      file.moved (file.hdr.clipped numBytes file.seekPosition.toInt)) := by
  rw [read, readAt_clipped h into hposition hsum, Option.bind_eq_bind, Option.bind_some]
  rfl

theorem write_clipped (h : file.hdr.Fits) (hnodup : file.hdr.sectors.Nodup) (source buf : Buffer)
    (hposition : 0 ≤ file.seekPosition.toInt) (hsum : file.seekPosition.toInt + numBytes < 2 ^ 31) :
    ∃ d', file.write d source buf numBytes =
        some (file.hdr.clipped numBytes file.seekPosition.toInt,
          file.moved (file.hdr.clipped numBytes file.seekPosition.toInt), d') ∧
      Written file.hdr d d' source file.seekPosition.toInt.toNat
        (file.hdr.clipped numBytes file.seekPosition.toInt).toNat := by
  obtain ⟨d', hd', hwritten⟩ := writeAt_clipped (d := d) h hnodup source buf hposition hsum
  refine ⟨d', ?_, hwritten⟩
  rw [write, hd', Option.bind_eq_bind, Option.bind_some]
  rfl

variable {calls : List Transfer}

theorem readAll_eq (h : file.hdr.Fits) (hposition : 0 ≤ file.seekPosition.toInt)
    (hsum : file.seekPosition.toInt + total calls < 2 ^ 31) :
    readAll d file calls = some
      (window d file.hdr file.seekPosition.toInt.toNat
        (file.hdr.clipped (total calls) file.seekPosition.toInt).toNat,
        file.moved (file.hdr.clipped (total calls) file.seekPosition.toInt)) := by
  induction calls generalizing file with
  | nil =>
    have hzero : file.hdr.clipped (total []) file.seekPosition.toInt = 0 :=
      le_antisymm (file.hdr.clipped_bounds 0 _).2 (file.hdr.clipped_bounds _ _).1
    rw [hzero, moved_zero]
    rfl
  | cons call calls ih =>
    have htotal := total_nonneg calls
    rw [total_cons] at hsum ⊢
    obtain ⟨p, hp⟩ : ∃ p, p = file.seekPosition.toInt := ⟨_, rfl⟩
    obtain ⟨k, hk⟩ : ∃ k, k = file.hdr.clipped call.numBytes p := ⟨_, rfl⟩
    obtain ⟨hnonneg, hle⟩ := file.hdr.clipped_bounds call.numBytes p
    have hread := read_clipped (d := d) h call.user hposition
      (show file.seekPosition.toInt + call.numBytes < 2 ^ 31 by omega)
    have hafter : (file.moved k).seekPosition.toInt = p + k := by
      rw [hp]
      exact toInt_moved hposition (by omega) (by omega)
    have hrest := @ih (file.moved k) h (by omega) (by omega)
    have hhdr : (file.moved k).hdr = file.hdr := rfl
    rw [← hp, ← hk] at hread
    rw [hafter, hhdr, moved_moved] at hrest
    have hstart : (p + k).toNat = p.toNat + k.toNat := by omega
    rw [readAll, hread, Option.bind_eq_bind, Option.bind_some]
    dsimp only
    rw [hrest, Option.bind_eq_bind, Option.bind_some, ← hp,
      file.hdr.clipped_add htotal, ← hk, Int.toNat_add (by omega) (file.hdr.clipped_bounds _ _).1,
      window_add, hstart]
    refine congrArg some (congrArg₂ Prod.mk (congrArg₂ _ ?_ rfl) rfl)
    exact List.map_congr_left fun j hj => if_pos (List.mem_range.mp hj)

theorem writeAll_eq (h : file.hdr.Fits) (hnodup : file.hdr.sectors.Nodup)
    (hposition : 0 ≤ file.seekPosition.toInt)
    (hsum : file.seekPosition.toInt + total calls < 2 ^ 31) :
    ∃ d', writeAll file d calls = some
        (file.hdr.clipped (total calls) file.seekPosition.toInt,
          file.moved (file.hdr.clipped (total calls) file.seekPosition.toInt), d') ∧
      Written file.hdr d d' (concatenated calls) file.seekPosition.toInt.toNat
        (file.hdr.clipped (total calls) file.seekPosition.toInt).toNat := by
  induction calls generalizing file d with
  | nil =>
    have hzero : file.hdr.clipped (total []) file.seekPosition.toInt = 0 :=
      le_antisymm (file.hdr.clipped_bounds 0 _).2 (file.hdr.clipped_bounds _ _).1
    rw [hzero, moved_zero]
    exact ⟨d, rfl, .refl _ _⟩
  | cons call calls ih =>
    have htotal := total_nonneg calls
    rw [total_cons] at hsum ⊢
    obtain ⟨p, hp⟩ : ∃ p, p = file.seekPosition.toInt := ⟨_, rfl⟩
    obtain ⟨k, hk⟩ : ∃ k, k = file.hdr.clipped call.numBytes p := ⟨_, rfl⟩
    obtain ⟨hnonneg, hle⟩ := file.hdr.clipped_bounds call.numBytes p
    obtain ⟨d₁, hwrite, hfirst⟩ := write_clipped (d := d) h hnodup call.user call.buf hposition
      (show file.seekPosition.toInt + call.numBytes < 2 ^ 31 by omega)
    have hafter : (file.moved k).seekPosition.toInt = p + k := by
      rw [hp]
      exact toInt_moved hposition (by omega) (by omega)
    obtain ⟨d₂, hrest, hsecond⟩ := @ih d₁ (file.moved k) h hnodup (by omega) (by omega)
    have hhdr : (file.moved k).hdr = file.hdr := rfl
    rw [← hp, ← hk] at hwrite hfirst
    have hstart : (p + k).toNat = p.toNat + k.toNat := by omega
    rw [hafter, hhdr, moved_moved] at hrest
    rw [hafter, hhdr, hstart] at hsecond
    rw [← hp, file.hdr.clipped_add htotal, ← hk,
      Int.toNat_add (by omega) (file.hdr.clipped_bounds _ _).1]
    refine ⟨d₂, ?_, (hfirst.append hsecond).congr fun j hj => ?_⟩
    · rw [writeAll, hwrite, Option.bind_eq_bind, Option.bind_some]
      dsimp only
      rw [hrest]
      rfl
    · -- the first call has transferred all it was asked for, unless nothing follows
      rw [concatenated]
      dsimp only
      by_cases hj' : j < k.toNat
      · rw [if_pos hj', if_pos (by omega)]
      · have hnext : 0 < file.hdr.clipped (total calls) (p + file.hdr.clipped call.numBytes p) := by
          rw [← hk]
          omega
        have hall := file.hdr.clipped_next hnext
        have hsize : call.numBytes.toNat = k.toNat := by omega
        rw [hsize, if_neg hj']

end OpenFile

/-- `WriteAt` as it is documented, with the ranges of `ReadAt` after it. -/
def WritesRange (file : OpenFile) (d : Drive) : Prop :=
  ∀ source buf numBytes position, 0 ≤ position → position + numBytes < 2 ^ 31 →
    ∃ d', file.writeAt d source buf numBytes position =
        some (file.hdr.clipped numBytes position, d') ∧
      (∀ n ∉ file.hdr.sectors, d' n = d n) ∧
      ∀ into numBytes' position', 0 ≤ position' → position' + numBytes' < 2 ^ 31 →
        file.readAt d' into numBytes' position' =
          some (file.hdr.clipped numBytes' position', fun k : ℕ =>
            if (k : ℤ) < file.hdr.clipped numBytes' position' then
              if position ≤ position' + k ∧
                  position' + k < position + file.hdr.clipped numBytes position then
                source (position' + k - position).toNat
              else byteAt d file.hdr (position' + k).toNat
            else into k)

def ReadsRange (file : OpenFile) (d : Drive) : Prop :=
  ∀ into numBytes position, 0 ≤ position → position + numBytes < 2 ^ 31 →
    file.readAt d into numBytes position = some (file.hdr.clipped numBytes position, fun k : ℕ =>
      if (k : ℤ) < file.hdr.clipped numBytes position then byteAt d file.hdr (position + k).toNat
      else into k)

/-- Calls of `Read` from `Seek(p)` are one call for all their bytes. -/
def ReadsJoin (file : OpenFile) (d : Drive) : Prop :=
  ∀ (p : Word) calls into, 0 ≤ p.toInt → p.toInt + total calls < 2 ^ 31 →
    ∃ result buf file', (file.seek p).read d into (total calls) = some (result, buf, file') ∧
      OpenFile.readAll d (file.seek p) calls = some ((List.range result.toNat).map buf, file')

/-- Calls of `Write` from `Seek(p)` are one call with all their bytes: the results are the same, and
so are the file and the other sectors. Behind the end of the file the last sector has what was in
memory. -/
def WritesJoin (file : OpenFile) (d : Drive) : Prop :=
  ∀ (p : Word) calls buf, 0 ≤ p.toInt → p.toInt + total calls < 2 ^ 31 →
    ∃ result file' d₁ d₂,
      (file.seek p).write d (concatenated calls) buf (total calls) = some (result, file', d₁) ∧
      OpenFile.writeAll (file.seek p) d calls = some (result, file', d₂) ∧
      (∀ n ∉ file.hdr.sectors, d₂ n = d₁ n) ∧
      ∀ k < file.hdr.length, byteAt d₂ file.hdr k = byteAt d₁ file.hdr k

section

variable (h : file.hdr.Fits) (hnodup : file.hdr.sectors.Nodup) (d : Drive)

include h

theorem readsRange : ReadsRange file d := by
  intro into numBytes position hposition hsum
  rw [OpenFile.readAt_clipped h into hposition hsum]
  have hnonneg := (file.hdr.clipped_bounds numBytes position).1
  congr 2
  funext k
  by_cases hk : k < (file.hdr.clipped numBytes position).toNat
  · rw [if_pos hk, if_pos (by omega)]
    congr 1
    omega
  · rw [if_neg hk, if_neg (by omega)]

theorem readsJoin : ReadsJoin file d := by
  intro p calls into hposition hsum
  have hfits : (file.seek p).hdr.Fits := h
  have hall := OpenFile.readAll_eq (d := d) hfits hposition hsum
  refine ⟨_, _, _, OpenFile.read_clipped hfits into hposition hsum, hall.trans ?_⟩
  congr 2
  refine List.map_congr_left fun k hk => ?_
  exact (if_pos (List.mem_range.mp hk)).symm

include hnodup

theorem writesRange : WritesRange file d := by
  intro source buf numBytes position hposition hsum
  obtain ⟨d', hd', hwritten⟩ := OpenFile.writeAt_clipped (d := d) h hnodup source buf hposition hsum
  refine ⟨d', hd', hwritten.outside, fun into numBytes' position' hposition' hsum' => ?_⟩
  rw [readsRange h d' into numBytes' position' hposition' hsum']
  have hnonneg := (file.hdr.clipped_bounds numBytes position).1
  congr 2
  funext k
  by_cases hk : (k : ℤ) < file.hdr.clipped numBytes' position'
  · have hin : (position' + k).toNat < file.hdr.length := by
      unfold FileHeader.clipped at hk
      unfold FileHeader.length
      omega
    rw [if_pos hk, if_pos hk, hwritten.bytes _ hin]
    by_cases hnew : position ≤ position' + k ∧
        position' + k < position + file.hdr.clipped numBytes position
    · rw [if_pos hnew, if_pos (by omega)]
      congr 1
      omega
    · rw [if_neg hnew, if_neg (by omega)]
  · rw [if_neg hk, if_neg hk]

theorem writesJoin : WritesJoin file d := by
  intro p calls buf hposition hsum
  have hfits : (file.seek p).hdr.Fits := h
  obtain ⟨d₁, hd₁, hone⟩ := OpenFile.write_clipped (d := d) hfits hnodup (concatenated calls) buf
    hposition hsum
  obtain ⟨d₂, hd₂, hmany⟩ := OpenFile.writeAll_eq (d := d) hfits hnodup hposition hsum
  refine ⟨_, _, d₁, d₂, hd₁, hd₂, fun n hn => ?_, fun k hk => ?_⟩
  · exact (hmany.outside n hn).trans (hone.outside n hn).symm
  · exact (hmany.bytes k hk).trans (hone.bytes k hk).symm

theorem transfers : WritesRange file d ∧ ReadsRange file d ∧ ReadsJoin file d ∧ WritesJoin file d :=
  ⟨writesRange h hnodup d, readsRange h d, readsJoin h d, writesJoin h hnodup d⟩

end

/-- A file of 200 bytes in two sectors that are not in order. -/
def twoSectors : OpenFile where
  hdr := ⟨200, 2, fun i => if i = 0 then 9 else 5⟩
  seekPosition := 0

theorem transfers_twoSectors : WritesRange twoSectors (fun _ => sectorOf fun _ => 0) ∧
    ReadsRange twoSectors (fun _ => sectorOf fun _ => 0) ∧
    ReadsJoin twoSectors (fun _ => sectorOf fun _ => 0) ∧
    WritesJoin twoSectors (fun _ => sectorOf fun _ => 0) :=
  transfers ⟨by decide, by decide, by decide⟩ (by decide) _

end Nachos.Filesys

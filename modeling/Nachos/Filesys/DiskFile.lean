import Nachos.Filesys.FileHeader

/-! Files on the disk (`filesys/openfile.cc`, without `FILESYS_STUB`). A request is cut into the
sectors it touches, and those it touches in part are read before they are written. -/
namespace Nachos.Filesys

structure OpenFile where
  hdr : FileHeader
  seekPosition : Word

/-- `ReadSector` for the sectors of a file from the `first` on. -/
def readSectors (d : Drive) (hdr : FileHeader) (first : ℕ) : (left : ℕ) → Option (List Sector)
  | 0 => some []
  | left + 1 => do
    let data ← d.readSector (← hdr.byteToSector (first * SectorSize : ℕ)).toInt
    return data :: (← readSectors d hdr (first + 1) left)

/-- Sectors one behind the other. -/
def bytesOf (sectors : List Sector) : Buffer := fun k =>
  (sectors[k / SectorSize]?.map fun data => byteOf data (k % SectorSize)).getD 0

/-- `WriteSector` for the sectors of a file from the `first` on, with the `j`-th piece of `buf`. -/
def writeSectors (hdr : FileHeader) (buf : Buffer) (first : ℕ) :
    (j left : ℕ) → Drive → Option Drive
  | _, 0, d => some d
  | j, left + 1, d => do
    let sector ← hdr.byteToSector ((first + j) * SectorSize : ℕ)
    let d ← d.writeSector sector.toInt (sectorOf fun k => buf (j * SectorSize + k))
    writeSectors hdr buf first (j + 1) left d

namespace OpenFile

/-- The constructor. -/
def new (d : Drive) (sector : ℤ) : Option OpenFile :=
  (FileHeader.fetchFrom d sector).map fun hdr => ⟨hdr, 0⟩

def seek (file : OpenFile) (position : Word) : OpenFile := { file with seekPosition := position }

/-- The check of a request: nothing to do, an index of `buf` or `dataSectors` that is negative
or a sum that overflows (no result), or the bytes to transfer. -/
def request (file : OpenFile) (numBytes position : ℤ) : Option ℤ :=
  let fileLength := file.hdr.numBytes.toInt
  if numBytes ≤ 0 ∨ position ≥ fileLength then some 0
  else if position < 0 ∨ position + numBytes ≥ 2 ^ 31 then none
  else some (if position + numBytes > fileLength then fileLength - position else numBytes)

/-- `ReadAt`, with what `into` is pointing at. -/
def readAt (file : OpenFile) (d : Drive) (into : Buffer) (numBytes position : ℤ) :
    Option (ℤ × Buffer) := do
  let numBytes ← file.request numBytes position
  if numBytes = 0 then return (0, into)
  else
    let firstSector := position.toNat / SectorSize
    let lastSector := (position + numBytes - 1).toNat / SectorSize
    let buf := bytesOf (← readSectors d file.hdr firstSector (1 + lastSector - firstSector))
    return (numBytes,
      bcopy (fun k => buf (position.toNat - firstSector * SectorSize + k)) into 0 numBytes.toNat)

/-- `ReadAt(&buf[start], SectorSize, sector * SectorSize)`. -/
def readEdge (file : OpenFile) (d : Drive) (buf : Buffer) (start sector : ℕ) : Option Buffer :=
  (file.readAt d (fun k => buf (start + k)) SectorSize (sector * SectorSize : ℕ)).map
    fun r => bcopy r.2 buf start r.1.toNat

/-- `WriteAt` reads the first and the last sector, if they are to be partially modified. -/
def readEdges (file : OpenFile) (d : Drive) (buf : Buffer) (firstSector lastSector : ℕ)
    (firstAligned lastAligned : Bool) : Option Buffer :=
  (if firstAligned then some buf else file.readEdge d buf 0 firstSector).bind fun buf =>
    if ¬ lastAligned ∧ (firstSector ≠ lastSector ∨ firstAligned) then
      file.readEdge d buf ((lastSector - firstSector) * SectorSize) lastSector
    else some buf

/-- `WriteAt`, where `buf` is what has just been allocated. -/
def writeAt (file : OpenFile) (d : Drive) (source buf : Buffer) (numBytes position : ℤ) :
    Option (ℤ × Drive) := do
  let numBytes ← file.request numBytes position
  if numBytes = 0 then return (0, d)
  else
    let firstSector := position.toNat / SectorSize
    let lastSector := (position + numBytes - 1).toNat / SectorSize
    let firstAligned : Bool := position.toNat = firstSector * SectorSize
    let lastAligned : Bool := (position + numBytes).toNat = (lastSector + 1) * SectorSize
    let buf ← file.readEdges d buf firstSector lastSector firstAligned lastAligned
    let buf := bcopy source buf (position.toNat - firstSector * SectorSize) numBytes.toNat
    return (numBytes,
      ← writeSectors file.hdr buf firstSector 0 (1 + lastSector - firstSector) d)

def read (file : OpenFile) (d : Drive) (into : Buffer) (numBytes : ℤ) :
    Option (ℤ × Buffer × OpenFile) := do
  let (result, into) ← file.readAt d into numBytes file.seekPosition.toInt
  return (result, into, file.seek (file.seekPosition + BitVec.ofInt 32 result))

def write (file : OpenFile) (d : Drive) (source buf : Buffer) (numBytes : ℤ) :
    Option (ℤ × OpenFile × Drive) := do
  let (result, d) ← file.writeAt d source buf numBytes file.seekPosition.toInt
  return (result, file.seek (file.seekPosition + BitVec.ofInt 32 result), d)

end OpenFile

/-- The bytes of a file, one by one. -/
def byteAt (d : Drive) (hdr : FileHeader) (k : ℕ) : UInt8 :=
  byteOf (d (hdr.sectorNumber (k / SectorSize))) (k % SectorSize)

variable {d d' : Drive} {hdr : FileHeader} {file : OpenFile}

theorem FileHeader.mem_sectors {i : ℕ} (hi : i < hdr.count) :
    hdr.sectorNumber i ∈ hdr.sectors :=
  List.mem_map_of_mem (List.mem_range.mpr hi)

/-- The pieces of a file that have a sector. -/
theorem FileHeader.Fits.byteToSector (h : hdr.Fits) {i : ℕ} (hi : i < hdr.count) :
    ∃ w, hdr.byteToSector (i * SectorSize : ℕ) = some w ∧ w.toInt = hdr.sectorNumber i := by
  have hdiv : ((i * SectorSize : ℕ) : ℤ).tdiv SectorSize = i := by
    show ((i * 128 / 128 : ℕ) : ℤ) = i
    rw [Nat.mul_div_cancel _ (by decide)]
  rw [FileHeader.byteToSector, hdiv]
  exact FileHeader.dataSector_eq (hi.trans_le h.direct) (h.inRange _ (FileHeader.mem_sectors hi))

theorem readSectors_eq (h : hdr.Fits) {left : ℕ} : ∀ {first : ℕ},
    first + left ≤ hdr.count → readSectors d hdr first left =
      some ((List.range' first left).map fun i => d (hdr.sectorNumber i)) := by
  induction left with
  | zero =>
    intro first _
    rfl
  | succ left ih =>
    intro first hfirst
    have hi : first < hdr.count := by omega
    obtain ⟨w, hw, hint⟩ := h.byteToSector hi
    have hlt := h.inRange _ (FileHeader.mem_sectors hi)
    rw [readSectors, hw]
    simp only [Option.bind_eq_bind, Option.bind_some, hint, Drive.readSector_of_lt hlt,
      ih (show first + 1 + left ≤ hdr.count by omega), List.range'_succ, List.map_cons]
    rfl

theorem bytesOf_readSectors {first left k : ℕ} (hk : k < left * SectorSize) :
    bytesOf ((List.range' first left).map fun i => d (hdr.sectorNumber i)) k =
      byteAt d hdr (first * SectorSize + k) := by
  have hpiece : k / SectorSize < left := Nat.div_lt_of_lt_mul (by rwa [Nat.mul_comm])
  rw [bytesOf, List.getElem?_map, List.getElem?_range' hpiece, byteAt, Nat.mul_comm first,
    Nat.mul_add_div (by decide), Nat.mul_add_mod]
  simp

theorem FileHeader.Fits.length_le (h : hdr.Fits) : hdr.length ≤ 3840 := by
  have hdirect : hdr.count ≤ 30 := h.direct
  have hcovers : hdr.length ≤ hdr.count * 128 := h.covers
  omega

/-- How a request can go. -/
theorem OpenFile.request_cases (file : OpenFile) (numBytes position : ℤ) :
    file.request numBytes position = some 0 ∨ file.request numBytes position = none ∨
      ∃ p m : ℕ, position = p ∧ 0 < m ∧ p + m ≤ file.hdr.length ∧
        file.request numBytes position = some (m : ℤ) := by
  unfold OpenFile.request FileHeader.length
  simp only
  split
  · exact .inl rfl
  split
  · exact .inr (.inl rfl)
  next hsome hvalid =>
  refine .inr (.inr ⟨position.toNat, (if position + numBytes > file.hdr.numBytes.toInt then
    file.hdr.numBytes.toInt - position else numBytes).toNat, by omega, ?_, ?_, ?_⟩)
  · split <;> omega
  · split <;> omega
  · congr 1
    split <;> omega

/-- A request inside the documented range. -/
theorem OpenFile.request_eq (file : OpenFile) {numBytes position : ℤ} (hposition : 0 ≤ position)
    (hsum : position + numBytes < 2 ^ 31) : file.request numBytes position =
      some (max 0 (min numBytes (file.hdr.numBytes.toInt - position))) := by
  unfold OpenFile.request
  simp only
  split
  · congr 1
    omega
  rw [if_neg (by omega)]
  congr 1
  split <;> omega

/-- The sectors with the bytes from `p` on. -/
def pieces (p m : ℕ) : ℕ := 1 + (p + m - 1) / SectorSize - p / SectorSize

theorem pieces_inside (h : hdr.Fits) {p m : ℕ} (hm : 0 < m) (hinside : p + m ≤ hdr.length) :
    p / SectorSize + pieces p m ≤ hdr.count := by
  have hcovers : hdr.length ≤ hdr.count * 128 := h.covers
  show p / 128 + (1 + (p + m - 1) / 128 - p / 128) ≤ hdr.count
  omega

theorem FileHeader.Fits.piece_lt (h : hdr.Fits) {k : ℕ} (hk : k < hdr.length) :
    k / SectorSize < hdr.count := by
  have hcovers : hdr.length ≤ hdr.count * 128 := h.covers
  show k / 128 < hdr.count
  omega

/-- A file's bytes depend on its sectors only. -/
theorem byteAt_congr (h : hdr.Fits) (hsame : ∀ n ∈ hdr.sectors, d' n = d n) {k : ℕ}
    (hk : k < hdr.length) : byteAt d' hdr k = byteAt d hdr k := by
  rw [byteAt, byteAt, hsame _ (FileHeader.mem_sectors (h.piece_lt hk))]

theorem lt_pieces {p m k : ℕ} (hk : k < m) :
    p - p / SectorSize * SectorSize + k < pieces p m * SectorSize := by
  show p - p / 128 * 128 + k < (1 + (p + m - 1) / 128 - p / 128) * 128
  omega

theorem OpenFile.readAt_eq (h : file.hdr.Fits) (into : Buffer) {numBytes position : ℤ} {p m : ℕ}
    (hposition : position = p) (hm : 0 < m) (hinside : p + m ≤ file.hdr.length)
    (hrequest : file.request numBytes position = some (m : ℤ)) :
    file.readAt d into numBytes position =
      some ((m : ℤ), fun k => if k < m then byteAt d file.hdr (p + k) else into k) := by
  subst hposition
  have hlast : ((p : ℤ) + m - 1).toNat = p + m - 1 := by omega
  rw [OpenFile.readAt, hrequest]
  simp only [Option.bind_eq_bind, Option.bind_some, Int.toNat_natCast, hlast]
  rw [if_neg (by omega), ← pieces, readSectors_eq h (pieces_inside h hm hinside)]
  simp only [Option.bind_some]
  congr 2
  funext k
  rw [bcopy]
  simp only [Nat.zero_le, true_and, Nat.zero_add, Nat.sub_zero]
  split
  · next hk =>
    rw [bytesOf_readSectors (lt_pieces hk)]
    congr 1
    show p / 128 * 128 + (p - p / 128 * 128 + k) = p + k
    omega
  · rfl

/-- Each sector gets its piece of the buffer, and no other sector is written. -/
theorem writeSectors_eq (h : hdr.Fits) (hnodup : hdr.sectors.Nodup) (buf : Buffer) (first : ℕ)
    {left : ℕ} :
    ∀ {j : ℕ} {d : Drive}, first + j + left ≤ hdr.count →
      ∃ d', writeSectors hdr buf first j left d = some d' ∧
        (∀ n, (∀ i, j ≤ i → i < j + left → n ≠ hdr.sectorNumber (first + i)) → d' n = d n) ∧
        ∀ i, j ≤ i → i < j + left → d' (hdr.sectorNumber (first + i)) =
          sectorOf fun k => buf (i * SectorSize + k) := by
  induction left with
  | zero =>
    intro j d _
    exact ⟨d, rfl, fun _ _ => rfl, fun i hi hi' => absurd hi' (by omega)⟩
  | succ left ih =>
    intro j d hj
    have hcount : first + j < hdr.count := by omega
    obtain ⟨w, hw, hint⟩ := h.byteToSector hcount
    have hlt := h.inRange _ (FileHeader.mem_sectors hcount)
    obtain ⟨d', hd', hother, hpiece⟩ := ih (j := j + 1)
      (d := Function.update d (hdr.sectorNumber (first + j))
        (sectorOf fun k => buf (j * SectorSize + k))) (by omega)
    have hinj (i : ℕ) (hi : i < j + 1 + left) (heq : hdr.sectorNumber (first + j) =
        hdr.sectorNumber (first + i)) : j = i := by
      have := List.inj_on_of_nodup_map hnodup (List.mem_range.mpr hcount)
        (List.mem_range.mpr (show first + i < hdr.count by omega)) heq
      omega
    refine ⟨d', ?_, ?_, ?_⟩
    · rw [writeSectors, hw]
      simp only [Option.bind_eq_bind, Option.bind_some, hint, Drive.writeSector_of_lt hlt, hd']
    · intro n hn
      rw [hother n fun i hi hi' => hn i (by omega) (by omega), Function.update_of_ne]
      exact hn j le_rfl (by omega)
    · intro i hi hi'
      rcases Nat.eq_or_lt_of_le hi with rfl | hlater
      · rw [hother _ fun i hi hi' heq => absurd (hinj i (by omega) heq) (by omega),
          Function.update_self]
      · exact hpiece i hlater (by omega)

theorem OpenFile.readEdge_eq (h : file.hdr.Fits) (buf : Buffer) (start : ℕ) {sector : ℕ}
    (hsector : sector * SectorSize < file.hdr.length) :
    ∃ buf', file.readEdge d buf start sector = some buf' ∧
      (∀ k < file.hdr.length, k / SectorSize = sector →
        buf' (start + (k - sector * SectorSize)) = byteAt d file.hdr k) ∧
      ∀ q, q < start ∨ start + SectorSize ≤ q → buf' q = buf q := by
  have hsmall := h.length_le
  have hlength : file.hdr.length = file.hdr.numBytes.toInt.toNat := rfl
  have hsector : sector * 128 < file.hdr.length := hsector
  have hrequest : file.request SectorSize (sector * SectorSize : ℕ) =
      some ((min 128 (file.hdr.length - sector * 128) : ℕ) : ℤ) := by
    rw [OpenFile.request_eq file (Int.natCast_nonneg _)
      (show ((sector * 128 : ℕ) : ℤ) + (128 : ℕ) < 2 ^ 31 by omega)]
    congr 1
    show max 0 (min ((128 : ℕ) : ℤ) (file.hdr.numBytes.toInt - (sector * 128 : ℕ))) = _
    omega
  refine ⟨_, congrArg (Option.map _) (OpenFile.readAt_eq h _ rfl (by omega)
    (show sector * 128 + min 128 (file.hdr.length - sector * 128) ≤ _ by omega) hrequest), ?_, ?_⟩
  · intro k hk hpiece
    have hpiece : k / 128 = sector := hpiece
    simp only [bcopy, Int.toNat_natCast]
    rw [if_pos (show _ ∧ start + (k - sector * 128) < start + min 128 _ by omega),
      if_pos (show start + (k - sector * 128) - start < min 128 _ by omega)]
    congr 1
    show sector * 128 + (start + (k - sector * 128) - start) = k
    omega
  · intro q hq
    have hq : q < start ∨ start + 128 ≤ q := hq
    simp only [bcopy, Int.toNat_natCast]
    rw [if_neg (show ¬ (start ≤ q ∧ q < start + min 128 _) by omega)]

/-- What `WriteAt` is going to write back unchanged. -/
theorem OpenFile.readEdges_eq (h : file.hdr.Fits) (buf : Buffer) {first last : ℕ}
    (hle : first ≤ last) (hlast : last * SectorSize < file.hdr.length)
    (firstAligned lastAligned : Bool) :
    ∃ buf', file.readEdges d buf first last firstAligned lastAligned = some buf' ∧
      ∀ k < file.hdr.length,
        k / SectorSize = first ∧ firstAligned = false ∨
          k / SectorSize = last ∧ lastAligned = false →
        buf' (k - first * SectorSize) = byteAt d file.hdr k := by
  have hlast : last * 128 < file.hdr.length := hlast
  have hfront : ∃ buf₁,
      (if firstAligned then some buf else file.readEdge d buf 0 first) = some buf₁ ∧
      ∀ k < file.hdr.length, k / 128 = first → firstAligned = false →
        buf₁ (k - first * 128) = byteAt d file.hdr k := by
    cases firstAligned
    · obtain ⟨buf₁, hbuf₁, hinside, -⟩ := OpenFile.readEdge_eq (d := d) h buf 0
        (show first * 128 < _ by omega)
      refine ⟨buf₁, hbuf₁, fun k hk hpiece _ => ?_⟩
      rw [← hinside k hk hpiece, Nat.zero_add]
    · exact ⟨buf, rfl, fun _ _ _ hfalse => absurd hfalse (by simp)⟩
  obtain ⟨buf₁, hbuf₁, hfront⟩ := hfront
  unfold OpenFile.readEdges
  rw [hbuf₁, Option.bind_some]
  by_cases hback : ¬ lastAligned = true ∧ (first ≠ last ∨ firstAligned = true)
  · rw [if_pos hback]
    obtain ⟨buf₂, hbuf₂, hinside, hbefore⟩ := OpenFile.readEdge_eq (d := d) h buf₁
      ((last - first) * 128) hlast
    refine ⟨buf₂, hbuf₂, fun k hk hpiece => ?_⟩
    by_cases heq : k / 128 = last
    · rw [← hinside k hk heq]
      congr 1
      show k - first * 128 = (last - first) * 128 + (k - last * 128)
      omega
    · rcases hpiece with ⟨hfirst, haligned⟩ | ⟨hpiece, -⟩
      · have hfirst : k / 128 = first := hfirst
        rw [hbefore _ (.inl (show k - first * 128 < (last - first) * 128 by omega))]
        exact hfront k hk hfirst haligned
      · exact absurd hpiece heq
  · rw [if_neg hback]
    refine ⟨buf₁, rfl, fun k hk hpiece => ?_⟩
    rcases hpiece with ⟨hfirst, haligned⟩ | ⟨hpiece, haligned⟩
    · exact hfront k hk hfirst haligned
    · have heq : first = last := by
        by_contra hne
        exact hback ⟨by simp [haligned], .inl hne⟩
      have hfalse : firstAligned = false := by
        by_contra htrue
        exact hback ⟨by simp [haligned], .inr (by simpa using htrue)⟩
      exact hfront k hk (hpiece.trans heq.symm) hfalse

/-- The `m` bytes from `p` on are those of `source`; nothing else has changed. -/
structure Written (hdr : FileHeader) (d d' : Drive) (source : Buffer) (p m : ℕ) : Prop where
  outside : ∀ n ∉ hdr.sectors, d' n = d n
  bytes : ∀ k < hdr.length,
    byteAt d' hdr k = if p ≤ k ∧ k < p + m then source (k - p) else byteAt d hdr k

theorem OpenFile.writeAt_eq (h : file.hdr.Fits) (hnodup : file.hdr.sectors.Nodup)
    (source buf : Buffer) {numBytes position : ℤ} {p m : ℕ} (hposition : position = p) (hm : 0 < m)
    (hinside : p + m ≤ file.hdr.length)
    (hrequest : file.request numBytes position = some (m : ℤ)) :
    ∃ d', file.writeAt d source buf numBytes position = some ((m : ℤ), d') ∧
      Written file.hdr d d' source p m := by
  subst hposition
  have hlast : ((p : ℤ) + m - 1).toNat = p + m - 1 := by omega
  have hend : ((p : ℤ) + m).toNat = p + m := by omega
  obtain ⟨buf', hbuf', hedges⟩ := OpenFile.readEdges_eq (d := d) h buf
    (show p / 128 ≤ (p + m - 1) / 128 by omega)
    (show (p + m - 1) / 128 * 128 < file.hdr.length by omega)
    (decide (p = p / SectorSize * SectorSize))
    (decide (p + m = ((p + m - 1) / SectorSize + 1) * SectorSize))
  have hpieces := pieces_inside h hm hinside
  obtain ⟨d', hd', hother, hpiece⟩ := writeSectors_eq (d := d) (j := 0) h hnodup
    (bcopy source buf' (p - p / SectorSize * SectorSize) m) (p / SectorSize) hpieces
  refine ⟨d', ?_, ?_, ?_⟩
  · rw [OpenFile.writeAt, hrequest]
    simp only [Option.bind_eq_bind, Option.bind_some, Int.toNat_natCast, hlast, hend]
    rw [if_neg (by omega), hbuf']
    simp only [Option.bind_some]
    rw [← pieces, hd']
    rfl
  · intro n hn
    refine hother n fun i _ hi heq => hn ?_
    rw [heq]
    exact FileHeader.mem_sectors (by omega)
  · intro k hk
    have hpiecesDef : pieces p m = 1 + (p + m - 1) / 128 - p / 128 := rfl
    have hcount : k / 128 < file.hdr.count := h.piece_lt hk
    by_cases hin : p / 128 ≤ k / 128 ∧ k / 128 ≤ (p + m - 1) / 128
    · have hj : k / 128 = p / 128 + (k / 128 - p / 128) := by omega
      have hdata := hpiece (k / 128 - p / 128) (Nat.zero_le _) (by omega)
      have hoffset : (k / 128 - p / 128) * 128 + k % 128 = k - p / 128 * 128 := by omega
      have hbyte : byteAt d' file.hdr k =
          bcopy source buf' (p - p / 128 * 128) m (k - p / 128 * 128) := by
        rw [byteAt, show k / SectorSize = p / SectorSize + (k / 128 - p / 128) from hj, hdata,
          byteOf_sectorOf _ (Nat.mod_lt k (by decide)), ← hoffset]
      rw [hbyte, bcopy]
      by_cases hk' : p ≤ k ∧ k < p + m
      · rw [if_pos (by omega), if_pos hk']
        congr 1
        omega
      · rw [if_neg (by omega), if_neg hk']
        refine hedges k hk ?_
        by_cases hfront : k < p
        · exact .inl ⟨show k / 128 = p / 128 by omega,
            decide_eq_false (show p ≠ p / 128 * 128 by omega)⟩
        · exact .inr ⟨show k / 128 = (p + m - 1) / 128 by omega,
            decide_eq_false (show p + m ≠ ((p + m - 1) / 128 + 1) * 128 by omega)⟩
    · rw [if_neg (by omega), byteAt, byteAt, hother]
      intro i _ hi heq
      have heq := List.inj_on_of_nodup_map hnodup (List.mem_range.mpr hcount)
        (List.mem_range.mpr (show p / 128 + i < file.hdr.count from
          (show p / 128 + i < p / 128 + pieces p m by omega).trans_le hpieces)) heq
      omega

/-- How a write can go. -/
theorem OpenFile.writeAt_cases (h : file.hdr.Fits) (hnodup : file.hdr.sectors.Nodup)
    (source buf : Buffer) (numBytes position : ℤ) :
    file.writeAt d source buf numBytes position = none ∨
      file.writeAt d source buf numBytes position = some (0, d) ∨
      ∃ (p m : ℕ) (d' : Drive), file.writeAt d source buf numBytes position = some ((m : ℤ), d') ∧
        Written file.hdr d d' source p m := by
  rcases OpenFile.request_cases file numBytes position with hzero | hnone | ⟨p, m, hp, hm, hin, hm'⟩
  · refine .inr (.inl ?_)
    rw [OpenFile.writeAt, hzero]
    rfl
  · refine .inl ?_
    rw [OpenFile.writeAt, hnone]
    rfl
  · obtain ⟨d', hd', hwritten⟩ := OpenFile.writeAt_eq h hnodup source buf hp hm hin hm'
    exact .inr (.inr ⟨p, m, d', hd', hwritten⟩)

end Nachos.Filesys

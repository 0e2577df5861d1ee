import Nachos.Filesys.SectorOwnership

/-! The size of a new file. `Allocate` compares the number of sectors with the free space only, and
not with the entries that the header has. -/
namespace Nachos.Filesys

/-- The header of a file has the sectors that the file needs. -/
structure Holds (hdr : FileHeader) (initialSize : Word) : Prop where
  numBytes : hdr.numBytes = initialSize
  numSectors : hdr.numSectors.toInt = divRoundUp initialSize.toInt.toNat SectorSize
  direct : hdr.numSectors.toInt ≤ NumDirect
  sector : ∀ offset : ℕ, offset < hdr.length →
    ∃ w, hdr.byteToSector offset = some w ∧ 0 ≤ w.toInt ∧ w.toInt < NumSectors

theorem toInt_sectorsFor_eq {initialSize : Word} (hsize : 0 ≤ initialSize.toInt) :
    (FileHeader.sectorsFor initialSize).toInt = divRoundUp initialSize.toInt.toNat SectorSize := by
  obtain ⟨n, hn⟩ := Int.eq_ofNat_of_zero_le hsize
  rw [FileHeader.toInt_sectorsFor, if_pos hsize, hn, Int.toNat_natCast, divRoundUp]
  show ((n : ℤ) + 127) / 128 = ((n / 128 + if n % 128 > 0 then 1 else 0 : ℕ) : ℤ)
  split <;> omega

/-- Every offset of a file is in one of its sectors. -/
theorem FileHeader.Fits.byteToSector_lt {hdr : FileHeader} (h : hdr.Fits) {offset : ℕ}
    (hoffset : offset < hdr.length) :
    ∃ w, hdr.byteToSector offset = some w ∧ 0 ≤ w.toInt ∧ w.toInt < NumSectors := by
  have hpiece := h.piece_lt hoffset
  have hlt := h.inRange _ (FileHeader.mem_sectors hpiece)
  obtain ⟨w, hw, hint⟩ := FileHeader.dataSector_eq (hpiece.trans_le h.direct) hlt
  refine ⟨w, hw, ?_, ?_⟩
  · rw [hint]
    exact Int.natCast_nonneg _
  · rw [hint]
    exact Int.ofNat_lt.mpr hlt

section

variable {disk : Drive} {fresh : Fresh} {fs : FileSystem} {s : DiskState}

theorem FileSystem.Ok.holds {d' : Drive} {name : CString} {initialSize : Word}
    {i : Fin NumDirEntries} {sector : ℕ} {directory : Directory NumDirEntries}
    {freeMap : Bitmap NumSectors}
    (h : fs.Ok) (hcreated : Created fs.disk d' name initialSize i sector directory freeMap)
    (hsize : InCapacity initialSize) :
    (directoryOf d').findIndex name = some i ∧ headerSector d' (.entry i) = some sector ∧
      Holds (headerAt d' sector) initialSize := by
  have hdirectory := hcreated.rewritten.directoryOf_eq h.disk
  have hneeded : (headerAt d' sector).numSectors.toInt =
      divRoundUp initialSize.toInt.toNat SectorSize := by
    rw [hcreated.numSectors, toInt_sectorsFor_eq hsize.1]
  refine ⟨hdirectory ▸ hcreated.found, ?_, hcreated.numBytes, hneeded, ?_, fun offset hoffset =>
    hcreated.fits.byteToSector_lt hoffset⟩
  · rw [headerSector_entry, hdirectory]
    exact hcreated.used
  · have hcount := hcreated.fits.direct
    rw [FileHeader.count] at hcount
    show _ ≤ (30 : ℤ)
    have hcount : (headerAt d' sector).numSectors.toInt.toNat ≤ 30 := hcount
    omega

end

end Nachos.Filesys

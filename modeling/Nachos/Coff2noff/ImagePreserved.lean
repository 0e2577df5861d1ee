import Nachos.Coff2noff.SectionsCopied

/-! The image of a program in the COFF file and in the NOFF file. -/
namespace Nachos.Coff2noff

variable {coff written : HostFile} {sections : List Scnhdr} {t : Scnhdr} {k : FileKind}
  {c : Conversion} {segment : Segment}

/-- The image that the sections describe, in a NOFF file with this header. -/
structure Image (coff noff : HostFile) (noffH : NoffHeader) : Prop where
  stored : ∀ s ∈ sectionsOf coff, ∀ k, s.Backed k → ∀ j : ℕ, (j : ℤ) < s.sSize →
    ∃ b, s.byte coff j = some b ∧ ∃ segment ∈ noffH.fileBacked, segment.Contains (s.sPaddr + j) ∧
      noff[(segment.inFileAddr + (s.sPaddr + j - segment.virtualAddr)).toNat]? = some b
  ranges : ∀ segment ∈ noffH.fileBacked, 0 < segment.size →
    (sizeofNoffHeader : ℤ) ≤ segment.inFileAddr ∧ segment.inFileAddr + segment.size ≤ noff.length
  apart : noffH.fileBacked.Pairwise FileApart
  uninitData : ∀ a, noffH.uninitData.Contains a ↔ ∃ s ∈ bssOf (sectionsOf coff), s.Covers a
  /-- A `.bss` section that is merged with earlier ones begins where they end. -/
  contiguous : ∀ first earlier s later,
    bssOf (sectionsOf coff) = first :: (earlier ++ s :: later) →
      s.sPaddr = first.sPaddr + (first.sSize + (earlier.map Scnhdr.sSize).sum)

def PreservesImage (coff noff : HostFile) : Prop :=
  ∃ noffH, readHeader noff = some noffH ∧ Image coff noff noffH

/-- The COFF files that are converted right. -/
structure Convertible (coff : HostFile) : Prop where
  sizes : SizesNonneg (sectionsOf coff)
  scnptr : ∀ s ∈ sectionsOf coff, ∀ k, s.Backed k → 0 ≤ s.sScnptr
  /-- Each byte is also in the last section of some name. -/
  kept : ∀ s ∈ sectionsOf coff, ∀ k, s.Backed k → ∀ j : ℕ, (j : ℤ) < s.sSize →
    ∃ k' t, lastOf k' (sectionsOf coff) = some t ∧ t.Covers (s.sPaddr + j) ∧
      t.byte coff (s.sPaddr + j - t.sPaddr).toNat = s.byte coff j
  bss : (bssOf (sectionsOf coff)).length ≤ 1

/-- When no name is used twice, only the sizes and the places in the file are left. -/
theorem convertible_of_once (hsizes : SizesNonneg (sectionsOf coff))
    (hscnptr : ∀ s ∈ sectionsOf coff, ∀ k, s.Backed k → 0 ≤ s.sScnptr)
    (honce : ∀ k, ((sectionsOf coff).filter fun s => s.Backed k).length ≤ 1)
    (hbss : (bssOf (sectionsOf coff)).length ≤ 1) : Convertible coff where
  sizes := hsizes
  scnptr := hscnptr
  kept s hs k hk j hj := by
    refine ⟨k, s, lastOf_of_once (honce k) hs hk, ⟨by omega, by omega⟩, ?_⟩
    rw [show (s.sPaddr + (j : ℤ) - s.sPaddr).toNat = j by omega]
  bss := hbss

theorem mem_fileBacked {noffH : NoffHeader} : segment ∈ noffH.fileBacked ↔
    ∃ k, segment = segmentOf noffH k := by
  simp only [NoffHeader.fileBacked, List.mem_cons, List.not_mem_nil, or_false]
  constructor
  · rintro (rfl | rfl | rfl)
    · exact ⟨.text, rfl⟩
    · exact ⟨.data, rfl⟩
    · exact ⟨.rdata, rfl⟩
  · rintro ⟨k, rfl⟩
    cases k <;> simp [segmentOf]

/-- Byte `j` of a segment in the output. -/
theorem Describes.output (h : Describes coff written t segment) (noffH : NoffHeader)
    (hptr : 0 ≤ t.sScnptr) {a : ℤ} (ha : t.Covers a) :
    segment.Contains a ∧ (headerBytes noffH ++ written)[(segment.inFileAddr +
      (a - segment.virtualAddr)).toNat]? = t.byte coff (a - t.sPaddr).toNat := by
  obtain ⟨hlow, hhigh⟩ := ha
  have hafter := h.afterHeader
  have hlength : (headerBytes noffH).length = sizeofNoffHeader := rfl
  rw [Segment.Contains, h.virtualAddr, h.size]
  refine ⟨⟨hlow, hhigh⟩, ?_⟩
  rw [List.getElem?_append_right (by omega), hlength, ← h.bytes hptr _ (by omega)]
  congr 1
  omega

/-- A segment with a size is about the last section of its name. -/
theorem Copied.describes (h : Copied coff sections c) (hsize : 0 < (segmentOf c.noffH k).size) :
    ∃ t, lastOf k sections = some t ∧ Describes coff c.written t (segmentOf c.noffH k) := by
  cases ht : lastOf k sections with
  | none =>
    rw [h.absent k ht] at hsize
    exact absurd hsize (lt_irrefl 0)
  | some t => exact ⟨t, rfl, h.last k t ht⟩

theorem Copied.fileApart (h : Copied coff sections c) : c.noffH.fileBacked.Pairwise FileApart := by
  have hcode := h.apart .text .data (by decide)
  have hcode' := h.apart .text .rdata (by decide)
  have hdata := h.apart .data .rdata (by decide)
  rw [NoffHeader.fileBacked]
  simp only [List.pairwise_cons, List.mem_cons, List.not_mem_nil, or_false]
  refine ⟨?_, ?_, ?_⟩
  · rintro segment (rfl | rfl)
    · exact hcode
    · exact hcode'
  · rintro segment rfl
    exact hdata
  · exact ⟨fun _ h => h.elim, List.Pairwise.nil⟩

/-- With one `.bss` section at most, `uninitData` is that section. -/
theorem contains_of_bssTaken {l : List Scnhdr} {uninitData : Segment} (h : BssTaken l uninitData)
    (hl : l.length ≤ 1) (a : ℤ) : uninitData.Contains a ↔ ∃ s ∈ l, s.Covers a := by
  unfold Segment.Contains
  cases l with
  | nil =>
    have hzero : uninitData.size = 0 := h
    simp only [List.not_mem_nil, false_and, exists_false, iff_false]
    omega
  | cons s rest =>
    cases rest with
    | nil =>
      obtain ⟨haddr, hsize⟩ : uninitData.virtualAddr = s.sPaddr ∧ uninitData.size = s.sSize := h
      simp only [List.mem_singleton, exists_eq_left, Scnhdr.Covers, haddr, hsize]
    | cons t rest => simp at hl

theorem Copied.convertible (h : Copied coff (sectionsOf coff) c)
    (hsizes : SizesNonneg (sectionsOf coff))
    (himage : Image coff (headerBytes c.noffH ++ c.written) c.noffH) : Convertible coff := by
  have hscnptr : ∀ s ∈ sectionsOf coff, ∀ k, s.Backed k → 0 ≤ s.sScnptr := by
    intro s hs k hk
    have hpos : 0 < s.sSize := lt_of_le_of_ne (hsizes s hs k hk) (Ne.symm hk.1)
    obtain ⟨b, hb, -⟩ := himage.stored s hs k hk 0 hpos
    by_contra hneg
    rw [Scnhdr.byte, if_neg hneg] at hb
    cases hb
  refine ⟨hsizes, hscnptr, ?_, ?_⟩
  · intro s hs k hk j hj
    obtain ⟨b, hb, segment, hsegment, hcontains, hbyte⟩ := himage.stored s hs k hk j hj
    obtain ⟨k', rfl⟩ := mem_fileBacked.mp hsegment
    have hsize : 0 < (segmentOf c.noffH k').size := by
      unfold Segment.Contains at hcontains
      omega
    obtain ⟨t, ht, hdescribes⟩ := h.describes hsize
    obtain ⟨hmem, hbacked⟩ := mem_of_lastOf ht
    have hcovers : t.Covers (s.sPaddr + j) := by
      rw [Scnhdr.Covers, ← hdescribes.virtualAddr, ← hdescribes.size]
      exact hcontains
    refine ⟨k', t, ht, hcovers, ?_⟩
    rw [hb, ← hbyte]
    exact (hdescribes.output c.noffH (hscnptr t hmem k' hbacked) hcovers).2.symm
  · by_contra hmany
    have htaken := h.bss
    rcases hbss : bssOf (sectionsOf coff) with - | ⟨s, - | ⟨t, rest⟩⟩
    · simp [hbss] at hmany
    · simp [hbss] at hmany
    · rw [hbss] at htaken
      have hnext := himage.contiguous s [] t rest hbss
      rw [List.map_nil, List.sum_nil, Int.add_zero] at hnext
      exact htaken hnext

theorem Copied.image (h : Copied coff (sectionsOf coff) c) (hc : Convertible coff) :
    Image coff (headerBytes c.noffH ++ c.written) c.noffH := by
  refine ⟨?_, ?_, h.fileApart, contains_of_bssTaken h.bss hc.bss, ?_⟩
  · intro s hs k hk j hj
    obtain ⟨k', t, ht, hcovers, hsame⟩ := hc.kept s hs k hk j hj
    obtain ⟨hmem, hbacked⟩ := mem_of_lastOf ht
    have hdescribes := h.last k' t ht
    obtain ⟨hcontains, hbyte⟩ := hdescribes.output c.noffH (hc.scnptr t hmem k' hbacked) hcovers
    rw [hsame] at hbyte
    have hafter := hdescribes.afterHeader
    have hin := hdescribes.inFile
    have hlength : (headerBytes c.noffH).length = sizeofNoffHeader := rfl
    have hlt : ((segmentOf c.noffH k').inFileAddr +
        (s.sPaddr + j - (segmentOf c.noffH k').virtualAddr)).toNat <
          (headerBytes c.noffH ++ c.written).length := by
      unfold Segment.Contains at hcontains
      rw [List.length_append, hlength]
      omega
    rw [List.getElem?_eq_getElem hlt] at hbyte
    refine ⟨_, hbyte.symm, _, mem_fileBacked.mpr ⟨k', rfl⟩, hcontains, ?_⟩
    exact List.getElem?_eq_getElem hlt
  · intro segment hsegment hsize
    obtain ⟨k, rfl⟩ := mem_fileBacked.mp hsegment
    obtain ⟨t, -, hdescribes⟩ := h.describes hsize
    refine ⟨hdescribes.afterHeader, hdescribes.inFile.trans ?_⟩
    rw [List.length_append]
    exact le_rfl
  · intro first earlier s later hbss
    have hone := hc.bss
    rw [hbss] at hone
    simp at hone

theorem convertible_of_preservesImage {stack noff : HostFile} (h : main coff stack = .ok noff)
    (hsizes : SizesNonneg (sectionsOf coff)) (hp : PreservesImage coff noff) :
    Convertible coff := by
  obtain ⟨c, hcopied, rfl⟩ := main_ok hsizes h
  obtain ⟨noffH, hnoffH, himage⟩ := hp
  rw [readHeader_headerBytes c.written hcopied.magic hcopied.fits.1 hcopied.fits.2] at hnoffH
  cases hnoffH
  exact hcopied.convertible hsizes himage

theorem preservesImage_of_convertible {stack noff : HostFile} (h : main coff stack = .ok noff)
    (hc : Convertible coff) : PreservesImage coff noff := by
  obtain ⟨c, hcopied, rfl⟩ := main_ok hc.sizes h
  exact ⟨c.noffH, readHeader_headerBytes c.written hcopied.magic hcopied.fits.1 hcopied.fits.2,
    hcopied.image hc⟩

/-- When `main` finishes, the image is preserved for the files that have no negative size, at most
one `.bss` section, and whose other sections are in the file and repeated by the last ones of their
names; and among the files without a negative size for no others. -/
theorem image_preserved {stack noff : HostFile} (h : main coff stack = .ok noff) :
    (Convertible coff → PreservesImage coff noff) ∧
    (SizesNonneg (sectionsOf coff) → (PreservesImage coff noff ↔ Convertible coff)) :=
  ⟨preservesImage_of_convertible h, fun hsizes =>
    ⟨convertible_of_preservesImage h hsizes, preservesImage_of_convertible h⟩⟩

/-- A section header. -/
def sectionBytes (name : HostFile) (paddr size scnptr : ℕ) : HostFile :=
  name ++ [paddr, paddr, size, scnptr].flatMap (Sim.storeBytes · 4) ++ List.replicate 16 0

/-- A COFF file with these section headers, and data. -/
def coffBytes (sections : List HostFile) (data : HostFile) : HostFile :=
  [0x62, 0x01, UInt8.ofNat sections.length, 0] ++ List.replicate 16 0 ++ [0x07, 0x01] ++
    List.replicate 54 0 ++ sections.flatten ++ data

def bssName : HostFile := [46, 98, 115, 115, 0, 0, 0, 0]
def textName : HostFile := [46, 116, 101, 120, 116, 0, 0, 0]
def dataName : HostFile := [46, 100, 97, 116, 97, 0, 0, 0]
def rdataName : HostFile := [46, 114, 100, 97, 116, 97, 0, 0]

/-- Code behind data, and uninitialized data. -/
def oneOfEach : HostFile :=
  coffBytes [sectionBytes dataName 128 2 198, sectionBytes bssName 256 8 0,
    sectionBytes textName 0 2 196] [1, 2, 3, 4]

theorem convertible_oneOfEach : Convertible oneOfEach :=
  convertible_of_once (by decide) (by decide) (fun k => by cases k <;> decide) (by decide)

set_option maxRecDepth 4096 in
theorem image_preserved_oneOfEach : ∃ noff, main oneOfEach [] = .ok noff ∧
    PreservesImage oneOfEach noff ∧ Convertible oneOfEach := by
  have hmain : main oneOfEach [] = .ok _ := rfl
  have himage := (image_preserved hmain).1 convertible_oneOfEach
  exact ⟨_, hmain, himage, ((image_preserved hmain).2 convertible_oneOfEach.sizes).mp himage⟩

def bssApart : HostFile := coffBytes [sectionBytes bssName 0 4 0, sectionBytes bssName 8 4 0] []

def bssNext : HostFile := coffBytes [sectionBytes bssName 0 4 0, sectionBytes bssName 4 4 0] []

def twoTexts : HostFile :=
  coffBytes [sectionBytes textName 0 2 156, sectionBytes textName 2 2 158] [1, 2, 3, 4]

/-- Read-only data, a section whose size is -1, and data. -/
def negativeSize : HostFile :=
  coffBytes [sectionBytes rdataName 0 2 196, sectionBytes textName 0 4294967295 196,
    sectionBytes dataName 2 2 198] [1, 2, 3, 4]

/-- No segment is left for address 0. -/
theorem not_convertible_twoTexts : ¬ Convertible twoTexts := by
  intro hc
  have hfirst : ∃ s ∈ sectionsOf twoTexts, s.Backed .text ∧ 0 < s.sSize ∧ s.sPaddr = 0 := by decide
  obtain ⟨s, hs, hbacked, hsize, hpaddr⟩ := hfirst
  obtain ⟨k, t, ht, hcovers, -⟩ := hc.kept s hs .text hbacked 0 hsize
  have hlast : ∀ k, (lastOf k (sectionsOf twoTexts)).all fun t => ¬ t.Covers 0 := by
    intro k
    cases k <;> decide
  have hnot := hlast k
  rw [ht, Option.all_some, decide_eq_true_eq] at hnot
  rw [hpaddr] at hcovers
  exact hnot hcovers

set_option maxRecDepth 4096 in
/-- Two `.bss` sections are merged when they are apart, and refused when one follows the other; the
first of two `.text` sections is in no segment; behind a section with size -1 the segments share a
byte of the file. -/
theorem main_loses_sections :
    (∃ noff, main bssApart [] = .ok noff ∧ ¬ PreservesImage bssApart noff) ∧
    main bssNext [] = .error .bothBss ∧
    (∃ noff, main twoTexts [] = .ok noff ∧ ¬ PreservesImage twoTexts noff) ∧
    ∃ noff, main negativeSize [] = .ok noff ∧ ¬ PreservesImage negativeSize noff := by
  have hbss : main bssApart [] = .ok _ := rfl
  have htexts : main twoTexts [] = .ok _ := rfl
  have hnegative : main negativeSize [] = .ok _ := rfl
  refine ⟨⟨_, hbss, fun hp => ?_⟩, rfl, ⟨_, htexts, fun hp => ?_⟩, ⟨_, hnegative, fun hp => ?_⟩⟩
  · have hone := (convertible_of_preservesImage hbss (by decide) hp).bss
    exact absurd hone (by decide)
  · exact not_convertible_twoTexts (convertible_of_preservesImage htexts (by decide) hp)
  · have hoverlap : (main negativeSize []).toOption.all fun noff =>
        (readHeader noff).all fun noffH => ¬ noffH.fileBacked.Pairwise FileApart := by
      decide +kernel
    obtain ⟨noffH, hnoffH, himage⟩ := hp
    rw [hnegative, Except.toOption, Option.all_some, hnoffH, Option.all_some,
      decide_eq_true_eq] at hoverlap
    exact hoverlap himage.apart

end Nachos.Coff2noff

import Nachos.Coff2noff.ImagePreserved

/-! From the COFF file to the memory of the machine: `coff2noff` converts a program, and the
constructor `AddrSpace(char*)` loads it. The linker puts the sections next to each other in the file
and in memory, the first of them at address 0. -/
namespace Nachos.Coff2noff

open Loader (physicalIndex byteThrough)

/-- The section has bytes in the file. -/
def Scnhdr.InFile (s : Scnhdr) : Prop := ∃ k, s.Backed k

instance (s : Scnhdr) : Decidable s.InFile :=
  decidable_of_iff (s.Backed .text ∨ s.Backed .data ∨ s.Backed .rdata) <| by
    constructor
    · rintro (h | h | h)
      · exact ⟨_, h⟩
      · exact ⟨_, h⟩
      · exact ⟨_, h⟩
    · rintro ⟨k, h⟩
      cases k with
      | text => exact .inl h
      | data => exact .inr (.inl h)
      | rdata => exact .inr (.inr h)

/-- From address `a` on, each section in the file begins where the one before it ends. -/
def Contiguous : ℤ → List Scnhdr → Prop
  | _, [] => True
  | a, s :: sections =>
    if s.InFile then s.sPaddr = a ∧ Contiguous (a + s.sSize) sections else Contiguous a sections

instance decidableContiguous : (a : ℤ) → (sections : List Scnhdr) →
    Decidable (Contiguous a sections)
  | _, [] => .isTrue trivial
  | a, s :: sections =>
    have := decidableContiguous (a + s.sSize) sections
    have := decidableContiguous a sections
    inferInstanceAs (Decidable (if s.InFile then _ else _))

/-- How many bytes the sections have in the file. -/
def imageSize (sections : List Scnhdr) : ℤ :=
  ((sections.filter fun s => s.InFile).map Scnhdr.sSize).sum

/-- A program as the linker leaves it. -/
structure LinkedProgram (coff : HostFile) : Prop where
  contiguous : Contiguous 0 (sectionsOf coff)
  /-- No name is used twice. -/
  once : ∀ k, ((sectionsOf coff).filter fun s => s.Backed k).length ≤ 1
  sizes : ∀ s ∈ sectionsOf coff, s.InFile → 0 ≤ s.sSize
  scnptr : ∀ s ∈ sectionsOf coff, s.InFile → 0 ≤ s.sScnptr
  bss : (bssOf (sectionsOf coff)).length ≤ 1
  /-- The uninitialized data comes last. -/
  above : ∀ s ∈ bssOf (sectionsOf coff), imageSize (sectionsOf coff) ≤ s.sPaddr ∧ 0 ≤ s.sSize

/-- The space shows the program: the bytes of its sections, and zeroes everywhere else. -/
structure InMemory (coff : HostFile) (space : AddrSpace) (mainMemory : ByteStore.Store) :
    Prop where
  sections : ∀ s ∈ sectionsOf coff, s.InFile → ∀ j : ℕ, (j : ℤ) < s.sSize →
    ∃ b, s.byte coff j = some b ∧ byteThrough space mainMemory (s.sPaddr + j) = some b
  zeroes : ∀ v : ℕ, v < space.numPages * PageSize →
    (∀ s ∈ sectionsOf coff, s.InFile → ¬ s.Covers v) → byteThrough space mainMemory v = some 0

section

variable {coff stack noff : HostFile} {s : Scnhdr} {done sections : List Scnhdr} {k : FileKind}
  {c c' : Conversion} {a : ℤ}

theorem imageSize_cons (s : Scnhdr) (sections : List Scnhdr) :
    imageSize (s :: sections) = (if s.InFile then s.sSize else 0) + imageSize sections := by
  unfold imageSize
  rw [List.filter_cons]
  by_cases h : s.InFile
  · simp [h]
  · simp [h]

/-- There is no address between the sections. -/
theorem Contiguous.covers (h : Contiguous a sections) {v : ℤ} (hlow : a ≤ v)
    (hhigh : v < a + imageSize sections) : ∃ s ∈ sections, s.InFile ∧ s.Covers v := by
  induction sections generalizing a with
  | nil =>
    have hzero : imageSize [] = 0 := rfl
    omega
  | cons s sections ih =>
    rw [imageSize_cons] at hhigh
    unfold Contiguous at h
    split_ifs at h hhigh with hs
    · obtain ⟨haddr, hrest⟩ := h
      by_cases hv : v < a + s.sSize
      · exact ⟨s, List.mem_cons_self, hs, by rw [haddr]; exact hlow, by rw [haddr]; exact hv⟩
      · obtain ⟨t, ht, hfile, hcovers⟩ := ih hrest (by omega) (by omega)
        exact ⟨t, List.mem_cons_of_mem s ht, hfile, hcovers⟩
    · obtain ⟨t, ht, hfile, hcovers⟩ := ih h hlow (by omega)
      exact ⟨t, List.mem_cons_of_mem s ht, hfile, hcovers⟩

/-- So far the output is laid out like memory. -/
structure LaidOut (a : ℤ) (c : Conversion) : Prop where
  length : (c.written.length : ℤ) = a
  offset : ∀ k, 0 < (segmentOf c.noffH k).size →
    (segmentOf c.noffH k).inFileAddr = (segmentOf c.noffH k).virtualAddr + sizeofNoffHeader

theorem LaidOut.step (h : LaidOut a c) (hcopied : Copied coff done c)
    (hnonneg : ∀ k, s.Backed k → 0 ≤ s.sSize) (haddr : s.InFile → s.sPaddr = a)
    (hcopy : copyIn coff c s = .ok c') :
    LaidOut (if s.InFile then a + s.sSize else a) c' := by
  unfold copyIn at hcopy
  split_ifs at hcopy with hsize
  · cases hcopy
    rw [if_neg fun hs => hs.elim fun _ hk => hk.1 hsize]
    exact h
  · split at hcopy
    · next k hkind =>
      have hs : s.InFile := ⟨k, hsize, hkind⟩
      obtain ⟨buffer, hlength, -, hwritten, -, -, hnoffH⟩ :=
        copySegment_ok (hnonneg k ⟨hsize, hkind⟩) hcopy
      rw [if_pos hs]
      refine ⟨?_, fun k' hk' => ?_⟩
      · have hbefore := h.length
        rw [hwritten, List.length_append]
        omega
      · rw [hnoffH] at hk' ⊢
        by_cases hkk : k' = k
        · have hplaced := hcopied.placed
          have hbefore := h.length
          rw [hkk, segmentOf_setSegment_self]
          show c.inNoffFile = s.sPaddr + sizeofNoffHeader
          rw [hplaced, haddr hs]
          omega
        · rw [segmentOf_setSegment_of_ne _ _ hkk] at hk' ⊢
          exact h.offset k' hk'
    · next hkind =>
      have hs : ¬ s.InFile := by
        rintro ⟨k, -, hk⟩
        cases hk.symm.trans hkind
      obtain ⟨hwritten, -, hsegments, -, -⟩ := Copied.addBss_ok hcopy
      rw [if_neg hs]
      refine ⟨hwritten ▸ h.length, fun k hk => ?_⟩
      rw [hsegments] at hk ⊢
      exact h.offset k hk
    · cases hcopy

/-- Contiguous sections end up in the output as they are in memory. -/
theorem LaidOut.run (h : LaidOut a c) (hcopied : Copied coff done c)
    (hcontiguous : Contiguous a sections) (hsizes : SizesNonneg sections)
    (hfits : ∀ s ∈ sections, s.Fits) (hcopy : copyAll coff c sections = .ok c') :
    LaidOut (a + imageSize sections) c' := by
  induction sections generalizing done c a with
  | nil =>
    cases hcopy
    rw [show imageSize [] = 0 from rfl, Int.add_zero]
    exact h
  | cons s sections ih =>
    obtain ⟨c₁, hone, hrest⟩ := bind_eq_ok.mp hcopy
    have hsize := hsizes s List.mem_cons_self
    have hnext := hcopied.step hsize (hfits s List.mem_cons_self) hone
    have hsizes' : SizesNonneg sections := fun t ht => hsizes t (List.mem_cons_of_mem s ht)
    have hfits' : ∀ t ∈ sections, t.Fits := fun t ht => hfits t (List.mem_cons_of_mem s ht)
    unfold Contiguous at hcontiguous
    rw [imageSize_cons]
    split_ifs at hcontiguous ⊢ with hs
    · have hstep := h.step hcopied hsize (fun _ => hcontiguous.1) hone
      rw [if_pos hs] at hstep
      rw [← Int.add_assoc]
      exact ih hstep hnext hcontiguous.2 hsizes' hfits' hrest
    · have hstep := h.step hcopied hsize (fun hfile => absurd hfile hs) hone
      rw [if_neg hs] at hstep
      rw [Int.zero_add]
      exact ih hstep hnext hcontiguous hsizes' hfits' hrest

/-- What the conversion of a linked program leaves. -/
structure Converted (coff : HostFile) (c : Conversion) : Prop where
  copied : Copied coff (sectionsOf coff) c
  laidOut : LaidOut (imageSize (sectionsOf coff)) c

theorem LinkedProgram.converted (hlinked : LinkedProgram coff) (h : main coff stack = .ok noff) :
    ∃ c, Converted coff c ∧ noff = headerBytes c.noffH ++ c.written := by
  obtain ⟨position, c, hcopy, hnoff⟩ := main_copies h
  have hfits : ∀ s ∈ sectionsOf coff, s.Fits := fun s hs => fits_of_mem_sectionsOf hs
  have hsizes : SizesNonneg (sectionsOf coff) := fun s hs k hk => hlinked.sizes s hs ⟨k, hk⟩
  have hinitial := copied_initial coff stack position
  have hstart : LaidOut 0 ⟨position, sizeofNoffHeader, [], initial stack⟩ := by
    refine ⟨rfl, fun k hk => ?_⟩
    have habsent := hinitial.absent k rfl
    exact absurd hk (by rw [habsent]; exact lt_irrefl 0)
  have hlaid := hstart.run hinitial hlinked.contiguous hsizes hfits hcopy
  rw [Int.zero_add] at hlaid
  exact ⟨c, ⟨hinitial.run hsizes hfits hcopy, hlaid⟩, hnoff⟩

/-- The section behind a segment with bytes. -/
theorem Converted.segment (h : Converted coff c) (hsize : 0 < (segmentOf c.noffH k).size) :
    (segmentOf c.noffH k).inFileAddr = (segmentOf c.noffH k).virtualAddr + sizeofNoffHeader ∧
      0 ≤ (segmentOf c.noffH k).virtualAddr ∧
      (segmentOf c.noffH k).virtualAddr + (segmentOf c.noffH k).size ≤
        imageSize (sectionsOf coff) := by
  obtain ⟨t, -, hdescribes⟩ := h.copied.describes hsize
  have hoffset := h.laidOut.offset k hsize
  have hafter := hdescribes.afterHeader
  have hin := hdescribes.inFile
  have hlength := h.laidOut.length
  exact ⟨hoffset, by omega, by omega⟩

theorem Converted.uninitData (h : Converted coff c) (hlinked : LinkedProgram coff) :
    0 ≤ c.noffH.uninitData.size ∧ (0 < c.noffH.uninitData.size →
      imageSize (sectionsOf coff) ≤ c.noffH.uninitData.virtualAddr) := by
  have htaken := h.copied.bss
  have hone := hlinked.bss
  have habove := hlinked.above
  rcases hbss : bssOf (sectionsOf coff) with - | ⟨s, - | ⟨t, rest⟩⟩
  · rw [hbss] at htaken
    have hzero : c.noffH.uninitData.size = 0 := htaken
    omega
  · rw [hbss] at htaken habove
    obtain ⟨haddr, hsize⟩ : c.noffH.uninitData.virtualAddr = s.sPaddr ∧
      c.noffH.uninitData.size = s.sSize := htaken
    obtain ⟨hstart, hnonneg⟩ := habove s (List.mem_singleton_self s)
    omega
  · simp [hbss] at hone

/-- The output is a file that the loader's constructor is made for. -/
theorem Converted.wellPlaced (h : Converted coff c) (hlinked : LinkedProgram coff) :
    Loader.WellPlaced (headerBytes c.noffH ++ c.written) c.noffH := by
  have hlength : (headerBytes c.noffH).length = sizeofNoffHeader := rfl
  have hsize (k : FileKind) : 0 ≤ (segmentOf c.noffH k).size := by
    cases ht : Coff2noff.lastOf k (sectionsOf coff) with
    | none => exact (h.copied.absent k ht).ge
    | some t =>
      have hdescribes := h.copied.last k t ht
      rw [hdescribes.size]
      exact hdescribes.pos.le
  have hapart (k k' : FileKind) (hne : k ≠ k') :
      (segmentOf c.noffH k).Apart (segmentOf c.noffH k') := by
    have hfile := h.copied.apart k k' hne
    unfold Segment.Apart
    unfold FileApart at hfile
    by_cases hk : 0 < (segmentOf c.noffH k).size
    · by_cases hk' : 0 < (segmentOf c.noffH k').size
      · have hoffset := h.laidOut.offset k hk
        have hoffset' := h.laidOut.offset k' hk'
        omega
      · exact .inr (.inl (not_lt.mp hk'))
    · exact .inl (not_lt.mp hk)
  obtain ⟨huninit, habove⟩ := h.uninitData hlinked
  have hapart' (k : FileKind) : (segmentOf c.noffH k).Apart c.noffH.uninitData := by
    unfold Segment.Apart
    by_cases hk : 0 < (segmentOf c.noffH k).size
    · by_cases hu : 0 < c.noffH.uninitData.size
      · obtain ⟨-, -, hend⟩ := h.segment hk
        have hstart := habove hu
        omega
      · exact .inr (.inl (not_lt.mp hu))
    · exact .inl (not_lt.mp hk)
  refine ⟨?_, ?_, ?_⟩
  · intro segment hsegment
    rcases List.mem_append.mp hsegment with hfile | hbss
    · obtain ⟨k, rfl⟩ := mem_fileBacked.mp hfile
      exact hsize k
    · rw [List.mem_singleton.mp hbss]
      exact huninit
  · intro segment hsegment hpos
    obtain ⟨k, rfl⟩ := mem_fileBacked.mp hsegment
    obtain ⟨t, -, hdescribes⟩ := h.copied.describes hpos
    have hafter := hdescribes.afterHeader
    have hin := hdescribes.inFile
    rw [List.length_append, hlength]
    exact ⟨by omega, hin⟩
  · refine List.pairwise_append.mpr ⟨?_, List.pairwise_singleton .., ?_⟩
    · simp only [NoffHeader.fileBacked, List.pairwise_cons, List.mem_cons, List.not_mem_nil,
        or_false]
      refine ⟨?_, ?_, ?_⟩
      · rintro segment (rfl | rfl)
        · exact hapart .text .data (by decide)
        · exact hapart .text .rdata (by decide)
      · rintro segment rfl
        exact hapart .data .rdata (by decide)
      · exact ⟨fun _ h => h.elim, List.Pairwise.nil⟩
    · intro segment hsegment uninit hbss
      obtain ⟨k, rfl⟩ := mem_fileBacked.mp hsegment
      rw [List.mem_singleton.mp hbss]
      exact hapart' k

/-- The byte of the output that goes with an address of the program. -/
theorem Converted.byte (h : Converted coff c) (hlinked : LinkedProgram coff)
    (hs : s ∈ sectionsOf coff) (hfile : s.InFile) {j : ℕ} (hj : (j : ℤ) < s.sSize) :
    0 ≤ s.sPaddr ∧ ∃ k, (segmentOf c.noffH k).Contains (s.sPaddr + j) ∧
      (headerBytes c.noffH ++ c.written)[((segmentOf c.noffH k).inFileAddr +
        (s.sPaddr + j - (segmentOf c.noffH k).virtualAddr)).toNat]? = s.byte coff j ∧
      (s.byte coff j).isSome = true := by
  obtain ⟨k, hk⟩ := hfile
  have hdescribes := h.copied.last k s (lastOf_of_once (hlinked.once k) hs hk)
  have hpos : 0 < (segmentOf c.noffH k).size := by
    rw [hdescribes.size]
    exact hdescribes.pos
  obtain ⟨-, hlow, -⟩ := h.segment hpos
  obtain ⟨hcontains, hbyte⟩ := hdescribes.output c.noffH (hlinked.scnptr s hs ⟨k, hk⟩)
    (a := s.sPaddr + j) ⟨by omega, by omega⟩
  rw [show (s.sPaddr + (j : ℤ) - s.sPaddr).toNat = j by omega] at hbyte
  refine ⟨hdescribes.virtualAddr ▸ hlow, k, hcontains, hbyte, ?_⟩
  rw [← hbyte]
  have hlength : (headerBytes c.noffH).length = sizeofNoffHeader := rfl
  have hin := hdescribes.inFile
  have hafter := hdescribes.afterHeader
  unfold Segment.Contains at hcontains
  refine Option.isSome_iff_exists.mpr ⟨_, List.getElem?_eq_getElem ?_⟩
  rw [List.length_append, hlength]
  omega

variable {noffH : NoffHeader} {bm bm' : Bitmap NumPhysPages} {space : AddrSpace}
  {writes : List ByteStore.Patch}

theorem checkedHeader_output (h : Converted coff c) :
    AddrSpace.checkedHeader (headerBytes c.noffH ++ c.written) = some c.noffH := by
  rw [AddrSpace.checkedHeader, readHeader_headerBytes c.written h.copied.magic h.copied.fits.1
    h.copied.fits.2]
  exact if_pos h.copied.magic

/-- What a loaded space shows where everything lands right. -/
theorem byteThrough_loaded (hh : AddrSpace.checkedHeader noff = some noffH)
    (hl : AddrSpace.new (some noff) bm = some (.loaded space bm' writes))
    (hright : Loader.LandsRight noff noffH
      (AddrSpace.chosenFrames bm (AddrSpace.pagesNeeded noffH)))
    (m : ByteStore.Store) {v : ℕ} (hv : v < space.numPages * PageSize) :
    byteThrough space (ByteStore.patchAll m writes) v =
      some (Loader.belonging noff noffH v) := by
  obtain ⟨hload⟩ := Loader.loadedBy_of_new hh hl
  have hlen : (AddrSpace.chosenFrames bm (AddrSpace.pagesNeeded noffH)).length ≤ NumPhysPages :=
    Loader.length_chosenFrames_le
  have hpages : space.numPages =
      (AddrSpace.chosenFrames bm (AddrSpace.pagesNeeded noffH)).length := by
    rw [hload.space_eq, AddrSpace.numPages, AddrSpace.length_tableOf]
  rw [hpages] at hv
  have hle := Nat.mul_le_mul_right PageSize hlen
  have hthrough := Loader.byteThrough_tableOf Loader.chosenFrames_lt hlen
    (ByteStore.patchAll m writes) (v := v) (by omega) (by
      unfold NumPhysPages PageSize at hle
      unfold PageSize at hv
      omega)
  rw [if_pos ⟨Int.natCast_nonneg v, Int.ofNat_lt.mpr hv⟩, Int.toNat_natCast] at hthrough
  rw [hload.space_eq, hthrough,
    Loader.patchAll_writes hload (Loader.checkedHeader_range hh) ?_ m hv, hright.lands v hv]
  intro segment hs hsize
  obtain ⟨h0, h1⟩ := hright.inside segment hs hsize
  unfold MemorySize
  exact ⟨h0, by omega⟩

/-- With the frames next to each other, the output of the conversion lands right. -/
theorem Converted.landsRight (h : Converted coff c) (hlinked : LinkedProgram coff) (first : ℕ)
    {n : ℕ} (hroom : imageSize (sectionsOf coff) ≤ (n * PageSize : ℕ)) :
    Loader.LandsRight (headerBytes c.noffH ++ c.written) c.noffH (List.range' first n) := by
  refine Loader.landsRight_range' (d := sizeofNoffHeader) (h.wellPlaced hlinked) ?_ ?_ ?_
  · intro segment hsegment hsize
    obtain ⟨k, rfl⟩ := mem_fileBacked.mp hsegment
    obtain ⟨-, hlow, hend⟩ := h.segment hsize
    exact ⟨hlow, hend.trans hroom⟩
  · intro segment hsegment hsize
    obtain ⟨k, rfl⟩ := mem_fileBacked.mp hsegment
    exact (h.segment hsize).1
  · -- past the image the file has ended, and inside it every address has a segment
    intro v hnone
    have hlength := h.laidOut.length
    by_cases hv : (v : ℤ) < imageSize (sectionsOf coff)
    · obtain ⟨s, hs, hfile, hcovers⟩ :=
        hlinked.contiguous.covers (Int.natCast_nonneg v) (by omega)
      obtain ⟨hlow, hhigh⟩ := hcovers
      obtain ⟨-, k, hcontains, -⟩ :=
        h.byte hlinked hs hfile (j := (v - s.sPaddr).toNat) (by omega)
      rw [show s.sPaddr + ((v - s.sPaddr).toNat : ℤ) = v by omega] at hcontains
      exact absurd hcontains (hnone _ (mem_fileBacked.mpr ⟨k, rfl⟩))
    · have hheader : (headerBytes c.noffH).length = sizeofNoffHeader := rfl
      rw [List.getD_eq_getElem?_getD, List.getElem?_eq_none]
      · rfl
      · rw [List.length_append, hheader]
        omega

/-- A linked program that `coff2noff` has converted and the constructor has loaded, into frames that
lie next to each other and are enough for its sections, is in the memory of the machine as it is in
the COFF file; the rest of its space is zero. -/
theorem linked_program_loaded (hmain : main coff stack = .ok noff) (hlinked : LinkedProgram coff)
    (hload : AddrSpace.new (some noff) bm = some (.loaded space bm' writes)) (first : ℕ)
    (hframes : AddrSpace.chosenFrames bm space.numPages = List.range' first space.numPages)
    (hroom : imageSize (sectionsOf coff) ≤ (space.numPages * PageSize : ℕ))
    (m : ByteStore.Store) : InMemory coff space (ByteStore.patchAll m writes) := by
  obtain ⟨c, h, rfl⟩ := hlinked.converted hmain
  have hheader := checkedHeader_output h
  have hpages : space.numPages = AddrSpace.pagesNeeded c.noffH := by
    obtain ⟨hloaded⟩ := Loader.loadedBy_of_new hheader hload
    rw [hloaded.space_eq, AddrSpace.numPages, AddrSpace.length_tableOf,
      hloaded.length_chosenFrames]
  have hright := h.landsRight hlinked first hroom
  rw [← hframes, hpages] at hright
  have hshows {v : ℕ} (hv : v < space.numPages * PageSize) :=
    byteThrough_loaded hheader hload hright m hv
  refine ⟨?_, ?_⟩
  · intro s hs hfile j hj
    obtain ⟨hlow, k, hcontains, hbyte, hsome⟩ := h.byte hlinked hs hfile hj
    obtain ⟨b, hb⟩ := Option.isSome_iff_exists.mp hsome
    rw [hb] at hbyte
    obtain ⟨v, hv⟩ := Int.eq_ofNat_of_zero_le (show 0 ≤ s.sPaddr + j by omega)
    have hsegment : segmentOf c.noffH k ∈ c.noffH.fileBacked := mem_fileBacked.mpr ⟨k, rfl⟩
    have hend : (v : ℤ) < (space.numPages * PageSize : ℕ) := by
      unfold Segment.Contains at hcontains
      obtain ⟨-, -, hlast⟩ := h.segment (k := k) (by omega)
      omega
    refine ⟨b, hb, ?_⟩
    rw [hv, hshows (Int.ofNat_lt.mp hend), Loader.belonging_of_contains (h.wellPlaced hlinked)
      hsegment (hv ▸ hcontains), ← hv, List.getD_eq_getElem?_getD, hbyte]
    rfl
  · intro v hv hnone
    rw [hshows hv, Loader.belonging_of_not_contains]
    intro segment hsegment hcontains
    obtain ⟨k, rfl⟩ := mem_fileBacked.mp hsegment
    obtain ⟨t, ht, hdescribes⟩ := h.copied.describes (k := k) (by
      unfold Segment.Contains at hcontains
      omega)
    obtain ⟨hmem, hbacked⟩ := mem_of_lastOf ht
    refine hnone t hmem ⟨k, hbacked⟩ ?_
    rw [Scnhdr.Covers, ← hdescribes.virtualAddr, ← hdescribes.size]
    exact hcontains

end

/-- Two instructions, a word of constants, one of data, and two that are not initialized. -/
def smallProgram : HostFile :=
  coffBytes [sectionBytes textName 0 8 236, sectionBytes rdataName 8 4 244,
    sectionBytes dataName 12 4 248, sectionBytes bssName 16 8 0]
    [7, 0, 2, 36, 64, 0, 2, 172, 1, 2, 3, 4, 5, 6, 7, 8]

theorem linkedProgram_smallProgram : LinkedProgram smallProgram where
  contiguous := by decide +kernel
  once k := by cases k <;> decide +kernel
  sizes := by decide +kernel
  scnptr := by decide +kernel
  bss := by decide +kernel
  above := by decide +kernel

theorem linked_program_loaded_smallProgram : ∃ noff bm space bm' writes,
    main smallProgram [] = .ok noff ∧ Bitmap.new NumPhysPages = some bm ∧
    AddrSpace.new (some noff) bm = some (.loaded space bm' writes) ∧ space.numPages = 33 ∧
    ∀ m, InMemory smallProgram space (ByteStore.patchAll m writes) := by
  obtain ⟨bm, hbm, -⟩ := Bitmap.new_spec (n := NumPhysPages) (by decide)
  have hpages : (main smallProgram []).toOption.any (fun noff => (Bitmap.new NumPhysPages).any
      fun bm => (AddrSpace.new (some noff) bm).any fun
        | .loaded space _ _ => space.numPages = 33
        | _ => false) = true := by
    decide +kernel
  cases hmain : main smallProgram [] with
  | error e =>
    rw [hmain] at hpages
    cases hpages
  | ok noff =>
    rw [hmain, hbm] at hpages
    cases hload : AddrSpace.new (some noff) bm with
    | none => simp [Except.toOption, hload] at hpages
    | some result =>
      cases result with
      | notOpened => simp [Except.toOption, hload] at hpages
      | refused => simp [Except.toOption, hload] at hpages
      | loaded space bm' writes =>
        have hnum : space.numPages = 33 := by simpa [Except.toOption, hload] using hpages
        refine ⟨noff, bm, space, bm', writes, rfl, hbm, hload, hnum, fun m => ?_⟩
        refine linked_program_loaded hmain linkedProgram_smallProgram hload 0 ?_ ?_ m
        · rw [hnum]
          exact Loader.chosenFrames_new hbm (by decide)
        · rw [hnum]
          decide +kernel

end Nachos.Coff2noff

import Nachos.Coff2noff.Conversion

/-! What the loop over the sections has done: the header says where each of them is, as long as no
other one of its name comes after it. -/
namespace Nachos.Coff2noff

/-- A section with bytes in the file. -/
def Scnhdr.Backed (s : Scnhdr) (k : FileKind) : Prop := s.sSize ≠ 0 ∧ s.kind = .file k

instance (s : Scnhdr) (k : FileKind) : Decidable (s.Backed k) := inferInstanceAs (Decidable (_ ∧ _))

def Scnhdr.Bss (s : Scnhdr) : Prop := s.sSize ≠ 0 ∧ s.kind = .bss

instance (s : Scnhdr) : Decidable s.Bss := inferInstanceAs (Decidable (_ ∧ _))

/-- The address is in the section. -/
def Scnhdr.Covers (s : Scnhdr) (a : ℤ) : Prop := s.sPaddr ≤ a ∧ a < s.sPaddr + s.sSize

instance (s : Scnhdr) (a : ℤ) : Decidable (s.Covers a) := inferInstanceAs (Decidable (_ ∧ _))

/-- Byte `j` of a section. -/
def Scnhdr.byte (s : Scnhdr) (coff : HostFile) (j : ℕ) : Option UInt8 :=
  if 0 ≤ s.sScnptr then coff[s.sScnptr.toNat + j]? else none

/-- The last section of a name. -/
def lastOf (k : FileKind) (sections : List Scnhdr) : Option Scnhdr :=
  (sections.filter fun s => s.Backed k).getLast?

def bssOf (sections : List Scnhdr) : List Scnhdr := sections.filter fun s => s.Bss

variable {coff written buffer : HostFile} {s t : Scnhdr} {done sections : List Scnhdr}
  {k k' : FileKind} {c c' : Conversion} {segment : Segment}

theorem lastOf_append (done : List Scnhdr) (s : Scnhdr) (k : FileKind) :
    lastOf k (done ++ [s]) = if s.Backed k then some s else lastOf k done := by
  unfold lastOf
  rw [List.filter_append, List.filter_singleton]
  by_cases h : s.Backed k
  · simp [h]
  · simp [h]

theorem mem_of_lastOf (h : lastOf k sections = some t) : t ∈ sections ∧ t.Backed k := by
  have hmem := List.mem_of_getLast? h
  rw [List.mem_filter, decide_eq_true_eq] at hmem
  exact hmem

/-- A name that is used once. -/
theorem lastOf_of_once (honce : (sections.filter fun s => s.Backed k).length ≤ 1)
    (hs : s ∈ sections) (hk : s.Backed k) : lastOf k sections = some s := by
  have hmem : s ∈ sections.filter fun s => s.Backed k :=
    List.mem_filter.mpr ⟨hs, decide_eq_true hk⟩
  unfold lastOf
  cases hl : sections.filter fun s => s.Backed k with
  | nil =>
    rw [hl] at hmem
    cases hmem
  | cons t rest =>
    rw [hl] at hmem honce
    obtain rfl : rest = [] := by
      cases rest with
      | nil => rfl
      | cons u rest => simp at honce
    rw [List.mem_singleton.mp hmem]
    rfl

@[simp] theorem segmentOf_setSegment_self (noffH : NoffHeader) (k : FileKind) (segment : Segment) :
    segmentOf (setSegment noffH k segment) k = segment := by
  cases k <;> rfl

theorem segmentOf_setSegment_of_ne (noffH : NoffHeader) (segment : Segment) (h : k' ≠ k) :
    segmentOf (setSegment noffH k segment) k' = segmentOf noffH k' := by
  cases k <;> cases k' <;> first | rfl | exact absurd rfl h

@[simp] theorem uninitData_setSegment (noffH : NoffHeader) (k : FileKind) (segment : Segment) :
    (setSegment noffH k segment).uninitData = noffH.uninitData := by
  cases k <;> rfl

/-- The segment is about the section, and the bytes of the section are where it says. -/
structure Describes (coff written : HostFile) (t : Scnhdr) (segment : Segment) : Prop where
  virtualAddr : segment.virtualAddr = t.sPaddr
  size : segment.size = t.sSize
  pos : 0 < t.sSize
  afterHeader : (sizeofNoffHeader : ℤ) ≤ segment.inFileAddr
  inFile : segment.inFileAddr + segment.size ≤ (sizeofNoffHeader + written.length : ℕ)
  bytes : 0 ≤ t.sScnptr → ∀ j : ℕ, (j : ℤ) < t.sSize →
    written[(segment.inFileAddr - sizeofNoffHeader).toNat + j]? = t.byte coff j

theorem Describes.append (h : Describes coff written t segment) (buffer : HostFile) :
    Describes coff (written ++ buffer) t segment where
  virtualAddr := h.virtualAddr
  size := h.size
  pos := h.pos
  afterHeader := h.afterHeader
  inFile := by
    have hin := h.inFile
    rw [List.length_append]
    omega
  bytes hptr j hj := by
    have hin := h.inFile
    have hafter := h.afterHeader
    have hsize := h.size
    rw [← h.bytes hptr j hj, List.getElem?_append_left]
    omega

/-- The file ranges have no byte in common. -/
def FileApart (a b : Segment) : Prop :=
  a.size ≤ 0 ∨ b.size ≤ 0 ∨ a.inFileAddr + a.size ≤ b.inFileAddr ∨
    b.inFileAddr + b.size ≤ a.inFileAddr

instance (a b : Segment) : Decidable (FileApart a b) := inferInstanceAs (Decidable (_ ∨ _))

theorem FileApart.symm {a b : Segment} (h : FileApart a b) : FileApart b a := by
  unfold FileApart at h ⊢
  omega

/-- What `uninitData` is after the `.bss` sections. The second one does not begin where the first
one ends. -/
def BssTaken : List Scnhdr → Segment → Prop
  | [], uninitData => uninitData.size = 0
  | [s], uninitData => uninitData.virtualAddr = s.sPaddr ∧ uninitData.size = s.sSize
  | s :: t :: _, _ => t.sPaddr ≠ s.sPaddr + s.sSize

def SegmentFits (segment : Segment) : Prop :=
  FitsInt segment.virtualAddr ∧ FitsInt segment.inFileAddr ∧ FitsInt segment.size

/-- No section in the file has a negative size. -/
def SizesNonneg (sections : List Scnhdr) : Prop :=
  ∀ s ∈ sections, ∀ k, s.Backed k → 0 ≤ s.sSize

instance (sections : List Scnhdr) : Decidable (SizesNonneg sections) :=
  inferInstanceAs (Decidable (∀ s ∈ sections, _))

/-- What holds when the sections in `done` have been copied in, none of them with a negative
size. -/
structure Copied (coff : HostFile) (done : List Scnhdr) (c : Conversion) : Prop where
  placed : c.inNoffFile = (sizeofNoffHeader + c.written.length : ℕ)
  small : c.inNoffFile < 2 ^ 31
  absent : ∀ k, lastOf k done = none → (segmentOf c.noffH k).size = 0
  last : ∀ k t, lastOf k done = some t → Describes coff c.written t (segmentOf c.noffH k)
  apart : ∀ k k', k ≠ k' → FileApart (segmentOf c.noffH k) (segmentOf c.noffH k')
  bss : BssTaken (bssOf done) c.noffH.uninitData
  magic : c.noffH.noffMagic = NOFFMAGIC
  fits : (∀ k, SegmentFits (segmentOf c.noffH k)) ∧ SegmentFits c.noffH.uninitData

theorem bind_eq_ok {α β : Type} {x : Except Failure α} {f : α → Except Failure β} {b : β} :
    (x >>= f) = .ok b ↔ ∃ a, x = .ok a ∧ f a = .ok b := by
  cases x with
  | error e => simp [bind, Except.bind]
  | ok a => simp [bind, Except.bind]

theorem read_ok {file : HostFile} {position next : ℕ} {nBytes : ℤ} (hsize : 0 ≤ nBytes)
    (h : read file position nBytes = .ok (buffer, next)) :
    position + nBytes.toNat ≤ file.length ∧
      buffer = (file.drop position).take nBytes.toNat ∧ next = position + nBytes.toNat := by
  unfold read at h
  rw [if_neg (by omega)] at h
  split at h
  next hlong =>
    cases h
    exact ⟨hlong.2, rfl, rfl⟩
  · cases h

theorem write_ok {after : HostFile} {nBytes : ℤ} (hsize : 0 ≤ nBytes)
    (h : write written buffer nBytes = .ok after) :
    after = written ++ buffer ∧ (sizeofNoffHeader + after.length : ℕ) < 2 ^ 31 := by
  unfold write at h
  rw [if_neg (by omega)] at h
  split at h
  next hfits =>
    cases h
    refine ⟨rfl, ?_⟩
    rw [List.length_append]
    omega
  · cases h

/-- What `copySegment` does. -/
theorem copySegment_ok (hsize : 0 ≤ s.sSize) (h : copySegment coff c s k = .ok c') :
    ∃ buffer : HostFile, (buffer.length : ℤ) = s.sSize ∧
      (0 ≤ s.sScnptr → ∀ j : ℕ, (j : ℤ) < s.sSize → buffer[j]? = s.byte coff j) ∧
      c'.written = c.written ++ buffer ∧ (sizeofNoffHeader + c'.written.length : ℕ) < 2 ^ 31 ∧
      c'.inNoffFile = c.inNoffFile + s.sSize ∧
      c'.noffH = setSegment c.noffH k ⟨s.sPaddr, c.inNoffFile, s.sSize⟩ := by
  obtain ⟨⟨buffer, next⟩, hread, h⟩ := bind_eq_ok.mp h
  obtain ⟨after, hwrite, h⟩ := bind_eq_ok.mp h
  cases h
  obtain ⟨hlong, rfl, -⟩ := read_ok hsize hread
  obtain ⟨hafter, hsmall⟩ := write_ok hsize hwrite
  refine ⟨_, ?_, ?_, hafter, hsmall, rfl, rfl⟩
  · rw [List.length_take, List.length_drop]
    omega
  · intro hptr j hj
    rw [List.getElem?_take_of_lt (by omega), List.getElem?_drop, if_pos hptr, Scnhdr.byte,
      if_pos hptr]

theorem bssOf_append (done : List Scnhdr) (s : Scnhdr) :
    bssOf (done ++ [s]) = bssOf done ++ if s.Bss then [s] else [] := by
  unfold bssOf
  rw [List.filter_append, List.filter_singleton]
  simp

/-- The fields of a section header are `int`s. -/
def Scnhdr.Fits (s : Scnhdr) : Prop := FitsInt s.sPaddr ∧ FitsInt s.sSize

namespace Copied

/-- A section that is not in the file changes nothing for the segments that are. -/
theorem lastOf_skip (done : List Scnhdr) (hs : ∀ k, ¬ s.Backed k) (k : FileKind) :
    lastOf k (done ++ [s]) = lastOf k done := by
  rw [lastOf_append, if_neg (hs k)]

theorem empty (h : Copied coff done c) (hs : s.sSize = 0) : Copied coff (done ++ [s]) c := by
  have hlast := lastOf_skip done fun k (hk : s.Backed k) => hk.1 hs
  have hbss : bssOf (done ++ [s]) = bssOf done := by
    rw [bssOf_append, if_neg fun hb => hb.1 hs, List.append_nil]
  exact { h with
    absent := fun k hk => h.absent k (hlast k ▸ hk)
    last := fun k t hk => h.last k t (hlast k ▸ hk)
    bss := hbss ▸ h.bss }

/-- The segments end before the place of the next one. -/
theorem fileApart_next (h : Copied coff done c) (k : FileKind) (virtualAddr size : ℤ) :
    FileApart (segmentOf c.noffH k) ⟨virtualAddr, c.inNoffFile, size⟩ := by
  have hold := h.placed
  cases hend : lastOf k done with
  | none => exact .inl (h.absent k hend).le
  | some t =>
    have hin := (h.last k t hend).inFile
    refine .inr (.inr (.inl ?_))
    show _ ≤ c.inNoffFile
    omega

/-- The section that has just been copied is at the end of the output. -/
theorem describes_next (h : Copied coff done c) {buffer : HostFile}
    (hlength : (buffer.length : ℤ) = s.sSize) (hpos : 0 < s.sSize)
    (hbytes : 0 ≤ s.sScnptr → ∀ j : ℕ, (j : ℤ) < s.sSize → buffer[j]? = s.byte coff j) :
    Describes coff (c.written ++ buffer) s ⟨s.sPaddr, c.inNoffFile, s.sSize⟩ := by
  have hold := h.placed
  refine ⟨rfl, rfl, hpos, ?_, ?_, fun hptr j hj => ?_⟩
  · dsimp only
    omega
  · rw [List.length_append]
    dsimp only
    omega
  · have hstart : (c.inNoffFile - sizeofNoffHeader).toNat = c.written.length := by omega
    dsimp only
    rw [hstart, List.getElem?_append_right (Nat.le_add_right _ _), Nat.add_sub_cancel_left,
      hbytes hptr j hj]

theorem file (h : Copied coff done c) (hs : s.Backed k) (hsize : 0 ≤ s.sSize) (hfits : s.Fits)
    (hcopy : copySegment coff c s k = .ok c') : Copied coff (done ++ [s]) c' := by
  obtain ⟨buffer, hlength, hbytes, hwritten, hsmall, hplaced, hnoffH⟩ :=
    copySegment_ok hsize hcopy
  have hold := h.placed
  have hself : segmentOf c'.noffH k = ⟨s.sPaddr, c.inNoffFile, s.sSize⟩ := by
    rw [hnoffH, segmentOf_setSegment_self]
  have hother {k' : FileKind} (hk : k' ≠ k) : segmentOf c'.noffH k' = segmentOf c.noffH k' := by
    rw [hnoffH, segmentOf_setSegment_of_ne _ _ hk]
  have hlast {k' : FileKind} (hk : k' ≠ k) : lastOf k' (done ++ [s]) = lastOf k' done := by
    rw [lastOf_append, if_neg]
    rintro ⟨-, hkind⟩
    rw [hs.2] at hkind
    cases hkind
    exact hk rfl
  have hbss : bssOf (done ++ [s]) = bssOf done := by
    have hkind : ¬ s.Bss := fun hb => by cases hb.2.symm.trans hs.2
    rw [bssOf_append, if_neg hkind, List.append_nil]
  constructor
  case placed =>
    rw [hplaced, hwritten, List.length_append]
    omega
  case small =>
    rw [hwritten, List.length_append] at hsmall
    omega
  case absent =>
    intro k' hk'
    by_cases hk : k' = k
    · subst hk
      rw [lastOf_append, if_pos hs] at hk'
      cases hk'
    · rw [hother hk]
      exact h.absent k' (hlast hk ▸ hk')
  case last =>
    intro k' t ht
    by_cases hk : k' = k
    · subst hk
      rw [lastOf_append, if_pos hs] at ht
      cases ht
      rw [hself, hwritten]
      exact h.describes_next hlength (lt_of_le_of_ne hsize (Ne.symm hs.1)) hbytes
    · rw [hother hk, hwritten]
      exact (h.last k' t (hlast hk ▸ ht)).append buffer
  case apart =>
    intro k₁ k₂ hne
    by_cases hk₁ : k₁ = k
    · subst hk₁
      rw [hself, hother (Ne.symm hne)]
      exact (h.fileApart_next k₂ _ _).symm
    · by_cases hk₂ : k₂ = k
      · subst hk₂
        rw [hself, hother hne]
        exact h.fileApart_next k₁ _ _
      · rw [hother hk₁, hother hk₂]
        exact h.apart k₁ k₂ hne
  case bss =>
    rw [hbss, hnoffH, uninitData_setSegment]
    exact h.bss
  case magic =>
    rw [hnoffH]
    cases k <;> exact h.magic
  case fits =>
    refine ⟨fun k' => ?_, ?_⟩
    · by_cases hk : k' = k
      · subst hk
        rw [hself]
        refine ⟨hfits.1, ⟨?_, h.small⟩, hfits.2⟩
        dsimp only
        omega
      · rw [hother hk]
        exact h.fits.1 k'
    · rw [hnoffH, uninitData_setSegment]
      exact h.fits.2

/-- A second `.bss` section is merged when it does not follow the first. -/
theorem bssTaken_addBss (h : BssTaken (bssOf done) c.noffH.uninitData)
    (hadd : addBss c s = .ok c') : BssTaken (bssOf done ++ [s]) c'.noffH.uninitData := by
  have hnonempty : ∀ t ∈ bssOf done, t.sSize ≠ 0 := by
    intro t ht
    have hbss := (List.mem_filter.mp ht).2
    rw [decide_eq_true_eq] at hbss
    exact hbss.1
  unfold addBss at hadd
  dsimp only at hadd
  cases hdone : bssOf done with
  | nil =>
    rw [hdone] at h
    have hzero : c.noffH.uninitData.size = 0 := h
    rw [if_neg (not_not.mpr hzero)] at hadd
    cases hadd
    exact ⟨rfl, rfl⟩
  | cons t rest =>
    rw [hdone] at h hnonempty
    cases rest with
    | nil =>
      obtain ⟨haddr, hsize⟩ : c.noffH.uninitData.virtualAddr = t.sPaddr ∧
        c.noffH.uninitData.size = t.sSize := h
      rw [haddr, hsize, if_pos (hnonempty t List.mem_cons_self)] at hadd
      split at hadd
      · cases hadd
      split at hadd
      · cases hadd
      · next hnext => exact hnext
    | cons u rest => exact h

theorem addBss_ok (h : addBss c s = .ok c') :
    c'.written = c.written ∧ c'.inNoffFile = c.inNoffFile ∧
    (∀ k, segmentOf c'.noffH k = segmentOf c.noffH k) ∧ c'.noffH.noffMagic = c.noffH.noffMagic ∧
    (s.Fits → SegmentFits c.noffH.uninitData → SegmentFits c'.noffH.uninitData) := by
  unfold addBss at h
  dsimp only at h
  split at h
  · split at h
    · cases h
    split at h
    · cases h
    split at h
    · cases h
    next hfits =>
      cases h
      exact ⟨rfl, rfl, fun k => by cases k <;> rfl, rfl,
        fun _ hold => ⟨hold.1, hold.2.1, not_not.mp hfits⟩⟩
  · cases h
    exact ⟨rfl, rfl, fun k => by cases k <;> rfl, rfl, fun hs hold => ⟨hs.1, hold.2.1, hs.2⟩⟩

theorem bss_section (h : Copied coff done c) (hs : s.Bss) (hfits : s.Fits)
    (hadd : addBss c s = .ok c') : Copied coff (done ++ [s]) c' := by
  obtain ⟨hwritten, hplaced, hsegments, hmagic, huninit⟩ := addBss_ok hadd
  have hlast := lastOf_skip done fun k (hk : s.Backed k) => by cases hk.2.symm.trans hs.2
  constructor
  case placed =>
    rw [hplaced, hwritten]
    exact h.placed
  case small =>
    rw [hplaced]
    exact h.small
  case absent =>
    intro k hk
    rw [hsegments]
    exact h.absent k (hlast k ▸ hk)
  case last =>
    intro k t ht
    rw [hsegments, hwritten]
    exact h.last k t (hlast k ▸ ht)
  case apart =>
    intro k k' hne
    rw [hsegments, hsegments]
    exact h.apart k k' hne
  case bss =>
    rw [bssOf_append, if_pos hs]
    exact bssTaken_addBss h.bss hadd
  case magic => exact hmagic.trans h.magic
  case fits => exact ⟨fun k => hsegments k ▸ h.fits.1 k, huninit hfits h.fits.2⟩

/-- One section more. -/
theorem step (h : Copied coff done c) (hsize : ∀ k, s.Backed k → 0 ≤ s.sSize) (hfits : s.Fits)
    (hcopy : copyIn coff c s = .ok c') : Copied coff (done ++ [s]) c' := by
  unfold copyIn at hcopy
  by_cases hzero : s.sSize = 0
  · rw [if_pos hzero] at hcopy
    cases hcopy
    exact h.empty hzero
  · rw [if_neg hzero] at hcopy
    split at hcopy
    · next k hkind => exact h.file ⟨hzero, hkind⟩ (hsize k ⟨hzero, hkind⟩) hfits hcopy
    · next hkind => exact h.bss_section ⟨hzero, hkind⟩ hfits hcopy
    · cases hcopy

theorem run (h : Copied coff done c) (hsizes : SizesNonneg sections)
    (hfits : ∀ s ∈ sections, s.Fits) (hcopy : copyAll coff c sections = .ok c') :
    Copied coff (done ++ sections) c' := by
  induction sections generalizing done c with
  | nil =>
    cases hcopy
    rwa [List.append_nil]
  | cons s sections ih =>
    obtain ⟨c₁, hone, hrest⟩ := bind_eq_ok.mp hcopy
    have hnext := ih (h.step (hsizes s List.mem_cons_self) (hfits s List.mem_cons_self) hone)
      (fun t ht => hsizes t (List.mem_cons_of_mem s ht))
      (fun t ht => hfits t (List.mem_cons_of_mem s ht)) hrest
    rwa [List.append_assoc] at hnext

end Copied

/-- A word of the header is read back. -/
theorem intAt_words {words : List ℤ} (rest : HostFile) {i : ℕ} {x : ℤ} (hx : words[i]? = some x)
    (hfits : FitsInt x) :
    intAt (words.flatMap (fun x => Sim.storeBytes (uint32 x) 4) ++ rest) (4 * i) = x := by
  induction words generalizing i with
  | nil => cases hx
  | cons y words ih =>
    have hbytes (y : ℤ) : Sim.storeBytes (uint32 y) 4 = [UInt8.ofNat (uint32 y % 256),
        UInt8.ofNat (uint32 y / 256 % 256), UInt8.ofNat (uint32 y / 256 / 256 % 256),
        UInt8.ofNat (uint32 y / 256 / 256 / 256 % 256)] := rfl
    rw [List.flatMap_cons, hbytes]
    cases i with
    | zero =>
      obtain rfl : y = x := Option.some.inj hx
      simp only [intAt, List.cons_append, List.nil_append, Nat.mul_zero, Nat.zero_add,
        List.getD_cons_zero, List.getD_cons_succ, UInt8.toNat_ofNat']
      unfold FitsInt at hfits
      rw [int32, Int.bmod_def]
      unfold uint32
      omega
    | succ i =>
      rw [← ih (by simpa using hx)]
      simp only [intAt, List.cons_append, List.nil_append, Nat.mul_add, Nat.mul_one]
      rfl

theorem segmentAt_words {words : List ℤ} (rest : HostFile) {i : ℕ} {segment : Segment}
    (h0 : words[i]? = some segment.virtualAddr) (h1 : words[i + 1]? = some segment.inFileAddr)
    (h2 : words[i + 2]? = some segment.size) (hfits : SegmentFits segment) :
    segmentAt (words.flatMap (fun x => Sim.storeBytes (uint32 x) 4) ++ rest) (4 * i) = segment := by
  have hfirst := intAt_words rest h0 hfits.1
  have hsecond := intAt_words rest h1 hfits.2.1
  have hthird := intAt_words rest h2 hfits.2.2
  rw [Nat.mul_add] at hsecond hthird
  rw [segmentAt, hfirst, hsecond, hthird]

/-- The loader reads the header that has been written. -/
theorem readHeader_headerBytes {noffH : NoffHeader} (rest : HostFile)
    (hmagic : noffH.noffMagic = NOFFMAGIC) (hsegments : ∀ k, SegmentFits (segmentOf noffH k))
    (huninit : SegmentFits noffH.uninitData) :
    readHeader (headerBytes noffH ++ rest) = some noffH := by
  have hlength : (headerBytes noffH).length = sizeofNoffHeader := rfl
  have hmagicFits : FitsInt noffH.noffMagic := by
    rw [hmagic]
    decide
  have hword : intAt (headerBytes noffH ++ rest) 0 = noffH.noffMagic :=
    intAt_words rest (i := 0) rfl hmagicFits
  have hcode : segmentAt (headerBytes noffH ++ rest) 4 = noffH.code :=
    segmentAt_words rest (i := 1) rfl rfl rfl (hsegments .text)
  have hdata : segmentAt (headerBytes noffH ++ rest) 16 = noffH.initData :=
    segmentAt_words rest (i := 4) rfl rfl rfl (hsegments .data)
  have hrdata : segmentAt (headerBytes noffH ++ rest) 28 = noffH.readonlyData :=
    segmentAt_words rest (i := 7) rfl rfl rfl (hsegments .rdata)
  have hbss : segmentAt (headerBytes noffH ++ rest) 40 = noffH.uninitData :=
    segmentAt_words rest (i := 10) rfl rfl rfl huninit
  rw [readHeader, if_pos (by rw [List.length_append, hlength]; exact Nat.le_add_right _ _), hword,
    hcode, hdata, hrdata, hbss]

/-- The table of section headers in a COFF file. -/
def sectionsOf (coff : HostFile) : List Scnhdr :=
  sectionsIn ((coff.drop (sizeofFilehdr + sizeofAouthdr)).take (shortAt coff 2 * sizeofScnhdr))
    (shortAt coff 2)

theorem fitsInt_intAt (file : HostFile) (offset : ℕ) : FitsInt (intAt file offset) := by
  have hrange : -2147483648 ≤ intAt file offset ∧ intAt file offset < 2147483648 :=
    Loader.int32_range _
  unfold FitsInt
  omega

theorem fits_of_mem_sectionsOf (h : s ∈ sectionsOf coff) : s.Fits := by
  obtain ⟨i, -, rfl⟩ := List.mem_map.mp h
  simp only [Scnhdr.Fits, Scnhdr.ofBytes]
  exact ⟨fitsInt_intAt _ _, fitsInt_intAt _ _⟩

theorem copied_initial (coff stack : HostFile) (position : ℕ) :
    Copied coff [] ⟨position, sizeofNoffHeader, [], initial stack⟩ where
  placed := rfl
  small := show (52 : ℤ) < 2 ^ 31 by decide
  absent k _ := by cases k <;> rfl
  last k t ht := by cases ht
  apart k k' _ := .inl (by cases k <;> exact le_rfl)
  bss := rfl
  magic := rfl
  fits := by
    have hzero : FitsInt 0 := by decide
    have hsegment (offset : ℕ) : SegmentFits { segmentAt stack offset with size := 0 } := by
      simp only [SegmentFits, segmentAt]
      exact ⟨fitsInt_intAt _ _, fitsInt_intAt _ _, hzero⟩
    exact ⟨fun k => by cases k <;> exact hsegment _, hsegment 40⟩

/-- The loop of `main`, when it finishes. -/
theorem main_copies {stack noff : HostFile} (h : main coff stack = .ok noff) : ∃ position c,
    copyAll coff ⟨position, sizeofNoffHeader, [], initial stack⟩ (sectionsOf coff) = .ok c ∧
      noff = headerBytes c.noffH ++ c.written := by
  obtain ⟨⟨fileh, p₁⟩, hfileh, h⟩ := bind_eq_ok.mp h
  dsimp only at h
  split_ifs at h
  obtain ⟨⟨systemh, p₂⟩, hsystemh, h⟩ := bind_eq_ok.mp h
  dsimp only at h
  split_ifs at h
  obtain ⟨⟨table, p₃⟩, htable, h⟩ := bind_eq_ok.mp h
  obtain ⟨c, hcopy, h⟩ := bind_eq_ok.mp h
  cases h
  obtain ⟨-, rfl, rfl⟩ := read_ok (Int.natCast_nonneg _) hfileh
  obtain ⟨-, -, rfl⟩ := read_ok (Int.natCast_nonneg _) hsystemh
  obtain ⟨-, rfl, -⟩ := read_ok (Int.natCast_nonneg _) htable
  have hnscns : shortAt ((coff.drop 0).take (sizeofFilehdr : ℤ).toNat) 2 = shortAt coff 2 := by
    simp [shortAt, List.getD_eq_getElem?_getD]
  rw [hnscns] at hcopy
  exact ⟨_, c, hcopy, rfl⟩

/-- A NOFF file, when there is one. -/
theorem main_ok {stack noff : HostFile} (hsizes : SizesNonneg (sectionsOf coff))
    (h : main coff stack = .ok noff) :
    ∃ c, Copied coff (sectionsOf coff) c ∧ noff = headerBytes c.noffH ++ c.written := by
  obtain ⟨position, c, hcopy, hnoff⟩ := main_copies h
  have hrun := (copied_initial coff stack position).run hsizes
    (fun s hs => fits_of_mem_sectionsOf hs) hcopy
  exact ⟨c, hrun, hnoff⟩

end Nachos.Coff2noff

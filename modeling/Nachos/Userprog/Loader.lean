import Nachos.Userprog.AddrSpace

/-! What the copy loops of the constructor leave in memory. The loop of a segment
adds the segment's whole virtual address to the base of every frame, so where a
byte of the file lands depends on which frames happen to be free. -/
namespace Nachos

namespace Segment

def Contains (segment : Segment) (v : ℤ) : Prop :=
  segment.virtualAddr ≤ v ∧ v < segment.virtualAddr + segment.size

instance (segment : Segment) (v : ℤ) : Decidable (segment.Contains v) :=
  inferInstanceAs (Decidable (_ ∧ _))

/-- The two segments share no virtual address. -/
def Apart (a b : Segment) : Prop :=
  a.size ≤ 0 ∨ b.size ≤ 0 ∨ a.virtualAddr + a.size ≤ b.virtualAddr ∨
    b.virtualAddr + b.size ≤ a.virtualAddr

instance (a b : Segment) : Decidable (a.Apart b) := inferInstanceAs (Decidable (_ ∨ _))

theorem Apart.not_both {a b : Segment} (h : a.Apart b) {v : ℤ} (ha : a.Contains v)
    (hb : b.Contains v) : False := by
  unfold Contains at ha hb
  rcases h with h | h | h | h <;> omega

end Segment

namespace NoffHeader

/-- The segments whose bytes come from the file. -/
def fileBacked (noffH : NoffHeader) : List Segment :=
  [noffH.code, noffH.initData, noffH.readonlyData]

def segments (noffH : NoffHeader) : List Segment := noffH.fileBacked ++ [noffH.uninitData]

end NoffHeader

namespace Loader

/-- A header a linker may produce: no negative size, the file holds what it
should hold, and no two segments overlap in virtual memory. -/
structure WellPlaced (file : HostFile) (noffH : NoffHeader) : Prop where
  size_nonneg : ∀ segment ∈ noffH.segments, 0 ≤ segment.size
  inFile : ∀ segment ∈ noffH.fileBacked, 0 < segment.size →
    0 ≤ segment.inFileAddr ∧ segment.inFileAddr + segment.size ≤ file.length
  apart : noffH.segments.Pairwise Segment.Apart

/-- The byte a virtual address reads through the page table of a space. -/
def byteThrough (space : AddrSpace) (mainMemory : ByteStore.Store) (v : ℤ) : Option UInt8 :=
  match translate (some space.pageTable) space.numPages (BitVec.ofInt 32 v) 1 false with
  | some (.ok (physAddr, _)) => some (mainMemory physAddr)
  | _ => none

/-- The space holds the program: each file-backed segment shows the bytes of the
file, and everything else in the space is zero. -/
structure ImageCorrect (file : HostFile) (noffH : NoffHeader) (space : AddrSpace)
    (mainMemory : ByteStore.Store) : Prop where
  segments : ∀ segment ∈ noffH.fileBacked, ∀ k : ℕ, (k : ℤ) < segment.size →
    byteThrough space mainMemory (segment.virtualAddr + k) =
      some (file.getD (segment.inFileAddr + k).toNat 0)
  zeroes : ∀ v : ℕ, v < space.numPages * PageSize →
    (∀ segment ∈ noffH.fileBacked, ¬ segment.Contains v) →
    byteThrough space mainMemory v = some 0

/-- The index of `mainMemory` behind virtual address `v` when page `j` sits in frame `frames[j]`. -/
def physicalIndex (frames : List ℕ) (v : ℕ) : ℤ :=
  ((frames.getD (v / PageSize) 0 * PageSize + v % PageSize : ℕ) : ℤ)

/-- The file offset that the arithmetic of one copy loop drops on index `a` of
`mainMemory`, if any: the loop reaches `a` from the page whose frame lies
`virtualAddr` bytes below it, and only while the file lasts. -/
def landing (fileLength : ℕ) (frames : List ℕ) (segment : Segment) (a : ℤ) : Option ℕ :=
  if 0 < segment.size ∧ segment.virtualAddr ≤ a then
    let i := frames.idxOf ((a - segment.virtualAddr) / PageSize).toNat
    let offset := (segment.inFileAddr + i * PageSize + (a - segment.virtualAddr) % PageSize).toNat
    if i < frames.length ∧ offset < fileLength then some offset else none
  else none

/-- The file offset dropped last on index `a`: the loops run over the code, then
the data, then the read-only data. -/
def lastLanding (fileLength : ℕ) (noffH : NoffHeader) (frames : List ℕ) (a : ℤ) : Option ℕ :=
  (landing fileLength frames noffH.readonlyData a).or
    ((landing fileLength frames noffH.initData a).or (landing fileLength frames noffH.code a))

/-- The byte that belongs at virtual address `v`. -/
def belonging (file : HostFile) (noffH : NoffHeader) (v : ℤ) : UInt8 :=
  match noffH.fileBacked.find? fun segment => segment.Contains v with
  | some segment => file.getD (segment.inFileAddr + (v - segment.virtualAddr)).toNat 0
  | none => 0

/-- The inputs the loader gets right: the segments lie inside the space, and at every
byte of it the frames put the file byte that belongs there, or none where zero belongs. -/
structure LandsRight (file : HostFile) (noffH : NoffHeader) (frames : List ℕ) : Prop where
  inside : ∀ segment ∈ noffH.fileBacked, 0 < segment.size →
    0 ≤ segment.virtualAddr ∧
      segment.virtualAddr + segment.size ≤ (frames.length * PageSize : ℕ)
  lands : ∀ v : ℕ, v < frames.length * PageSize →
    ((lastLanding file.length noffH frames (physicalIndex frames v)).map
      fun offset => file.getD offset 0).getD 0 = belonging file noffH v

theorem int32_eq_of_nonneg {x : ℤ} (h0 : 0 ≤ x) (h1 : x < 2147483648) : int32 x = x := by
  rw [int32, Int.bmod_def]
  omega

theorem int32_range (x : ℤ) : -2147483648 ≤ int32 x ∧ int32 x < 2147483648 := by
  rw [int32, Int.bmod_def]
  omega

def Segment.InRange (segment : Segment) : Prop :=
  (-2147483648 ≤ segment.virtualAddr ∧ segment.virtualAddr < 2147483648) ∧
    (-2147483648 ≤ segment.inFileAddr ∧ segment.inFileAddr < 2147483648) ∧
    segment.size < 2147483648

theorem segmentAt_inRange (file : HostFile) (offset : ℕ) :
    Segment.InRange (segmentAt file offset) := by
  simp only [Segment.InRange, segmentAt, intAt]
  exact ⟨int32_range _, int32_range _, (int32_range _).2⟩

/-- Every field of a header read from a file is a C `int`. -/
theorem checkedHeader_range {file : HostFile} {noffH : NoffHeader}
    (h : AddrSpace.checkedHeader file = some noffH) :
    ∀ segment ∈ noffH.fileBacked, Segment.InRange segment := by
  obtain ⟨read, hr, h⟩ := Option.bind_eq_some_iff.mp h
  have hread : read = noffH := by
    split at h
    · exact Option.some.inj h
    · cases h
  subst hread
  unfold readHeader at hr
  split at hr
  · have hsegments := (Option.some.inj hr).symm
    intro segment hs
    simp only [hsegments, NoffHeader.fileBacked, List.mem_cons, List.not_mem_nil, or_false] at hs
    rcases hs with rfl | rfl | rfl <;> exact segmentAt_inRange file _
  · cases hr

/-- One turn of a copy loop, for page `i` in the given frame. -/
def copyPatch (file : HostFile) (segment : Segment) (frame i : ℕ) : ByteStore.Patch :=
  ⟨int32 (segment.virtualAddr + frame * PageSize),
    (file.drop (int32 (segment.inFileAddr + i * PageSize)).toNat).take PageSize⟩

/-- A copy loop that passes the assertion of `Lseek` every time makes one patch a page. -/
theorem copyLoop_eq {file : HostFile} {segment : Segment} {frames : List ℕ} :
    ∀ {i : ℕ} {ps : List ByteStore.Patch},
      AddrSpace.copyLoop file segment i (AddrSpace.tableOf i frames) = some ps →
      ps = (frames.zipIdx i).map (fun (frame, k) => copyPatch file segment frame k) ∧
      ∀ k < frames.length, 0 ≤ int32 (segment.inFileAddr + ((i + k : ℕ) : ℤ) * PageSize) := by
  induction frames with
  | nil =>
    intro i ps h
    cases h
    simp
  | cons frame frames ih =>
    intro i ps h
    rw [AddrSpace.tableOf_cons, AddrSpace.copyLoop] at h
    obtain ⟨bytes, hb, h⟩ := Option.bind_eq_some_iff.mp h
    obtain ⟨rest, hr, h⟩ := Option.bind_eq_some_iff.mp h
    unfold readAt at hb
    split at hb
    · next hpos =>
      obtain ⟨hrest, hnonneg⟩ := ih hr
      cases hb
      cases h
      refine ⟨by simp [hrest, copyPatch, AddrSpace.freshEntry], ?_⟩
      intro k hk
      cases k with
      | zero => simpa using hpos
      | succ k =>
        have := hnonneg k (by simpa using hk)
        rwa [show i + 1 + k = i + (k + 1) by omega] at this
    · cases hb

section Landing

variable {file : HostFile} {segment : Segment} {frames : List ℕ}

/-- What a copy loop lands at `a`, spelled out over the pages. -/
theorem landing_eq_some_iff (hsize : 0 < segment.size) (hn : frames.Nodup) {fileLength : ℕ}
    {a : ℤ} {offset : ℕ} : landing fileLength frames segment a = some offset ↔
      ∃ i frame : ℕ, frames[i]? = some frame ∧ segment.virtualAddr + frame * PageSize ≤ a ∧
        a < segment.virtualAddr + frame * PageSize + PageSize ∧
        offset = (segment.inFileAddr + i * PageSize +
          (a - segment.virtualAddr - frame * PageSize)).toNat ∧ offset < fileLength := by
  unfold landing
  simp only [PageSize, Nat.cast_ofNat]
  constructor
  · intro h
    split at h
    · next hc =>
      split at h
      · next hi =>
        have hget := List.getElem_idxOf hi.1
        refine ⟨_, _, List.getElem?_eq_some_iff.mpr ⟨hi.1, hget⟩, ?_⟩
        have ho := Option.some.inj h
        have hlt := hi.2
        rw [ho] at hlt
        have hq : ((((a - segment.virtualAddr) / 128).toNat : ℕ) : ℤ) =
            (a - segment.virtualAddr) / 128 := by omega
        rw [hq]
        refine ⟨by omega, by omega, ?_, hlt⟩
        rw [← ho]
        congr 1
        omega
      · cases h
    · cases h
  · rintro ⟨i, frame, hget, h0, h1, rfl, hlt⟩
    obtain ⟨hi, hf⟩ := List.getElem?_eq_some_iff.mp hget
    have hq : ((a - segment.virtualAddr) / 128).toNat = frame := by omega
    have hidx : frames.idxOf frame = i := by
      rw [← hf]
      exact hn.idxOf_getElem i hi
    have hoff : segment.inFileAddr + i * 128 +
        (a - segment.virtualAddr) % 128 =
        segment.inFileAddr + i * 128 +
          (a - segment.virtualAddr - frame * 128) := by omega
    rw [if_pos ⟨hsize, by omega⟩, hq, hidx, hoff, if_pos ⟨hi, hlt⟩]

theorem mem_zipIdx_iff {frame i : ℕ} : (frame, i) ∈ frames.zipIdx ↔ frames[i]? = some frame :=
  List.mem_zipIdx_iff_getElem?

/-- While the file positions pass the assertion of `Lseek`, none of them wrapped around. -/
theorem position_exact (hr : Segment.InRange segment) (hlen : frames.length ≤ NumPhysPages)
    (hpos : ∀ k < frames.length, 0 ≤ int32 (segment.inFileAddr + (k : ℤ) * PageSize))
    {i : ℕ} (hi : i < frames.length) :
    0 ≤ segment.inFileAddr ∧
      int32 (segment.inFileAddr + (i : ℤ) * PageSize) = segment.inFileAddr + i * PageSize := by
  have h0 := hpos 0 (by omega)
  have hk := hpos i hi
  obtain ⟨-, ⟨hlo, hhi⟩, -⟩ := hr
  simp only [int32, Int.bmod_def, PageSize, NumPhysPages] at *
  omega

theorem covers_copyPatch (file : HostFile) (frame : ℕ) {i : ℕ} (a : ℤ) (hI : 0 ≤ segment.inFileAddr)
    (hpos : int32 (segment.inFileAddr + (i : ℤ) * PageSize) = segment.inFileAddr + i * PageSize) :
    (copyPatch file segment frame i).Covers a ↔
      int32 (segment.virtualAddr + (frame : ℤ) * PageSize) ≤ a ∧
      a < int32 (segment.virtualAddr + (frame : ℤ) * PageSize) + PageSize ∧
      (segment.inFileAddr + i * PageSize +
        (a - int32 (segment.virtualAddr + (frame : ℤ) * PageSize))).toNat < file.length := by
  simp only [ByteStore.Patch.Covers, copyPatch, hpos, List.length_take, List.length_drop, PageSize]
  omega

theorem byteAt_copyPatch {frame i : ℕ} {a : ℤ} (hI : 0 ≤ segment.inFileAddr)
    (hpos : int32 (segment.inFileAddr + (i : ℤ) * PageSize) = segment.inFileAddr + i * PageSize)
    (hc : (copyPatch file segment frame i).Covers a) :
    (copyPatch file segment frame i).byteAt a =
      file.getD (segment.inFileAddr + i * PageSize +
        (a - int32 (segment.virtualAddr + (frame : ℤ) * PageSize))).toNat 0 := by
  obtain ⟨h0, h1, -⟩ := (covers_copyPatch _ _ _ hI hpos).mp hc
  simp only [ByteStore.Patch.byteAt, copyPatch, hpos, List.getD_eq_getElem?_getD]
  rw [List.getElem?_take_of_lt (by omega), List.getElem?_drop]
  congr 2
  simp only [PageSize] at h0 h1 ⊢
  omega

/-- The copy loop of a segment that starts inside memory leaves at every index the byte
it lands there, and whatever was there before where it lands nothing. -/
theorem patchAll_copyLoop {ps : List ByteStore.Patch} (hsize : 0 < segment.size)
    (hps : AddrSpace.copyLoop file segment 0 (AddrSpace.tableOf 0 frames) = some ps)
    (hr : Segment.InRange segment) (hV : 0 ≤ segment.virtualAddr)
    (hV' : segment.virtualAddr ≤ MemorySize) (hlen : frames.length ≤ NumPhysPages)
    (hlt : ∀ frame ∈ frames, frame < NumPhysPages) (hn : frames.Nodup)
    (m : ByteStore.Store) (a : ℤ) :
    ByteStore.patchAll m ps a =
      ((landing file.length frames segment a).map fun offset => file.getD offset 0).getD (m a) := by
  obtain ⟨rfl, hpos⟩ := copyLoop_eq hps
  simp only [Nat.zero_add] at hpos
  have hexact {i frame : ℕ} (hi : frames[i]? = some frame) : 0 ≤ segment.inFileAddr ∧
      int32 (segment.inFileAddr + (i : ℤ) * PageSize) = segment.inFileAddr + i * PageSize ∧
      int32 (segment.virtualAddr + (frame : ℤ) * PageSize) =
        segment.virtualAddr + frame * PageSize := by
    obtain ⟨hi', hf⟩ := List.getElem?_eq_some_iff.mp hi
    have hframe := hlt frame (List.mem_of_getElem? hi)
    have hp := position_exact hr hlen hpos hi'
    simp only [MemorySize, NumPhysPages, PageSize] at hV' hframe ⊢
    exact ⟨hp.1, hp.2, int32_eq_of_nonneg (by omega) (by omega)⟩
  have hcovers {i frame : ℕ} (hi : frames[i]? = some frame) :
      (copyPatch file segment frame i).Covers a ↔
        segment.virtualAddr + frame * PageSize ≤ a ∧
        a < segment.virtualAddr + frame * PageSize + PageSize ∧
        (segment.inFileAddr + i * PageSize +
          (a - segment.virtualAddr - frame * PageSize)).toNat < file.length := by
    obtain ⟨hI, hp, hv⟩ := hexact hi
    rw [covers_copyPatch _ _ _ hI hp, hv, Int.sub_sub]
  cases hl : landing file.length frames segment a with
  | none =>
    rw [ByteStore.patchAll_of_not_covered]
    · rfl
    intro p hp hc
    obtain ⟨⟨frame, i⟩, hmem, rfl⟩ := List.mem_map.mp hp
    have hi := mem_zipIdx_iff.mp hmem
    obtain ⟨h0, h1, h2⟩ := (hcovers hi).mp hc
    have := (landing_eq_some_iff hsize hn).mpr ⟨i, frame, hi, h0, h1, rfl, h2⟩
    rw [hl] at this
    cases this
  | some offset =>
    obtain ⟨i, frame, hi, h0, h1, rfl, h2⟩ := (landing_eq_some_iff hsize hn).mp hl
    obtain ⟨hI, hp, hv⟩ := hexact hi
    have hc := (hcovers hi).mpr ⟨h0, h1, h2⟩
    rw [ByteStore.patchAll_of_mem _ (List.mem_map.mpr ⟨(frame, i), mem_zipIdx_iff.mpr hi, rfl⟩) hc,
      byteAt_copyPatch hI hp hc, hv, Int.sub_sub]
    · rfl
    -- two pages of one segment are copied to different frames, hence to different indices
    rw [List.pairwise_map]
    have hidx : frames.zipIdx.Pairwise fun p q => p.1 ≠ q.1 := by
      rw [← List.pairwise_map (f := Prod.fst)]
      simpa [List.Nodup] using hn
    refine hidx.imp_of_mem ?_
    intro p q hp hq hne ⟨hcp, hcq⟩
    have hcp := (hcovers (mem_zipIdx_iff.mp hp)).mp hcp
    have hcq := (hcovers (mem_zipIdx_iff.mp hq)).mp hcq
    simp only [PageSize] at hcp hcq
    omega

end Landing

theorem patchAll_copySegment {file : HostFile} {segment : Segment} {frames : List ℕ}
    {ps : List ByteStore.Patch}
    (hps : AddrSpace.copySegment file segment (AddrSpace.tableOf 0 frames) = some ps)
    (hr : Segment.InRange segment)
    (hV : 0 < segment.size → 0 ≤ segment.virtualAddr ∧ segment.virtualAddr ≤ MemorySize)
    (hlen : frames.length ≤ NumPhysPages) (hlt : ∀ frame ∈ frames, frame < NumPhysPages)
    (hn : frames.Nodup) (m : ByteStore.Store) (a : ℤ) :
    ByteStore.patchAll m ps a =
      ((landing file.length frames segment a).map fun offset => file.getD offset 0).getD (m a) := by
  unfold AddrSpace.copySegment at hps
  split at hps
  · next hsize =>
    exact patchAll_copyLoop hsize hps hr (hV hsize).1 (hV hsize).2 hlen hlt hn m a
  · next hsize =>
    cases hps
    simp [landing, hsize]

/-- The bytes of a zeroed page. -/
theorem patchAll_zeroPages {frames : List ℕ} {m : ByteStore.Store} {a : ℤ} {frame : ℕ}
    (hf : frame ∈ frames) (h0 : (frame : ℤ) * PageSize ≤ a)
    (h1 : a < (frame : ℤ) * PageSize + PageSize) (hn : frames.Nodup) :
    ByteStore.patchAll m (frames.map fun frame : ℕ => AddrSpace.zeroPage frame) a = 0 := by
  have hcovers (k : ℕ) : (AddrSpace.zeroPage k).Covers a ↔
      (k : ℤ) * PageSize ≤ a ∧ a < (k : ℤ) * PageSize + PageSize := by
    simp [ByteStore.Patch.Covers, AddrSpace.zeroPage]
  rw [ByteStore.patchAll_of_mem _ (List.mem_map.mpr ⟨frame, hf, rfl⟩)
    ((hcovers frame).mpr ⟨h0, h1⟩)]
  · simp only [ByteStore.Patch.byteAt, AddrSpace.zeroPage, List.getD_eq_getElem?_getD,
      List.getElem?_replicate]
    split <;> rfl
  · rw [List.pairwise_map]
    refine hn.imp ?_
    intro i j hij ⟨hi, hj⟩
    have hi := (hcovers i).mp hi
    have hj := (hcovers j).mp hj
    simp only [PageSize] at hi hj
    omega

/-- Reading through the table of a loaded space. -/
theorem byteThrough_tableOf {frames : List ℕ} (hlt : ∀ frame ∈ frames, frame < NumPhysPages)
    (hlen : frames.length ≤ NumPhysPages) (m : ByteStore.Store) {v : ℤ}
    (h0 : -2147483648 ≤ v) (h1 : v < 4294967296) :
    byteThrough ⟨AddrSpace.tableOf 0 frames⟩ m v =
      if 0 ≤ v ∧ v < (frames.length * PageSize : ℕ) then
        some (m (physicalIndex frames v.toNat)) else none := by
  have hw : (BitVec.ofInt 32 v).toNat = (v % 4294967296).toNat := by
    simp [BitVec.toNat_ofInt]
  have hmis : misaligned (BitVec.ofInt 32 v) 1 = false := by simp [misaligned]
  unfold byteThrough translate
  simp only [hmis, hw, AddrSpace.numPages, AddrSpace.length_tableOf, Bool.false_eq_true, ↓reduceIte,
    Option.bind_eq_bind, Option.bind_some, ge_iff_le]
  by_cases hv : 0 ≤ v ∧ v < (frames.length * PageSize : ℕ)
  · have hmod : (v % 4294967296).toNat = v.toNat := by omega
    have hpage : v.toNat / PageSize < frames.length := by
      simp only [PageSize] at hv ⊢
      omega
    have hframe := hlt _ (List.getElem_mem hpage)
    have hget : frames[v.toNat / PageSize]? = some frames[v.toNat / PageSize] :=
      List.getElem?_eq_getElem hpage
    have hpf : (AddrSpace.freshEntry (0 + v.toNat / PageSize)
        (frames[v.toNat / PageSize] : ℤ)).pageFrame = frames[v.toNat / PageSize] :=
      AddrSpace.pageFrame_of_physicalPage rfl hframe
    have hbound : frames[v.toNat / PageSize] * PageSize + v.toNat % PageSize + 1 ≤ MemorySize := by
      simp only [MemorySize, NumPhysPages, PageSize] at hframe ⊢
      omega
    rw [hmod, if_neg (by omega), if_pos hv, AddrSpace.getElem?_tableOf, hget]
    simp only [Option.map_some, Option.bind_some, hpf]
    rw [if_neg (by simp [AddrSpace.freshEntry]), if_neg (by simp [AddrSpace.freshEntry]),
      if_neg (by omega), if_pos hbound]
    simp [physicalIndex, hget]
  · have hpage : frames.length ≤ (v % 4294967296).toNat / PageSize := by
      simp only [NumPhysPages, PageSize] at hlen hv ⊢
      omega
    rw [if_pos hpage, if_neg hv]
    rfl

theorem loadedBy_of_new {file : HostFile} {noffH : NoffHeader} {bm bm' : Bitmap NumPhysPages}
    {space : AddrSpace} {writes : List ByteStore.Patch}
    (hh : AddrSpace.checkedHeader file = some noffH)
    (hl : AddrSpace.new (some file) bm = some (.loaded space bm' writes)) :
    Nonempty (AddrSpace.LoadedBy file noffH bm space bm' writes) := by
  simp only [AddrSpace.new, hh, Option.bind_eq_bind, Option.bind_some] at hl
  rcases AddrSpace.locked_cases hl with ⟨h, -⟩ | ⟨_, _, _, h, hload⟩
  · cases h
  · cases h
    exact hload

section Loaded

variable {file : HostFile} {noffH : NoffHeader} {bm bm' : Bitmap NumPhysPages}
  {space : AddrSpace} {writes : List ByteStore.Patch}

theorem chosenFrames_lt {n : ℕ} : ∀ frame ∈ AddrSpace.chosenFrames bm n, frame < NumPhysPages :=
  fun _ hf => (AddrSpace.mem_chosenFrames hf).1

theorem length_chosenFrames_le {n : ℕ} : (AddrSpace.chosenFrames bm n).length ≤ NumPhysPages := by
  have hsub : (AddrSpace.chosenFrames bm n).Subperm (List.range NumPhysPages) :=
    List.subperm_of_subset (AddrSpace.chosenFrames_nodup bm n)
      fun _ hf => List.mem_range.mpr (chosenFrames_lt _ hf)
  simpa using hsub.length_le

/-- Once the segments lie inside the space, memory behind the space is what the copy
loops landed there, over zeroes. -/
theorem patchAll_writes (hload : AddrSpace.LoadedBy file noffH bm space bm' writes)
    (hr : ∀ segment ∈ noffH.fileBacked, Segment.InRange segment)
    (hV : ∀ segment ∈ noffH.fileBacked, 0 < segment.size →
      0 ≤ segment.virtualAddr ∧ segment.virtualAddr ≤ MemorySize)
    (m : ByteStore.Store) {v : ℕ}
    (hv : v < (AddrSpace.chosenFrames bm (AddrSpace.pagesNeeded noffH)).length * PageSize) :
    let frames := AddrSpace.chosenFrames bm (AddrSpace.pagesNeeded noffH)
    ByteStore.patchAll m writes (physicalIndex frames v) =
      ((lastLanding file.length noffH frames (physicalIndex frames v)).map
        fun offset => file.getD offset 0).getD 0 := by
  intro frames
  have hn : frames.Nodup := AddrSpace.chosenFrames_nodup _ _
  have hcopy {segment : Segment} {ps : List ByteStore.Patch} (hs : segment ∈ noffH.fileBacked)
      (hps : AddrSpace.copySegment file segment space.pageTable = some ps) :=
    patchAll_copySegment (hload.space_eq ▸ hps) (hr segment hs) (hV segment hs)
      length_chosenFrames_le chosenFrames_lt hn
  have hpage : v / PageSize < frames.length :=
    Nat.div_lt_of_lt_mul (by rwa [Nat.mul_comm])
  have hindex : physicalIndex frames v = frames[v / PageSize] * PageSize + (v % PageSize : ℕ) := by
    simp [physicalIndex, hpage]
  have hmod : v % PageSize < PageSize := Nat.mod_lt _ (by decide)
  have hzero : ByteStore.patchAll m (frames.map fun frame : ℕ => AddrSpace.zeroPage frame)
      (physicalIndex frames v) = 0 :=
    patchAll_zeroPages (List.getElem_mem hpage) (by omega) (by omega) hn
  rw [hload.writes_eq, ByteStore.patchAll_append, ByteStore.patchAll_append,
    ByteStore.patchAll_append, hcopy (by simp [NoffHeader.fileBacked]) hload.readonlyData_eq,
    hcopy (by simp [NoffHeader.fileBacked]) hload.initData_eq,
    hcopy (by simp [NoffHeader.fileBacked]) hload.code_eq, hzero]
  unfold lastLanding
  cases landing file.length frames noffH.readonlyData (physicalIndex frames v) <;>
    cases landing file.length frames noffH.initData (physicalIndex frames v) <;> rfl

theorem WellPlaced.unique (hw : WellPlaced file noffH) {a b : Segment}
    (ha : a ∈ noffH.fileBacked) (hb : b ∈ noffH.fileBacked) {v : ℤ} (hav : a.Contains v)
    (hbv : b.Contains v) : a = b := by
  have hp := hw.apart
  simp only [NoffHeader.segments, NoffHeader.fileBacked, List.cons_append, List.nil_append,
    List.pairwise_cons, List.mem_cons, forall_eq_or_imp] at hp
  simp only [NoffHeader.fileBacked, List.mem_cons, List.not_mem_nil, or_false] at ha hb
  rcases ha with rfl | rfl | rfl <;> rcases hb with rfl | rfl | rfl
  · rfl
  · exact absurd hbv fun h => hp.1.1.not_both hav h
  · exact absurd hbv fun h => hp.1.2.1.not_both hav h
  · exact absurd hbv fun h => hp.1.1.not_both h hav
  · rfl
  · exact absurd hbv fun h => hp.2.1.1.not_both hav h
  · exact absurd hbv fun h => hp.1.2.1.not_both h hav
  · exact absurd hbv fun h => hp.2.1.1.not_both h hav
  · rfl

theorem belonging_of_contains (hw : WellPlaced file noffH) {segment : Segment}
    (hs : segment ∈ noffH.fileBacked) {v : ℤ} (hv : segment.Contains v) :
    belonging file noffH v =
      file.getD (segment.inFileAddr + (v - segment.virtualAddr)).toNat 0 := by
  unfold belonging
  cases hf : noffH.fileBacked.find? fun segment => segment.Contains v with
  | none =>
    have := List.find?_eq_none.mp hf segment hs
    simp [hv] at this
  | some other =>
    have hc : other.Contains v := by simpa using List.find?_some hf
    rw [hw.unique hs (List.mem_of_find?_eq_some hf) hv hc]

theorem belonging_of_not_contains {v : ℤ}
    (hv : ∀ segment ∈ noffH.fileBacked, ¬ segment.Contains v) : belonging file noffH v = 0 := by
  unfold belonging
  rw [List.find?_eq_none.mpr]
  intro segment hs
  simpa using hv segment hs

/-- The loader is correct on exactly the inputs that land right, whatever was in memory. -/
theorem loader_correct_iff (hh : AddrSpace.checkedHeader file = some noffH)
    (hw : WellPlaced file noffH)
    (hl : AddrSpace.new (some file) bm = some (.loaded space bm' writes)) (m : ByteStore.Store) :
    ImageCorrect file noffH space (ByteStore.patchAll m writes) ↔
      LandsRight file noffH (AddrSpace.chosenFrames bm (AddrSpace.pagesNeeded noffH)) := by
  obtain ⟨hload⟩ := loadedBy_of_new hh hl
  have hrange := checkedHeader_range hh
  have hspace := hload.space_eq
  generalize hframes : AddrSpace.chosenFrames bm (AddrSpace.pagesNeeded noffH) = frames at hspace ⊢
  have hlt : ∀ frame ∈ frames, frame < NumPhysPages := hframes ▸ chosenFrames_lt
  have hlen : frames.length ≤ NumPhysPages := hframes ▸ length_chosenFrames_le
  have hpages : space.numPages = frames.length := by
    rw [hspace, AddrSpace.numPages, AddrSpace.length_tableOf]
  have hinside (v : ℕ) (hv : v < frames.length * PageSize) :
      byteThrough space (ByteStore.patchAll m writes) v =
        some (ByteStore.patchAll m writes (physicalIndex frames v)) := by
    have hle : frames.length * PageSize ≤ 16384 := Nat.mul_le_mul_right PageSize hlen
    rw [hspace, byteThrough_tableOf hlt hlen _ (by omega) (by omega),
      if_pos ⟨Int.natCast_nonneg v, Int.ofNat_lt.mpr hv⟩]
    rfl
  have hwrites (hin : ∀ segment ∈ noffH.fileBacked, 0 < segment.size →
      0 ≤ segment.virtualAddr ∧
        segment.virtualAddr + segment.size ≤ (frames.length * PageSize : ℕ))
      (v : ℕ) (hv : v < frames.length * PageSize) :
      ByteStore.patchAll m writes (physicalIndex frames v) =
        ((lastLanding file.length noffH frames (physicalIndex frames v)).map
          fun offset => file.getD offset 0).getD 0 := by
    subst hframes
    refine patchAll_writes hload hrange ?_ m hv
    intro segment hs hsize
    obtain ⟨h0, h1⟩ := hin segment hs hsize
    simp only [MemorySize, NumPhysPages, PageSize] at hlen h1 ⊢
    omega
  constructor
  · intro hcorrect
    have hin : ∀ segment ∈ noffH.fileBacked, 0 < segment.size →
        0 ≤ segment.virtualAddr ∧
          segment.virtualAddr + segment.size ≤ (frames.length * PageSize : ℕ) := by
      -- an address outside the space cannot be read at all
      have hread {segment : Segment} (hs : segment ∈ noffH.fileBacked) {k : ℕ}
          (hk : (k : ℤ) < segment.size) : 0 ≤ segment.virtualAddr + k ∧
            segment.virtualAddr + k < (frames.length * PageSize : ℕ) := by
        obtain ⟨⟨h0, h1⟩, -, h2⟩ := hrange segment hs
        by_contra hout
        have hbyte := hcorrect.segments segment hs k hk
        rw [hspace, byteThrough_tableOf hlt hlen _ (by omega) (by omega), if_neg hout] at hbyte
        cases hbyte
      intro segment hs hsize
      have hfirst := hread hs (k := 0) (by omega)
      have hlast := hread hs (k := (segment.size - 1).toNat) (by omega)
      omega
    refine ⟨hin, ?_⟩
    intro v hv
    rw [← hwrites hin v hv]
    apply Option.some.inj
    rw [← hinside v hv]
    by_cases hc : ∃ segment ∈ noffH.fileBacked, segment.Contains v
    · obtain ⟨segment, hs, hcv⟩ := hc
      have hcv' : segment.virtualAddr ≤ v ∧ (v : ℤ) < segment.virtualAddr + segment.size := hcv
      have hbyte := hcorrect.segments segment hs (v - segment.virtualAddr).toNat (by omega)
      rw [belonging_of_contains hw hs hcv]
      rw [Int.toNat_of_nonneg (by omega), add_sub_cancel] at hbyte
      exact hbyte
    · have hnone : ∀ segment ∈ noffH.fileBacked, ¬ segment.Contains v := by
        intro segment hs hcv
        exact hc ⟨segment, hs, hcv⟩
      rw [belonging_of_not_contains hnone]
      exact hcorrect.zeroes v (hpages ▸ hv) hnone
  · intro hright
    have hbyte (v : ℕ) (hv : v < frames.length * PageSize) :
        byteThrough space (ByteStore.patchAll m writes) v = some (belonging file noffH v) := by
      rw [hinside v hv, hwrites hright.inside v hv, hright.lands v hv]
    constructor
    · intro segment hs k hk
      obtain ⟨h0, h1⟩ := hright.inside segment hs (by omega)
      obtain ⟨v, hv⟩ := Int.eq_ofNat_of_zero_le (show 0 ≤ segment.virtualAddr + k by omega)
      have hcv : segment.Contains v := by
        unfold Segment.Contains
        omega
      rw [hv, hbyte v (by omega), belonging_of_contains hw hs hcv, ← hv,
        add_sub_cancel_left]
    · intro v hv hnone
      rw [hbyte v (hpages ▸ hv), belonging_of_not_contains hnone]

end Loaded

/-- Over consecutive frames, a segment whose file offset lies `d` above its virtual
address lands byte `v + d` of the file at every `v` from its start on. -/
theorem landing_range' (first fileLength : ℕ) {n v : ℕ} {segment : Segment} {d : ℤ}
    (hv : v < n * PageSize) (hV : 0 < segment.size → 0 ≤ segment.virtualAddr)
    (hd : 0 < segment.size → segment.inFileAddr = segment.virtualAddr + d) :
    landing fileLength (List.range' first n) segment (physicalIndex (List.range' first n) v) =
      if 0 < segment.size ∧ segment.virtualAddr ≤ v ∧ (v + d).toNat < fileLength then
        some (v + d).toNat else none := by
  have hpage : v / PageSize < n := Nat.div_lt_of_lt_mul (by rwa [Nat.mul_comm])
  have hindex : physicalIndex (List.range' first n) v = first * PageSize + v := by
    simp only [physicalIndex, List.getD_eq_getElem?_getD, List.getElem?_range' hpage,
      Option.getD_some, PageSize]
    omega
  rw [hindex]
  by_cases hsize : 0 < segment.size
  swap
  · rw [if_neg fun h => hsize h.1, landing, if_neg fun h => hsize h.1]
  have hV := hV hsize
  have hd := hd hsize
  ext offset
  rw [landing_eq_some_iff hsize List.nodup_range', Option.ite_none_right_eq_some]
  simp only [PageSize, Option.some.injEq] at hv ⊢
  constructor
  · rintro ⟨i, frame, hget, h0, h1, rfl, hlt⟩
    have hframe : frame = first + i := by
      obtain ⟨hi, hf⟩ := List.getElem?_eq_some_iff.mp hget
      simpa using hf.symm
    refine ⟨⟨hsize, by omega, by omega⟩, by omega⟩
  · rintro ⟨⟨-, hle, hlt⟩, rfl⟩
    refine ⟨((v - segment.virtualAddr) / 128).toNat,
      first + ((v - segment.virtualAddr) / 128).toNat, ?_, by omega, by omega, by omega, hlt⟩
    rw [List.getElem?_range' (by omega), Nat.one_mul]

/-- A file laid out like the virtual address space, with nothing but zeroes between and
after its segments, lands right when the free frames happen to be consecutive. -/
theorem landsRight_range' {file : HostFile} {noffH : NoffHeader} {first n : ℕ} {d : ℤ}
    (hw : WellPlaced file noffH)
    (hin : ∀ segment ∈ noffH.fileBacked, 0 < segment.size →
      0 ≤ segment.virtualAddr ∧ segment.virtualAddr + segment.size ≤ (n * PageSize : ℕ))
    (hd : ∀ segment ∈ noffH.fileBacked, 0 < segment.size →
      segment.inFileAddr = segment.virtualAddr + d)
    (hrest : ∀ v : ℕ, (∀ segment ∈ noffH.fileBacked, ¬ segment.Contains v) →
      file.getD (v + d).toNat 0 = 0) :
    LandsRight file noffH (List.range' first n) := by
  refine ⟨by simpa using hin, ?_⟩
  intro v hv
  rw [List.length_range'] at hv
  have hland {segment : Segment} (hs : segment ∈ noffH.fileBacked) :=
    landing_range' first file.length hv
      (fun h => (hin segment hs h).1) (hd segment hs)
  -- whichever loop reaches `v`, it brings the same byte of the file
  have hlast : lastLanding file.length noffH (List.range' first n)
      (physicalIndex (List.range' first n) v) =
      if (∃ segment ∈ noffH.fileBacked, 0 < segment.size ∧ segment.virtualAddr ≤ v) ∧
        (v + d).toNat < file.length then some (v + d).toNat else none := by
    unfold lastLanding
    rw [hland (by simp [NoffHeader.fileBacked]), hland (by simp [NoffHeader.fileBacked]),
      hland (by simp [NoffHeader.fileBacked])]
    simp only [NoffHeader.fileBacked, List.mem_cons, List.not_mem_nil, or_false,
      exists_eq_or_imp, exists_eq_left]
    grind
  rw [hlast]
  by_cases hc : ∃ segment ∈ noffH.fileBacked, segment.Contains v
  · obtain ⟨segment, hs, hcv⟩ := hc
    rw [belonging_of_contains hw hs hcv]
    unfold Segment.Contains at hcv
    have hsize : 0 < segment.size := by omega
    have hfile := hw.inFile segment hs hsize
    have hdv := hd segment hs hsize
    rw [if_pos ⟨⟨segment, hs, hsize, hcv.1⟩, by omega⟩]
    simp only [Option.map_some, Option.getD_some]
    congr 2
    omega
  · have hnone : ∀ segment ∈ noffH.fileBacked, ¬ segment.Contains v := by
      intro segment hs hcv
      exact hc ⟨segment, hs, hcv⟩
    rw [belonging_of_not_contains hnone]
    split
    · simpa using hrest v hnone
    · rfl

theorem chosenFrames_new {bm : Bitmap NumPhysPages} (h : Bitmap.new NumPhysPages = some bm)
    {n : ℕ} (hn : n ≤ NumPhysPages) : AddrSpace.chosenFrames bm n = List.range' 0 n := by
  obtain ⟨bm', h', hclear⟩ := Bitmap.new_spec (n := NumPhysPages) (by decide)
  obtain rfl := Option.some.inj (h.symm.trans h')
  have hall : bm.clearList = List.range NumPhysPages := by
    refine List.filter_eq_self.mpr ?_
    intro i hi
    simp [hclear i (List.mem_range.mp hi)]
  rw [AddrSpace.chosenFrames, hall, List.take_range, Nat.min_eq_left hn, List.range_eq_range']

theorem tinyProgram_loads : ∃ bm space bm' writes, Bitmap.new NumPhysPages = some bm ∧
    AddrSpace.new (some tinyProgram) bm = some (.loaded space bm' writes) := by
  have hload : ((Bitmap.new NumPhysPages).bind fun bm =>
      (AddrSpace.new (some tinyProgram) bm).map fun
        | .loaded _ _ _ => true
        | _ => false) = some true := by decide +kernel
  obtain ⟨bm, hbm, hload⟩ := Option.bind_eq_some_iff.mp hload
  obtain ⟨result, hl, hload⟩ := Option.map_eq_some_iff.mp hload
  cases result with
  | notOpened => cases hload
  | refused => cases hload
  | loaded space bm' writes => exact ⟨bm, space, bm', writes, hbm, hl⟩

theorem checkedHeader_tinyProgram : AddrSpace.checkedHeader tinyProgram =
    some ⟨0xbadfad, ⟨0, 52, 4⟩, ⟨0, 0, 0⟩, ⟨0, 0, 0⟩, ⟨0, 0, 0⟩⟩ := by decide +kernel

theorem loader_correct_tinyProgram : ∃ noffH bm space bm' writes,
    Bitmap.new NumPhysPages = some bm ∧ AddrSpace.checkedHeader tinyProgram = some noffH ∧
    WellPlaced tinyProgram noffH ∧
    AddrSpace.new (some tinyProgram) bm = some (.loaded space bm' writes) ∧
    LandsRight tinyProgram noffH (AddrSpace.chosenFrames bm (AddrSpace.pagesNeeded noffH)) ∧
    ∀ m, ImageCorrect tinyProgram noffH space (ByteStore.patchAll m writes) := by
  obtain ⟨bm, space, bm', writes, hbm, hl⟩ := tinyProgram_loads
  have hh := checkedHeader_tinyProgram
  have hw : WellPlaced tinyProgram
      ⟨0xbadfad, ⟨0, 52, 4⟩, ⟨0, 0, 0⟩, ⟨0, 0, 0⟩, ⟨0, 0, 0⟩⟩ := by
    constructor <;> decide
  have hright : LandsRight tinyProgram
      ⟨0xbadfad, ⟨0, 52, 4⟩, ⟨0, 0, 0⟩, ⟨0, 0, 0⟩, ⟨0, 0, 0⟩⟩ (AddrSpace.chosenFrames bm 33) := by
    rw [chosenFrames_new hbm (by decide)]
    refine landsRight_range' hw (by decide) (d := 52) (by decide) ?_
    intro v hv
    have hcode : ¬ ((0 : ℤ) ≤ v ∧ (v : ℤ) < 0 + 4) :=
      hv ⟨0, 52, 4⟩ (by simp [NoffHeader.fileBacked])
    have hlen : tinyProgram.length = 56 := by decide
    rw [List.getD_eq_getElem?_getD, List.getElem?_eq_none (by omega)]
    rfl
  refine ⟨_, bm, space, bm', writes, hbm, hh, hw, hl, hright, ?_⟩
  intro m
  exact (loader_correct_iff hh hw hl m).mpr hright

/-- One page of code followed by one page of data. -/
def twoSegments : HostFile :=
  [0xbadfad, 0, 52, 4, 128, 56, 4, 0, 0, 0, 0, 0, 0].flatMap (Sim.storeBytes · 4) ++
    [1, 2, 3, 4, 5, 6, 7, 8]

theorem checkedHeader_twoSegments : AddrSpace.checkedHeader twoSegments =
    some ⟨0xbadfad, ⟨0, 52, 4⟩, ⟨128, 56, 4⟩, ⟨0, 0, 0⟩, ⟨0, 0, 0⟩⟩ := by decide +kernel

/-- With frame 1 taken, `twoSegments` loads, its data is missing at virtual address 128,
and it is in frame 1 instead. -/
theorem twoSegments_loads : ∃ bm₀ bm space bm' writes,
    Bitmap.new NumPhysPages = some bm₀ ∧ bm₀.mark 1 = some bm ∧
    AddrSpace.new (some twoSegments) bm = some (.loaded space bm' writes) ∧
    byteThrough space (ByteStore.patchAll (fun _ => 0) writes) 128 = some 0 ∧
    ByteStore.patchAll (fun _ => 0) writes 128 = 5 ∧
    1 ∉ space.pageTable.map TranslationEntry.physicalPage := by
  have hrun : ((Bitmap.new NumPhysPages).bind fun bm₀ => (bm₀.mark 1).bind fun bm =>
      (AddrSpace.new (some twoSegments) bm).map fun
        | .loaded space _ writes =>
          decide (byteThrough space (ByteStore.patchAll (fun _ => 0) writes) 128 = some 0 ∧
            ByteStore.patchAll (fun _ => 0) writes 128 = 5 ∧
            1 ∉ space.pageTable.map TranslationEntry.physicalPage)
        | _ => false) = some true := by decide +kernel
  obtain ⟨bm₀, hbm₀, hrun⟩ := Option.bind_eq_some_iff.mp hrun
  obtain ⟨bm, hbm, hrun⟩ := Option.bind_eq_some_iff.mp hrun
  obtain ⟨result, hl, hrun⟩ := Option.map_eq_some_iff.mp hrun
  cases result with
  | notOpened => cases hrun
  | refused => cases hrun
  | loaded space bm' writes =>
    exact ⟨bm₀, bm, space, bm', writes, hbm₀, hbm, hl, of_decide_eq_true hrun⟩

theorem twoSegments_scattered : ∃ noffH bm₀ bm space bm' writes,
    Bitmap.new NumPhysPages = some bm₀ ∧ bm₀.mark 1 = some bm ∧
    AddrSpace.checkedHeader twoSegments = some noffH ∧ WellPlaced twoSegments noffH ∧
    AddrSpace.new (some twoSegments) bm = some (.loaded space bm' writes) ∧
    ¬ ∀ m, ImageCorrect twoSegments noffH space (ByteStore.patchAll m writes) := by
  obtain ⟨bm₀, bm, space, bm', writes, hbm₀, hbm, hl, hread, -⟩ := twoSegments_loads
  refine ⟨_, bm₀, bm, space, bm', writes, hbm₀, hbm, checkedHeader_twoSegments,
    by constructor <;> decide, hl, ?_⟩
  intro hcorrect
  have hbyte := (hcorrect fun _ => 0).segments ⟨128, 56, 4⟩ (by simp [NoffHeader.fileBacked]) 0
    (by decide)
  change byteThrough space _ 128 = some 5 at hbyte
  rw [hread] at hbyte
  cases hbyte

/-- Index `a` of `mainMemory` lies in a frame of the space. -/
def Owns (space : AddrSpace) (a : ℤ) : Prop :=
  ∃ entry ∈ space.pageTable, entry.physicalPage * PageSize ≤ a ∧
    a < entry.physicalPage * PageSize + PageSize

/-- Building the space wrote only into its own frames. -/
structure StaysInside (space : AddrSpace) (writes : List ByteStore.Patch) : Prop where
  owned : ∀ a, ByteStore.Touched writes a → Owns space a
  inMemory : ∀ a, ByteStore.Touched writes a → 0 ≤ a ∧ a < MemorySize
  unchanged : ∀ m a, ¬ Owns space a → ByteStore.patchAll m writes a = m a

/-- Whenever a copy loop has a byte of the file for offset `r` of a page, the frame
`(virtualAddr + r) / PageSize` places after the frame of that page belongs to the space too. -/
def CopiesInside (fileLength : ℕ) (noffH : NoffHeader) (frames : List ℕ) : Prop :=
  ∀ segment ∈ noffH.fileBacked, 0 < segment.size → ∀ i frame r : ℕ, frames[i]? = some frame →
    r < PageSize → segment.inFileAddr + i * PageSize + r < fileLength →
    ∃ owned ∈ frames, (owned : ℤ) = frame + (segment.virtualAddr + r) / PageSize

theorem owns_tableOf {frames : List ℕ} {a : ℤ} : Owns ⟨AddrSpace.tableOf 0 frames⟩ a ↔
    ∃ frame ∈ frames, (frame : ℤ) * PageSize ≤ a ∧ a < (frame : ℤ) * PageSize + PageSize := by
  unfold Owns
  constructor
  · rintro ⟨entry, he, ha⟩
    have hp := List.mem_map_of_mem (f := TranslationEntry.physicalPage) he
    rw [AddrSpace.map_physicalPage_tableOf] at hp
    obtain ⟨frame, hf, hpage⟩ := List.mem_map.mp hp
    exact ⟨frame, hf, hpage ▸ ha⟩
  · rintro ⟨frame, hf, ha⟩
    have hp : (frame : ℤ) ∈ (AddrSpace.tableOf 0 frames).map TranslationEntry.physicalPage := by
      rw [AddrSpace.map_physicalPage_tableOf]
      exact List.mem_map_of_mem hf
    obtain ⟨entry, he, hpage⟩ := List.mem_map.mp hp
    exact ⟨entry, he, hpage.symm ▸ ha⟩

/-- The index one turn of a copy loop writes at offset `r` is owned just when the frame
that far after the page's own is; an index that wrapped around is never owned. -/
theorem owns_dest_iff {frames : List ℕ} (hlt : ∀ frame ∈ frames, frame < NumPhysPages)
    {segment : Segment} (hr : Segment.InRange segment) {frame r : ℕ} (hf : frame ∈ frames)
    (hr' : r < PageSize) :
    Owns ⟨AddrSpace.tableOf 0 frames⟩ (int32 (segment.virtualAddr + frame * PageSize) + r) ↔
      ∃ owned ∈ frames, (owned : ℤ) = frame + (segment.virtualAddr + r) / PageSize := by
  rw [owns_tableOf]
  obtain ⟨⟨h0, h1⟩, -, -⟩ := hr
  have hframe := hlt frame hf
  refine exists_congr fun owned => and_congr_right fun ho => ?_
  have howned := hlt owned ho
  simp only [PageSize, NumPhysPages, int32, Int.bmod_def] at *
  omega

theorem touched_copyLoop {file : HostFile} {segment : Segment} {frames : List ℕ}
    {ps : List ByteStore.Patch}
    (hps : AddrSpace.copyLoop file segment 0 (AddrSpace.tableOf 0 frames) = some ps)
    (hr : Segment.InRange segment) (hlen : frames.length ≤ NumPhysPages) {a : ℤ} :
    ByteStore.Touched ps a ↔ ∃ i frame r : ℕ, frames[i]? = some frame ∧ r < PageSize ∧
      segment.inFileAddr + i * PageSize + r < file.length ∧
      a = int32 (segment.virtualAddr + frame * PageSize) + r := by
  obtain ⟨rfl, hpos⟩ := copyLoop_eq hps
  simp only [Nat.zero_add] at hpos
  have hcovers {i frame : ℕ} (hi : frames[i]? = some frame) :=
    have hp := position_exact hr hlen hpos (List.getElem?_eq_some_iff.mp hi).1
    And.intro hp.1 (covers_copyPatch file frame a hp.1 hp.2)
  constructor
  · rintro ⟨p, hp, hc⟩
    obtain ⟨⟨frame, i⟩, hmem, rfl⟩ := List.mem_map.mp hp
    have hi := mem_zipIdx_iff.mp hmem
    obtain ⟨hI, hcov⟩ := hcovers hi
    obtain ⟨h0, h1, h2⟩ := hcov.mp hc
    refine ⟨i, frame, (a - int32 (segment.virtualAddr + frame * PageSize)).toNat, hi, ?_⟩
    simp only [PageSize] at *
    omega
  · rintro ⟨i, frame, r, hi, hr', hfile, rfl⟩
    obtain ⟨hI, hcov⟩ := hcovers hi
    refine ⟨_, List.mem_map.mpr ⟨(frame, i), mem_zipIdx_iff.mpr hi, rfl⟩, hcov.mpr ?_⟩
    simp only [PageSize] at *
    omega

section Inside

variable {file : HostFile} {noffH : NoffHeader} {bm bm' : Bitmap NumPhysPages}
  {space : AddrSpace} {writes : List ByteStore.Patch}

/-- Every index the constructor writes lies in a zeroed page or comes from a copy loop. -/
theorem touched_writes (hload : AddrSpace.LoadedBy file noffH bm space bm' writes) {a : ℤ} :
    ByteStore.Touched writes a ↔ Owns space a ∨
      ∃ segment ∈ noffH.fileBacked, ∃ ps,
        AddrSpace.copySegment file segment space.pageTable = some ps ∧ ByteStore.Touched ps a := by
  have hzero : ByteStore.Touched ((AddrSpace.chosenFrames bm (AddrSpace.pagesNeeded noffH)).map
      fun frame : ℕ => AddrSpace.zeroPage frame) a ↔ Owns space a := by
    rw [hload.space_eq, owns_tableOf]
    simp [ByteStore.Touched, ByteStore.Patch.Covers, AddrSpace.zeroPage]
  rw [hload.writes_eq, ByteStore.touched_append, ByteStore.touched_append,
    ByteStore.touched_append, hzero]
  simp only [NoffHeader.fileBacked, List.mem_cons, List.not_mem_nil, or_false, exists_eq_or_imp,
    exists_eq_left, hload.code_eq, hload.initData_eq, hload.readonlyData_eq, Option.some.injEq,
    exists_eq_left']
  tauto

/-- The constructor stays inside its frames exactly when the copies do. -/
theorem stays_inside_iff (hh : AddrSpace.checkedHeader file = some noffH)
    (hl : AddrSpace.new (some file) bm = some (.loaded space bm' writes)) :
    StaysInside space writes ↔
      CopiesInside file.length noffH
        (AddrSpace.chosenFrames bm (AddrSpace.pagesNeeded noffH)) := by
  obtain ⟨hload⟩ := loadedBy_of_new hh hl
  have hrange := checkedHeader_range hh
  have hspace := hload.space_eq
  generalize hframes : AddrSpace.chosenFrames bm (AddrSpace.pagesNeeded noffH) = frames at hspace ⊢
  have hlt : ∀ frame ∈ frames, frame < NumPhysPages := hframes ▸ chosenFrames_lt
  have hlen : frames.length ≤ NumPhysPages := hframes ▸ length_chosenFrames_le
  constructor
  · intro hstay segment hs hsize i frame r hi hr hfile
    have hcopy : ∃ ps, AddrSpace.copySegment file segment space.pageTable = some ps := by
      simp only [NoffHeader.fileBacked, List.mem_cons, List.not_mem_nil, or_false] at hs
      rcases hs with rfl | rfl | rfl
      · exact ⟨_, hload.code_eq⟩
      · exact ⟨_, hload.initData_eq⟩
      · exact ⟨_, hload.readonlyData_eq⟩
    obtain ⟨ps, hps⟩ := hcopy
    have hloop := hps
    rw [AddrSpace.copySegment, if_pos hsize, hspace] at hloop
    have htouched := (touched_copyLoop hloop (hrange segment hs) hlen).mpr
      ⟨i, frame, r, hi, hr, hfile, rfl⟩
    have howns := hstay.owned _ ((touched_writes hload).mpr (.inr ⟨segment, hs, ps, hps, htouched⟩))
    rw [hspace] at howns
    exact (owns_dest_iff hlt (hrange segment hs) (List.mem_of_getElem? hi) hr).mp howns
  · intro hinside
    have howned : ∀ a, ByteStore.Touched writes a → Owns space a := by
      intro a ha
      rcases (touched_writes hload).mp ha with ha | ⟨segment, hs, ps, hps, ha⟩
      · exact ha
      unfold AddrSpace.copySegment at hps
      split at hps
      · next hsize =>
        rw [hspace] at hps ⊢
        obtain ⟨i, frame, r, hi, hr, hfile, rfl⟩ :=
          (touched_copyLoop hps (hrange segment hs) hlen).mp ha
        refine (owns_dest_iff hlt (hrange segment hs) (List.mem_of_getElem? hi) hr).mpr ?_
        exact hinside segment hs hsize i frame r hi hr hfile
      · cases hps
        obtain ⟨p, hp, -⟩ := ha
        cases hp
    refine ⟨howned, ?_, ?_⟩
    · intro a ha
      have howns := howned a ha
      rw [hspace, owns_tableOf] at howns
      obtain ⟨frame, hf, h0, h1⟩ := howns
      have hframe := hlt frame hf
      simp only [MemorySize, NumPhysPages, PageSize] at *
      omega
    · intro m a ha
      exact ByteStore.patchAll_of_not_touched fun ht => ha (howned a ht)

end Inside

theorem stays_inside_tinyProgram : ∃ noffH bm space bm' writes,
    Bitmap.new NumPhysPages = some bm ∧ AddrSpace.checkedHeader tinyProgram = some noffH ∧
    AddrSpace.new (some tinyProgram) bm = some (.loaded space bm' writes) ∧
    StaysInside space writes := by
  obtain ⟨bm, space, bm', writes, hbm, hl⟩ := tinyProgram_loads
  refine ⟨_, bm, space, bm', writes, hbm, checkedHeader_tinyProgram, hl,
    (stays_inside_iff checkedHeader_tinyProgram hl).mpr ?_⟩
  intro segment hs hsize i frame r hi hr _
  simp only [NoffHeader.fileBacked, List.mem_cons, List.not_mem_nil, or_false] at hs
  rcases hs with rfl | rfl | rfl
  · refine ⟨frame, List.mem_of_getElem? hi, ?_⟩
    simp only [PageSize] at hr ⊢
    omega
  · exact absurd hsize (by decide)
  · exact absurd hsize (by decide)

/-- Loading `twoSegments` while somebody else has frame 1 overwrites that frame. -/
theorem twoSegments_overwrites : ∃ noffH bm₀ bm space bm' writes,
    Bitmap.new NumPhysPages = some bm₀ ∧ bm₀.mark 1 = some bm ∧
    AddrSpace.checkedHeader twoSegments = some noffH ∧
    AddrSpace.new (some twoSegments) bm = some (.loaded space bm' writes) ∧
    ¬ Owns space 128 ∧ ByteStore.patchAll (fun _ => 0) writes 128 = 5 ∧
    ¬ StaysInside space writes := by
  obtain ⟨bm₀, bm, space, bm', writes, hbm₀, hbm, hl, -, hwritten, hfree⟩ := twoSegments_loads
  have hother : ¬ Owns space 128 := by
    rintro ⟨entry, he, h0, h1⟩
    have hone : entry.physicalPage = 1 := by
      simp only [PageSize] at h0 h1
      omega
    exact hfree (hone ▸ List.mem_map_of_mem he)
  refine ⟨_, bm₀, bm, space, bm', writes, hbm₀, hbm, checkedHeader_twoSegments, hl, hother,
    hwritten, ?_⟩
  intro hstay
  have hkept := hstay.unchanged (fun _ => 0) 128 hother
  rw [hwritten] at hkept
  cases hkept

end Loader
end Nachos

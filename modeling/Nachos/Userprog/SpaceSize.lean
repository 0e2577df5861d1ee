import Nachos.Userprog.Loader

/-! Whether an accepted program fits the space it is given. The constructor adds up the sizes
of three segments and the stack in an `unsigned int`; the fourth segment and the virtual
addresses do not enter the page count. -/
namespace Nachos

namespace SpaceSize

open AddrSpace

/-- The sum of which the constructor takes the page count, before it is cut to 32 bits. -/
def spaceSize (noffH : NoffHeader) : ℤ :=
  noffH.code.size + noffH.initData.size + noffH.uninitData.size + UserStackSize

/-- The header passes both assertions and the test for free frames. -/
structure Accepted (executable : HostFile) (bm : Bitmap NumPhysPages) (noffH : NoffHeader) :
    Prop where
  magic : checkedHeader executable = some noffH
  fits : pagesNeeded noffH ≤ NumPhysPages
  free : pagesNeeded noffH ≤ bm.clearList.length

/-- No size is negative, the sum has not been cut, and `numPages` pages hold every byte of the
segments with the stack above them. -/
structure LargeEnough (noffH : NoffHeader) (numPages : ℕ) : Prop where
  size_nonneg : ∀ segment ∈ noffH.segments, 0 ≤ segment.size
  exact : uint32 (spaceSize noffH) = spaceSize noffH
  contains : ∀ segment ∈ noffH.segments, ∀ v, segment.Contains v →
    0 ≤ v ∧ v < (numPages * PageSize : ℕ)
  stack : ∃ base : ℤ, 0 ≤ base ∧ base + UserStackSize ≤ (numPages * PageSize : ℕ) ∧
    ∀ segment ∈ noffH.segments, ∀ v, segment.Contains v → v < base

/-- The bytes of the three segments that are counted. -/
def countedSize (noffH : NoffHeader) : ℤ :=
  noffH.code.size + noffH.initData.size + noffH.uninitData.size

/-- The headers for which the page count is right: nothing is negative, what is counted fits
beside the stack, and no segment, counted or not, goes beyond the pages of what is counted. -/
structure WellSized (noffH : NoffHeader) : Prop where
  size_nonneg : ∀ segment ∈ noffH.segments, 0 ≤ segment.size
  counted_le : countedSize noffH ≤ MemorySize - UserStackSize
  inside : ∀ segment ∈ noffH.segments, 0 < segment.size → 0 ≤ segment.virtualAddr ∧
    segment.virtualAddr + segment.size ≤
      (divRoundUp (countedSize noffH).toNat PageSize * PageSize : ℕ)

theorem divRoundUp_add_mul (n k : ℕ) {s : ℕ} (hs : 0 < s) :
    divRoundUp (n + k * s) s = divRoundUp n s + k := by
  rw [divRoundUp, divRoundUp, Nat.add_mul_div_right _ _ hs, Nat.add_mul_mod_self_right]
  omega

theorem le_divRoundUp_mul (n : ℕ) {s : ℕ} (hs : 0 < s) : n ≤ divRoundUp n s * s := by
  have hsplit := Nat.div_add_mod' n s
  have hmod := Nat.mod_lt n hs
  rw [divRoundUp, Nat.add_mul]
  split_ifs <;> omega

variable {noffH : NoffHeader}

/-- The stack is a whole number of pages, so the count splits. -/
theorem pagesNeeded_of_exact (h0 : 0 ≤ countedSize noffH)
    (hexact : uint32 (spaceSize noffH) = spaceSize noffH) :
    pagesNeeded noffH = divRoundUp (countedSize noffH).toNat PageSize + 32 := by
  have hsum : uint32 (spaceSize noffH) = (countedSize noffH).toNat + 32 * PageSize := by
    have hstack : spaceSize noffH = countedSize noffH + (32 * PageSize : ℕ) := rfl
    omega
  rw [← divRoundUp_add_mul _ _ (by decide), ← hsum]
  rfl

theorem countedSize_nonneg (h : ∀ segment ∈ noffH.segments, 0 ≤ segment.size) :
    0 ≤ countedSize noffH := by
  have hcode := h noffH.code (by simp [NoffHeader.segments, NoffHeader.fileBacked])
  have hinit := h noffH.initData (by simp [NoffHeader.segments, NoffHeader.fileBacked])
  have huninit := h noffH.uninitData (by simp [NoffHeader.segments])
  unfold countedSize
  omega

theorem WellSized.exact (h : WellSized noffH) :
    uint32 (spaceSize noffH) = spaceSize noffH := by
  have h0 := countedSize_nonneg h.size_nonneg
  have hle := h.counted_le
  have hstack : spaceSize noffH = countedSize noffH + UserStackSize := rfl
  have hsmall : (MemorySize : ℤ) < 4294967296 := by decide
  rw [uint32, Int.emod_eq_of_lt (by omega) (by omega)]
  omega

theorem WellSized.largeEnough (h : WellSized noffH) :
    LargeEnough noffH (pagesNeeded noffH) := by
  have h0 := countedSize_nonneg h.size_nonneg
  have hpages := pagesNeeded_of_exact h0 h.exact
  have hbytes : pagesNeeded noffH * PageSize =
      divRoundUp (countedSize noffH).toNat PageSize * PageSize + UserStackSize := by
    rw [hpages, Nat.add_mul]
    rfl
  have hinside : ∀ segment ∈ noffH.segments, ∀ v, segment.Contains v →
      0 ≤ v ∧ v < (divRoundUp (countedSize noffH).toNat PageSize * PageSize : ℕ) := by
    intro segment hs v hv
    obtain ⟨hge, hlt⟩ := hv
    obtain ⟨hva, hend⟩ := h.inside segment hs (by omega)
    omega
  refine ⟨h.size_nonneg, h.exact, ?_, ?_⟩
  · intro segment hs v hv
    have hv := hinside segment hs v hv
    rw [hbytes]
    omega
  · refine ⟨_, Int.natCast_nonneg _, ?_, fun segment hs v hv => (hinside segment hs v hv).2⟩
    rw [hbytes]
    omega

theorem LargeEnough.wellSized (h : LargeEnough noffH (pagesNeeded noffH))
    (hfits : pagesNeeded noffH ≤ NumPhysPages) : WellSized noffH := by
  have h0 := countedSize_nonneg h.size_nonneg
  have hpages := pagesNeeded_of_exact h0 h.exact
  have hcounted := le_divRoundUp_mul (countedSize noffH).toNat (s := PageSize) (by decide)
  have hbytes : pagesNeeded noffH * PageSize =
      divRoundUp (countedSize noffH).toNat PageSize * PageSize + UserStackSize := by
    rw [hpages, Nat.add_mul]
    rfl
  refine ⟨h.size_nonneg, ?_, ?_⟩
  · have hmemory : pagesNeeded noffH * PageSize ≤ MemorySize := Nat.mul_le_mul_right _ hfits
    omega
  · intro segment hs hpos
    have hfirst : segment.Contains segment.virtualAddr := ⟨le_rfl, by omega⟩
    have hlast : segment.Contains (segment.virtualAddr + segment.size - 1) := by
      constructor <;> omega
    obtain ⟨base, -, hbase, habove⟩ := h.stack
    have hend := habove segment hs _ hlast
    refine ⟨(h.contains segment hs _ hfirst).1, ?_⟩
    rw [hbytes] at hbase
    omega

theorem numPages_of_loaded {executable : HostFile} {bm bm' : Bitmap NumPhysPages}
    {space : AddrSpace} {writes : List ByteStore.Patch}
    (hh : checkedHeader executable = some noffH)
    (hl : AddrSpace.new (some executable) bm = some (.loaded space bm' writes)) :
    space.numPages = pagesNeeded noffH := by
  obtain ⟨hload⟩ := Loader.loadedBy_of_new hh hl
  rw [numPages, hload.space_eq, length_tableOf]
  exact hload.length_chosenFrames

theorem free_new {bm : Bitmap NumPhysPages} (h : Bitmap.new NumPhysPages = some bm) :
    bm.clearList.length = NumPhysPages := by
  have hlen := congrArg List.length (Loader.chosenFrames_new h (n := NumPhysPages) le_rfl)
  have hle := List.length_filter_le (fun i => !bm.mem i) (List.range NumPhysPages)
  simp only [chosenFrames, List.length_take, List.length_range'] at hlen
  rw [List.length_range] at hle
  exact le_antisymm hle (by omega)

/-- An accepted program gets a space that is large enough for it exactly if its header is well
sized; and what is accepted has that many pages. -/
theorem large_enough_iff {executable : HostFile} {bm : Bitmap NumPhysPages}
    (h : Accepted executable bm noffH) :
    (LargeEnough noffH (pagesNeeded noffH) ↔ WellSized noffH) ∧
    ∀ space bm' writes, AddrSpace.new (some executable) bm = some (.loaded space bm' writes) →
      space.numPages = pagesNeeded noffH :=
  ⟨⟨fun hlarge => hlarge.wellSized h.fits, WellSized.largeEnough⟩,
    fun _ _ _ hl => numPages_of_loaded h.magic hl⟩

theorem large_enough_tinyProgram : ∃ noffH bm, Bitmap.new NumPhysPages = some bm ∧
    Accepted tinyProgram bm noffH ∧ LargeEnough noffH (pagesNeeded noffH) := by
  obtain ⟨bm, -, -, -, hbm, -⟩ := Loader.tinyProgram_loads
  have h : Accepted tinyProgram bm ⟨0xbadfad, ⟨0, 52, 4⟩, ⟨0, 0, 0⟩, ⟨0, 0, 0⟩, ⟨0, 0, 0⟩⟩ :=
    ⟨Loader.checkedHeader_tinyProgram, by decide, by rw [free_new hbm]; decide⟩
  exact ⟨_, bm, hbm, h, (large_enough_iff h).1.mpr ⟨by decide, by decide, by decide⟩⟩

/-- A page of code, and constants that go up to virtual address 8320. -/
def largeConstants : HostFile :=
  [0xbadfad, 0, 52, 128, 0, 0, 0, 128, 180, 8192, 0, 0, 0].flatMap (Sim.storeBytes · 4)

theorem checkedHeader_largeConstants : checkedHeader largeConstants =
    some ⟨0xbadfad, ⟨0, 52, 128⟩, ⟨0, 0, 0⟩, ⟨128, 180, 8192⟩, ⟨0, 0, 0⟩⟩ := by decide +kernel

/-- The constants end at 8320; the space of `largeConstants` ends at 4224. -/
theorem largeConstants_too_large : ∃ noffH bm, Bitmap.new NumPhysPages = some bm ∧
    Accepted largeConstants bm noffH ∧ ¬ LargeEnough noffH (pagesNeeded noffH) := by
  obtain ⟨bm, -, -, -, hbm, -⟩ := Loader.tinyProgram_loads
  refine ⟨_, bm, hbm, ⟨checkedHeader_largeConstants, by decide, ?_⟩, fun h => ?_⟩
  · rw [free_new hbm]
    decide
  · have hlast := h.contains ⟨128, 180, 8192⟩ (by decide) 8319 ⟨by decide, by decide⟩
    exact absurd hlast.2 (by decide)

end SpaceSize
end Nachos

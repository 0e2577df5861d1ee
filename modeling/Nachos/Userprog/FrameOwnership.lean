import Nachos.Library.Runs
import Nachos.Threads.Synch
import Nachos.Userprog.AddrSpace

/-! Who owns which frame. Threads build address spaces under `addrLock` and delete
them at any moment, without the lock. The processor changes hands only inside `P`
and `V`, so a constructor runs unbroken from the return of `P` to its `V`. -/
namespace Nachos.FrameOwnership

inductive Job where
  | idle
  -- asleep in `addrLock->P()`, or woken there and about to test the counter again
  | waiting (executable : HostFile) (noffH : NoffHeader)
  -- past `addrLock->P()`
  | holding (executable : HostFile) (noffH : NoffHeader)
  deriving DecidableEq

/-- The objects in `live` are `none` where the constructor was refused: `numPages` is 0
then and `pageTable` was never set. -/
structure State where
  gPhysPageBitMap : Bitmap NumPhysPages
  addrLock : Semaphore
  job : ThreadId → Job
  live : List (Option AddrSpace)

inductive Action where
  | create (t : ThreadId) (executable : HostFile)
  | wake (t : ThreadId)
  | build (t : ThreadId)
  | delete (k : ℕ)

def acquire (s : State) (t : ThreadId) (executable : HostFile) (noffH : NoffHeader) : State :=
  let (entered, addrLock) := s.addrLock.P t
  { s with
    addrLock
    job := Function.update s.job t
      (if entered then .holding executable noffH else .waiting executable noffH) }

/-- The constructor returns: `addrLock->V()`, and the new object is live. -/
def finish (s : State) (t : ThreadId) (object : Option AddrSpace) (bm : Bitmap NumPhysPages) :
    State :=
  { gPhysPageBitMap := bm
    addrLock := s.addrLock.V.2
    job := Function.update s.job t .idle
    live := object :: s.live }

def step (s : State) : Action → Option State
  | .create t executable =>
    match s.job t with
    | .idle => do return acquire s t executable (← AddrSpace.checkedHeader executable)
    | _ => none
  | .wake t =>
    match s.job t with
    | .waiting executable noffH =>
      if t ∈ s.addrLock.queue then none else some (acquire s t executable noffH)
    | _ => none
  | .build t =>
    match s.job t with
    | .holding executable noffH => do
      match ← AddrSpace.locked executable noffH s.gPhysPageBitMap with
      | .notOpened => none
      | .refused => return finish s t none s.gPhysPageBitMap
      | .loaded space bm _ => return finish s t (some space) bm
    | _ => none
  | .delete k => do
    -- of a refused object the destructor does `delete[]` on a pointer that was never set
    let space ← (← s.live[k]?)
    return { s with
      gPhysPageBitMap := ← space.destroy s.gPhysPageBitMap
      live := s.live.eraseIdx k }

/-- The kernel after `Kernel::Initialize`. -/
def Initial (s : State) : Prop :=
  Bitmap.new NumPhysPages = some s.gPhysPageBitMap ∧ s.addrLock = Semaphore.new 1 ∧
    (∀ t, s.job t = .idle) ∧ s.live = []

def frames : Option AddrSpace → List ℤ
  | none => []
  | some space => space.pageTable.map TranslationEntry.physicalPage

/-- Every entry names a frame, no frame is named twice, and the bitmap marks
exactly the frames that one live space owns. -/
structure FramesOwned (s : State) : Prop where
  inRange : ∀ space, some space ∈ s.live → ∀ entry ∈ space.pageTable,
    0 ≤ entry.physicalPage ∧ entry.physicalPage < NumPhysPages
  sameSpace : ∀ object ∈ s.live, (frames object).Nodup
  otherSpace : s.live.Pairwise fun a b => ∀ page ∈ frames a, page ∉ frames b
  marked : ∀ frame < NumPhysPages, s.gPhysPageBitMap.mem frame = true ↔
    s.live.countP (fun object => decide ((frame : ℤ) ∈ frames object)) = 1

/-- `delete` of the object at `k` runs through and returns exactly its frames. -/
def ReturnsFrames (s : State) (k : ℕ) (object : Option AddrSpace) : Prop :=
  ∃ s', step s (.delete k) = some s' ∧ ∀ frame < NumPhysPages, s'.gPhysPageBitMap.mem frame =
    (s.gPhysPageBitMap.mem frame && !decide ((frame : ℤ) ∈ frames object))

/-- The working form of the invariant, over the frames of all live spaces in one list. -/
structure Inv (s : State) : Prop where
  nodup : (s.live.flatMap frames).Nodup
  inRange : ∀ page ∈ s.live.flatMap frames, 0 ≤ page ∧ page < NumPhysPages
  marked : ∀ frame < NumPhysPages, s.gPhysPageBitMap.mem frame =
    decide ((frame : ℤ) ∈ s.live.flatMap frames)

theorem countP_owner_eq_one {live : List (Option AddrSpace)} (h : (live.flatMap frames).Nodup)
    (page : ℤ) :
    live.countP (fun object => decide (page ∈ frames object)) = 1 ↔
      page ∈ live.flatMap frames := by
  induction live with
  | nil => simp
  | cons object live ih =>
    rw [List.flatMap_cons, List.nodup_append] at h
    rw [List.countP_cons, List.flatMap_cons, List.mem_append]
    by_cases hp : page ∈ frames object
    · have hnone : page ∉ live.flatMap frames := fun hq => h.2.2 page hp page hq rfl
      have hzero : live.countP (fun object => decide (page ∈ frames object)) = 0 := by
        rw [List.countP_eq_zero]
        intro other ho hq
        exact hnone (List.mem_flatMap.mpr ⟨other, ho, of_decide_eq_true hq⟩)
      simp [hp, hzero]
    · simp [hp, ih h.2.1]

theorem Inv.framesOwned {s : State} (h : Inv s) : FramesOwned s where
  inRange space hs entry he :=
    h.inRange _ (List.mem_flatMap.mpr ⟨some space, hs, List.mem_map_of_mem he⟩)
  sameSpace := (List.nodup_flatMap.mp h.nodup).1
  otherSpace := by
    refine (List.nodup_flatMap.mp h.nodup).2.imp ?_
    intro a b hab page ha hb
    exact hab ha hb
  marked frame hf := by
    rw [h.marked frame hf, decide_eq_true_iff, countP_owner_eq_one h.nodup]

theorem initial_inv {s : State} (h : Initial s) : Inv s := by
  obtain ⟨hb, -, -, hl⟩ := h
  obtain ⟨b, hnew, hclear⟩ := Bitmap.new_spec (n := NumPhysPages) (by decide)
  obtain rfl := Option.some.inj (hnew.symm.trans hb)
  refine ⟨by simp [hl], by simp [hl], ?_⟩
  intro frame hf
  simp [hclear frame hf, hl]

theorem Inv.congr {s s' : State} (h : Inv s) (hb : s'.gPhysPageBitMap = s.gPhysPageBitMap)
    (hl : s'.live = s.live) : Inv s' :=
  ⟨hl ▸ h.nodup, hl ▸ h.inRange, by rw [hb, hl]; exact h.marked⟩

theorem finish_refused_inv {s : State} (h : Inv s) (t : ThreadId) :
    Inv (finish s t none s.gPhysPageBitMap) := by
  have hl : (finish s t none s.gPhysPageBitMap).live.flatMap frames = s.live.flatMap frames := by
    simp [finish, frames]
  exact ⟨hl ▸ h.nodup, hl ▸ h.inRange, by rw [hl]; exact h.marked⟩

theorem finish_loaded_inv {s : State} (h : Inv s) (t : ThreadId) {executable : HostFile}
    {noffH : NoffHeader} {space : AddrSpace} {bm : Bitmap NumPhysPages}
    {writes : List ByteStore.Patch}
    (hl : AddrSpace.LoadedBy executable noffH s.gPhysPageBitMap space bm writes) :
    Inv (finish s t (some space) bm) := by
  let chosen := AddrSpace.chosenFrames s.gPhysPageBitMap (AddrSpace.pagesNeeded noffH)
  have hchosen : ∀ frame ∈ chosen, frame < NumPhysPages ∧ s.gPhysPageBitMap.mem frame = false :=
    fun frame hf => AddrSpace.mem_chosenFrames hf
  have hframes : frames (some space) = chosen.map Nat.cast := by
    rw [frames, hl.space_eq, AddrSpace.map_physicalPage_tableOf]
  have hlive : (finish s t (some space) bm).live.flatMap frames =
      chosen.map Nat.cast ++ s.live.flatMap frames := by
    rw [finish, List.flatMap_cons, hframes]
  -- a chosen frame was clear, so no space that was live before owns it
  have hfresh : ∀ frame ∈ chosen, (frame : ℤ) ∉ s.live.flatMap frames := by
    intro frame hf hmem
    have hm := h.marked frame (hchosen frame hf).1
    rw [(hchosen frame hf).2] at hm
    simp [hmem] at hm
  refine ⟨?_, ?_, ?_⟩
  · rw [hlive, List.nodup_append]
    refine ⟨(AddrSpace.chosenFrames_nodup _ _).map Nat.cast_injective, h.nodup, ?_⟩
    intro a ha b hb hab
    obtain ⟨frame, hf, rfl⟩ := List.mem_map.mp ha
    exact hfresh frame hf (hab ▸ hb)
  · intro page hp
    rw [hlive, List.mem_append] at hp
    rcases hp with hp | hp
    · obtain ⟨frame, hf, rfl⟩ := List.mem_map.mp hp
      have := (hchosen frame hf).1
      omega
    · exact h.inRange page hp
  · intro frame hf
    rw [hlive]
    change bm.mem frame = _
    rw [hl.bitmap_eq, Bitmap.mem_foldl_insert (fun i hi => (hchosen i hi).1) hf, h.marked frame hf]
    simp [chosen]

/-- The destructor of a live space that was loaded never fails an assertion and clears
exactly its frames. -/
theorem destroy_live {s : State} (h : Inv s) {space : AddrSpace} (hs : some space ∈ s.live) :
    ∃ bm, space.destroy s.gPhysPageBitMap = some bm ∧ ∀ frame < NumPhysPages, bm.mem frame =
      (s.gPhysPageBitMap.mem frame && !decide ((frame : ℤ) ∈ frames (some space))) := by
  have hrange : ∀ page ∈ frames (some space), 0 ≤ page ∧ page < NumPhysPages :=
    fun page hp => h.inRange page (List.mem_flatMap.mpr ⟨some space, hs, hp⟩)
  have hcast : frames (some space) = ((frames (some space)).map Int.toNat).map Nat.cast := by
    rw [List.map_map]
    conv_lhs => rw [← List.map_id (frames (some space))]
    apply List.map_congr_left
    intro page hp
    exact (Int.toNat_of_nonneg (hrange page hp).1).symm
  have hlt : ∀ frame ∈ (frames (some space)).map Int.toNat, frame < NumPhysPages := by
    intro frame hf
    obtain ⟨page, hp, rfl⟩ := List.mem_map.mp hf
    have := hrange page hp
    omega
  refine ⟨_, AddrSpace.destroy_eq hcast hlt _, ?_⟩
  intro frame hf
  have hmem : frame ∈ (frames (some space)).map Int.toNat ↔
      (frame : ℤ) ∈ frames (some space) := by
    conv_rhs => rw [hcast]
    exact (List.mem_map_of_injective Nat.cast_injective).symm
  rw [Bitmap.mem_foldl_erase hlt hf]
  simp only [hmem]

theorem delete_inv {s : State} (h : Inv s) {k : ℕ} {space : AddrSpace}
    {bm : Bitmap NumPhysPages} (hk : s.live[k]? = some (some space))
    (hb : space.destroy s.gPhysPageBitMap = some bm) :
    Inv { s with gPhysPageBitMap := bm, live := s.live.eraseIdx k } := by
  obtain ⟨hlt, hget⟩ := List.getElem?_eq_some_iff.mp hk
  have hperm : (frames (some space) ++ (s.live.eraseIdx k).flatMap frames).Perm
      (s.live.flatMap frames) := by
    have := (List.getElem_cons_eraseIdx_perm hlt).flatMap_right frames
    rwa [hget, List.flatMap_cons] at this
  have hnodup := hperm.nodup_iff.mpr h.nodup
  rw [List.nodup_append] at hnodup
  obtain ⟨bm', hb', hmem⟩ := destroy_live h (List.mem_of_getElem? hk)
  obtain rfl := Option.some.inj (hb'.symm.trans hb)
  refine ⟨hnodup.2.1, ?_, ?_⟩
  · intro page hp
    exact h.inRange page (hperm.subset (List.mem_append_right _ hp))
  · intro frame hf
    rw [hmem frame hf, h.marked frame hf, Bool.eq_iff_iff]
    simp only [Bool.and_eq_true, decide_eq_true_eq, Bool.not_eq_true', decide_eq_false_iff_not]
    rw [← hperm.mem_iff, List.mem_append]
    constructor
    · rintro ⟨hp | hp, hn⟩
      · exact absurd hp hn
      · exact hp
    · intro hp
      exact ⟨.inr hp, fun hq => hnodup.2.2 _ hq _ hp rfl⟩

theorem step_inv {s s' : State} {a : Action} (h : Inv s) (hs : step s a = some s') : Inv s' := by
  cases a with
  | create t executable =>
    simp only [step] at hs
    split at hs
    · obtain ⟨noffH, -, hs⟩ := Option.bind_eq_some_iff.mp hs
      cases hs
      exact h.congr rfl rfl
    · cases hs
  | wake t =>
    simp only [step] at hs
    split at hs
    · split at hs
      · cases hs
      · cases hs
        exact h.congr rfl rfl
    · cases hs
  | build t =>
    simp only [step] at hs
    split at hs
    · obtain ⟨result, hr, hs⟩ := Option.bind_eq_some_iff.mp hs
      rcases AddrSpace.locked_cases hr with ⟨rfl, -⟩ | ⟨space, bm, writes, rfl, ⟨hl⟩⟩
      · cases hs
        exact finish_refused_inv h t
      · cases hs
        exact finish_loaded_inv h t hl
    · cases hs
  | delete k =>
    obtain ⟨object, hk, hs⟩ := Option.bind_eq_some_iff.mp hs
    obtain ⟨space, hspace, hs⟩ := Option.bind_eq_some_iff.mp hs
    obtain ⟨bm, hb, hs⟩ := Option.bind_eq_some_iff.mp hs
    cases hs
    exact delete_inv h (hspace ▸ hk) hb

theorem reach_inv {s₀ s : State} (h0 : Initial s₀)
    (h : Runs.Reach step (fun _ _ => True) s₀ s) : Inv s :=
  h.invariant (initial_inv h0) fun _ _ _ hi _ hs => step_inv hi hs

theorem returnsFrames_iff {s : State} (h : Inv s) {k : ℕ} {object : Option AddrSpace}
    (hk : s.live[k]? = some object) : ReturnsFrames s k object ↔ object ≠ none := by
  constructor
  · rintro ⟨s', hs, -⟩ rfl
    simp [step, hk] at hs
  · intro hloaded
    obtain ⟨space, rfl⟩ := Option.ne_none_iff_exists'.mp hloaded
    obtain ⟨bm, hb, hmem⟩ := destroy_live h (List.mem_of_getElem? hk)
    refine ⟨{ s with gPhysPageBitMap := bm, live := s.live.eraseIdx k }, ?_, hmem⟩
    simp only [step, hk, Option.bind_eq_bind, Option.bind_some, hb]
    rfl

/-- In every state the kernel reaches, by any interleaving, the live spaces own disjoint
frames and the bitmap marks just these. A constructor that passes the test on
`NumClear` gets a frame from every `FindAndSet`, one that fails it takes none, and
deleting a live object returns exactly its frames unless it is one that was refused. -/
theorem frames_owned {s₀ s : State} (h0 : Initial s₀)
    (h : Runs.Reach step (fun _ _ => True) s₀ s) :
    FramesOwned s ∧
    (∀ noffH free, s.gPhysPageBitMap.numClear = some free → AddrSpace.pagesNeeded noffH ≤ free →
      ∃ table bm writes, AddrSpace.allocLoop s.gPhysPageBitMap 0 (AddrSpace.pagesNeeded noffH) =
        some (table, bm, writes) ∧ ∀ entry ∈ table, entry.physicalPage ≠ -1) ∧
    (∀ t executable noffH s', s.job t = .holding executable noffH →
      AddrSpace.locked executable noffH s.gPhysPageBitMap = some .refused →
      step s (.build t) = some s' →
      s'.gPhysPageBitMap = s.gPhysPageBitMap ∧ s'.live = none :: s.live) ∧
    (∀ k object, s.live[k]? = some object → (ReturnsFrames s k object ↔ object ≠ none)) := by
  have hi := reach_inv h0 h
  refine ⟨hi.framesOwned, ?_, ?_, ?_⟩
  · intro noffH free hfree hle
    rw [Bitmap.numClear_eq] at hfree
    obtain rfl := Option.some.inj hfree
    refine ⟨_, _, _, AddrSpace.allocLoop_eq _ _ 0 hle, ?_⟩
    intro entry he
    have hp := List.mem_map_of_mem (f := TranslationEntry.physicalPage) he
    rw [AddrSpace.map_physicalPage_tableOf] at hp
    obtain ⟨frame, -, hf⟩ := List.mem_map.mp hp
    omega
  · intro t executable noffH s' hj hl hs
    simp only [step, hj, hl] at hs
    cases hs
    exact ⟨rfl, rfl⟩
  · intro k object hk
    exact returnsFrames_iff hi hk

/-- The actions of one thread that builds `n` spaces of 33 pages. -/
def spaces (n : ℕ) : List Action :=
  (List.replicate n [.create 0 tinyProgram, .build 0]).flatten

/-- Any run of the kernel from its start, given what the run leaves. -/
theorem exists_run (actions : List Action) (sizes : List (Option ℕ))
    (h : ((Bitmap.new NumPhysPages).bind fun bm =>
      (Runs.exec step ⟨bm, Semaphore.new 1, fun _ => .idle, []⟩ actions).map fun s =>
        s.live.map (Option.map AddrSpace.numPages)) = some sizes) :
    ∃ s₀ s, Initial s₀ ∧ Runs.Reach step (fun _ _ => True) s₀ s ∧
      s.live.map (Option.map AddrSpace.numPages) = sizes := by
  obtain ⟨bm, hbm, hrun⟩ := Option.bind_eq_some_iff.mp h
  obtain ⟨s, hs, hl⟩ := Option.map_eq_some_iff.mp hrun
  exact ⟨_, s, ⟨hbm, rfl, fun _ => rfl, rfl⟩, Runs.reach_of_exec hs, hl⟩

theorem frames_owned_tinyProgram : ∃ s₀ s, Initial s₀ ∧
    Runs.Reach step (fun _ _ => True) s₀ s ∧
    s.live.map (Option.map AddrSpace.numPages) = [some 33] ∧ FramesOwned s := by
  obtain ⟨s₀, s, h0, hr, hl⟩ := exists_run (spaces 1) [some 33] (by decide +kernel)
  exact ⟨s₀, s, h0, hr, hl, (frames_owned h0 hr).1⟩

/-- Three spaces of 33 pages leave 29 of the 128 frames, so the fourth is refused, and
its destructor has no result. -/
theorem refused_not_deleted : ∃ s₀ s, Initial s₀ ∧ Runs.Reach step (fun _ _ => True) s₀ s ∧
    s.live.map (Option.map AddrSpace.numPages) = [none, some 33, some 33, some 33] ∧
    step s (.delete 0) = none ∧
    ¬∀ k object, s.live[k]? = some object → ReturnsFrames s k object := by
  obtain ⟨s₀, s, h0, hr, hl⟩ := exists_run (spaces 4) [none, some 33, some 33, some 33]
    (by decide +kernel)
  have hk : s.live[0]? = some none := by
    have := congrArg (·[0]?) hl
    simpa using this
  have hnone : step s (.delete 0) = none := by
    simp [step, hk]
  refine ⟨s₀, s, h0, hr, hl, hnone, ?_⟩
  intro hall
  obtain ⟨s', hs, -⟩ := hall 0 none hk
  simp [hnone] at hs

end Nachos.FrameOwnership

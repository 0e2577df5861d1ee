import Nachos.Threads.Scheduler
import Nachos.Userprog.Loader

/-! Several user programs at a time. `main`, `StartProcess_1` and `StartProcess_2` build an address
space in the thread that is going to run it, and the processor may change hands before `Execute`;
the space goes when its process exits. The frames come from one bitmap. -/
namespace Nachos.Multiprogramming

open AddrSpace (Members)
open Scheduler (KernelInv Thread)

structure System where
  kernel : Scheduler.Kernel
  gPhysPageBitMap : Bitmap NumPhysPages
  /-- The page tables are at lower addresses of the kernel heap. -/
  heap : ℕ
  /-- The variable `space` of a thread, from the constructor to `Execute`. -/
  built : ThreadId → Option Members
  /-- The constructor has refused the last space that the thread built. -/
  refused : ThreadId → Bool

inductive Event where
  /-- An instruction, an access that the kernel makes for the program, a fork or a switch. -/
  | kernel (e : Scheduler.Event)
  /-- The constructor `AddrSpace(char*)` past `addrLock->P()`, for an object whose `pageTable` has
  held `stale`. -/
  | newSpace (executable : HostFile) (stale : Option ℕ)
  | execute
  | freeSpace

/-- The events of the kernel that are not about address spaces. A thread that has none yet reaches
memory through the table of the process that ran last, as `StartProcess_2` does. -/
def Usual : Scheduler.Event → Prop
  | .execute _ | .freeSpace | .kernel .. => False
  | _ => True

instance : (e : Scheduler.Event) → Decidable (Usual e)
  | .execute _ | .freeSpace | .kernel .. => inferInstanceAs (Decidable False)
  | .readMem .. | .writeMem .. | .instruction | .writeRegister .. | .fork _ | .run .. =>
    inferInstanceAs (Decidable True)

namespace System

/-- The constructor returns to the current thread: the table is on the heap, the bytes have been
written and the frames are marked. -/
def place (s : System) (space : Members) (table : PageTable) (bm : Bitmap NumPhysPages)
    (writes : List ByteStore.Patch) : System where
  kernel := { s.kernel with
    machine := { s.kernel.machine with
      mainMemory := ByteStore.patchAll s.kernel.machine.mainMemory writes
      tables := Function.update s.kernel.machine.tables s.heap table } }
  gPhysPageBitMap := bm
  heap := s.heap + 1
  built := Function.update s.built s.kernel.currentThread (some space)
  refused := Function.update s.refused s.kernel.currentThread false

/-- It returns early: `numPages` is 0, and `pageTable` was never set. -/
def refuse (s : System) (stale : Option ℕ) : System := { s with
  built := Function.update s.built s.kernel.currentThread (some ⟨stale, 0⟩)
  refused := Function.update s.refused s.kernel.currentThread true }

/-- The three ends of the constructor; without a file its members are not initialised. -/
def constructed (s : System) (stale : Option ℕ) : AddrSpace.Construction → Option System
  | .notOpened => none
  | .refused => some (s.refuse stale)
  | .loaded space bm writes =>
    some (s.place ⟨some s.heap, space.numPages⟩ space.pageTable bm writes)

def newSpace (s : System) (executable : HostFile) (stale : Option ℕ) : Option System :=
  match s.kernel.threads s.kernel.currentThread with
  | some ⟨_, none, _⟩ =>
    (AddrSpace.new (some executable) s.gPhysPageBitMap).bind (s.constructed stale)
  | _ => none

/-- `currentThread->space = space` and `space->Execute()`, up to the first instruction. -/
def execute (s : System) : Option System :=
  match s.kernel.threads s.kernel.currentThread, s.built s.kernel.currentThread with
  | some ⟨_, none, _⟩, some space => do
    return { s with
      kernel := ← s.kernel.execute space
      built := Function.update s.built s.kernel.currentThread none }
  | _, _ => none

/-- The entries of a space, as many as it has pages. -/
def entries (s : System) (space : Members) : PageTable :=
  (s.kernel.tableOf space).take space.numPages

/-- `Thread::FreeSpace`: the destructor clears the bits of the entries. Of a refused space it does
`delete[]` on a pointer that was never set. -/
def freeSpace (s : System) : Option System :=
  match s.kernel.currentSpace with
  | none => some s
  | some space =>
    if s.refused s.kernel.currentThread then none
    else do
      return { s with
        gPhysPageBitMap := ← AddrSpace.destroy ⟨s.entries space⟩ s.gPhysPageBitMap
        kernel := ← s.kernel.setSpace none }

end System

def step (s : System) : Event → Option System
  | .kernel e =>
    if Usual e then (Scheduler.step s.kernel e).map fun k => { s with kernel := k }
    else none
  | .newSpace executable stale => s.newSpace executable stale
  | .execute => s.execute
  | .freeSpace => s.freeSpace

/-- Nachos has booted and no program has been loaded. -/
structure Booted (s : System) : Prop where
  kernel : Scheduler.Booted s.kernel
  bitmap : Bitmap.new NumPhysPages = some s.gPhysPageBitMap
  built : ∀ t, s.built t = none

/-- What holds an address space: a thread, or the variable it is in before. -/
inductive Holder where
  | thread (t : ThreadId)
  | built (t : ThreadId)
  deriving DecidableEq

namespace System

def space (s : System) : Holder → Option Members
  | .thread t => (s.kernel.threads t).bind Thread.space
  | .built t => s.built t

/-- The frames of a space. -/
def frames (s : System) (space : Members) : List ℕ :=
  (s.entries space).map TranslationEntry.pageFrame

/-- A space that has pages has the table it was given, with frames of main memory that are
marked. -/
structure Housed (s : System) (space : Members) : Prop where
  placed : space.numPages = 0 ∨ ∀ address, space.pageTable = some address → address < s.heap
  complete : (s.entries space).length = space.numPages
  physical : (s.entries space).map TranslationEntry.physicalPage = (s.frames space).map Nat.cast
  nodup : (s.frames space).Nodup
  marked : ∀ frame ∈ s.frames space, frame < NumPhysPages ∧ s.gPhysPageBitMap.mem frame = true

structure Inv (s : System) : Prop where
  kernel : KernelInv s.kernel
  housed : ∀ h space, s.space h = some space → s.Housed space
  disjoint : ∀ h h' space space', s.space h = some space → s.space h' = some space' → h ≠ h' →
    ∀ frame ∈ s.frames space, frame ∉ s.frames space'

end System

/-- What the constructor has made of the bitmap: a table over frames that were free. -/
structure Constructed (s : System) (space : Members) (table : PageTable)
    (bm : Bitmap NumPhysPages) : Prop where
  at_heap : space.pageTable = some s.heap
  numPages : table.length = space.numPages
  physical : table.map TranslationEntry.physicalPage =
    (table.map TranslationEntry.pageFrame).map Nat.cast
  nodup : (table.map TranslationEntry.pageFrame).Nodup
  free : ∀ frame ∈ table.map TranslationEntry.pageFrame,
    frame < NumPhysPages ∧ s.gPhysPageBitMap.mem frame = false ∧ bm.mem frame = true
  grows : ∀ frame < NumPhysPages, s.gPhysPageBitMap.mem frame = true → bm.mem frame = true

/-- What an event does. -/
inductive Does (s : System) : Event → System → Prop
  | kernel {e : Scheduler.Event} {k : Scheduler.Kernel} (usual : Usual e)
      (step : Scheduler.step s.kernel e = some k) : Does s (.kernel e) { s with kernel := k }
  | placed {executable : HostFile} {stale : Option ℕ} {th : Thread} {space : Members}
      {table : PageTable} {bm : Bitmap NumPhysPages} {writes : List ByteStore.Patch}
      (current : s.kernel.threads s.kernel.currentThread = some th) (bare : th.space = none)
      (constructed : Constructed s space table bm)
      (loaded : AddrSpace.new (some executable) s.gPhysPageBitMap =
        some (.loaded ⟨table⟩ bm writes)) :
      Does s (.newSpace executable stale) (s.place space table bm writes)
  | refused {executable : HostFile} {stale : Option ℕ} {th : Thread}
      (current : s.kernel.threads s.kernel.currentThread = some th) (bare : th.space = none) :
      Does s (.newSpace executable stale) (s.refuse stale)
  | executed {th : Thread} {space : Members}
      (current : s.kernel.threads s.kernel.currentThread = some th) (bare : th.space = none)
      (built : s.built s.kernel.currentThread = some space) :
      Does s .execute { s with
        kernel := { s.kernel with
          machine := AddrSpace.execute space s.kernel.machine
          threads := Function.update s.kernel.threads s.kernel.currentThread
            (some { th with space := some space }) }
        built := Function.update s.built s.kernel.currentThread none }
  | kept (bare : s.kernel.currentSpace = none) : Does s .freeSpace s
  | freed {th : Thread} {space : Members} {bm : Bitmap NumPhysPages}
      (current : s.kernel.threads s.kernel.currentThread = some th)
      (own : th.space = some space)
      (destroyed : AddrSpace.destroy ⟨s.entries space⟩ s.gPhysPageBitMap = some bm) :
      Does s .freeSpace { s with
        kernel := { s.kernel with
          threads := Function.update s.kernel.threads s.kernel.currentThread
            (some { th with space := none }) }
        gPhysPageBitMap := bm }

section

variable {s s' : System} {e : Event}

theorem map_pageFrame_tableOf (i : ℕ) {frames : List ℕ}
    (h : ∀ frame ∈ frames, frame < NumPhysPages) :
    (AddrSpace.tableOf i frames).map TranslationEntry.pageFrame = frames := by
  induction frames generalizing i with
  | nil => rfl
  | cons frame frames ih =>
    rw [AddrSpace.tableOf_cons, List.map_cons, ih _ fun f hf => h f (List.mem_cons_of_mem _ hf),
      AddrSpace.pageFrame_of_physicalPage rfl (h frame List.mem_cons_self)]

theorem constructed_loaded {executable : HostFile} {space : AddrSpace} {bm : Bitmap NumPhysPages}
    {writes : List ByteStore.Patch}
    (h : AddrSpace.new (some executable) s.gPhysPageBitMap = some (.loaded space bm writes)) :
    Constructed s ⟨some s.heap, space.numPages⟩ space.pageTable bm := by
  obtain ⟨noffH, -, hlocked⟩ := Option.bind_eq_some_iff.mp h
  rcases AddrSpace.locked_cases hlocked with ⟨hr, -⟩ | ⟨_, _, _, hr, ⟨hload⟩⟩
  · cases hr
  cases hr
  have hspace := hload.space_eq
  have hbitmap := hload.bitmap_eq
  generalize hchosen : AddrSpace.chosenFrames s.gPhysPageBitMap (AddrSpace.pagesNeeded noffH) =
    chosen at hspace hbitmap
  have hmem : ∀ frame ∈ chosen, frame < NumPhysPages ∧ s.gPhysPageBitMap.mem frame = false :=
    fun frame hframe => AddrSpace.mem_chosenFrames (hchosen ▸ hframe)
  have hlt : ∀ frame ∈ chosen, frame < NumPhysPages := fun frame hframe => (hmem frame hframe).1
  have hphysical : space.pageTable.map TranslationEntry.physicalPage = chosen.map Nat.cast := by
    rw [hspace, AddrSpace.map_physicalPage_tableOf]
  have hframes : space.pageTable.map TranslationEntry.pageFrame = chosen := by
    rw [hspace]
    exact map_pageFrame_tableOf 0 hlt
  refine ⟨rfl, rfl, hphysical.trans (congrArg _ hframes.symm), ?_, ?_, ?_⟩
  · rw [hframes, ← hchosen]
    exact AddrSpace.chosenFrames_nodup _ _
  · intro frame hframe
    rw [hframes] at hframe
    obtain ⟨hin, hfree⟩ := hmem frame hframe
    refine ⟨hin, hfree, ?_⟩
    rw [hbitmap, Bitmap.mem_foldl_insert hlt hin, decide_eq_true hframe, Bool.true_or]
  · intro frame hin hmarked
    rw [hbitmap, Bitmap.mem_foldl_insert hlt hin, hmarked, Bool.or_true]

theorem does (h : step s e = some s') : Does s e s' := by
  cases e with
  | kernel e =>
    simp only [step] at h
    split at h
    · next husual =>
      obtain ⟨k, hk, rfl⟩ := Option.map_eq_some_iff.mp h
      exact .kernel husual hk
    · cases h
  | newSpace executable stale =>
    simp only [step, System.newSpace] at h
    split at h
    · next hth =>
      obtain ⟨construction, hnew, h⟩ := Option.bind_eq_some_iff.mp h
      cases construction with
      | notOpened => cases h
      | refused =>
        cases h
        exact .refused hth rfl
      | loaded space bm writes =>
        cases h
        exact .placed hth rfl (constructed_loaded hnew) hnew
    · cases h
  | execute =>
    simp only [step, System.execute] at h
    split at h
    · next hth hbuilt =>
      obtain ⟨k, hk, h⟩ := Option.bind_eq_some_iff.mp h
      obtain ⟨k₁, hset, hk⟩ := Option.bind_eq_some_iff.mp hk
      obtain ⟨th, hcurrent, rfl⟩ := Scheduler.setSpace_eq hset
      obtain rfl := Option.some.inj (hth.symm.trans hcurrent)
      cases hk
      cases h
      exact .executed hth rfl hbuilt
    · cases h
  | freeSpace =>
    simp only [step, System.freeSpace] at h
    split at h
    · next hnone =>
      cases h
      exact .kept hnone
    · next hspace =>
      split at h
      · cases h
      obtain ⟨bm, hbm, h⟩ := Option.bind_eq_some_iff.mp h
      obtain ⟨k, hset, h⟩ := Option.bind_eq_some_iff.mp h
      obtain ⟨th, hcurrent, rfl⟩ := Scheduler.setSpace_eq hset
      cases h
      exact .freed hcurrent ((Scheduler.currentSpace_of_thread hcurrent).symm.trans hspace) hbm

namespace System

variable {space : Members}

theorem frames_congr (h : (s'.entries space).map TranslationEntry.mapping =
    (s.entries space).map TranslationEntry.mapping) : s'.frames space = s.frames space := by
  have hframe : TranslationEntry.pageFrame =
      (fun m : ℤ × ℤ × Bool × Bool => (BitVec.ofInt 32 m.2.1).toNat) ∘
        TranslationEntry.mapping := rfl
  rw [frames, frames, hframe, ← List.map_map, ← List.map_map, h]

theorem Housed.congr (h : s.Housed space) (hheap : s.heap ≤ s'.heap)
    (hmap : (s'.entries space).map TranslationEntry.mapping =
      (s.entries space).map TranslationEntry.mapping)
    (hmarked : ∀ frame ∈ s.frames space, s'.gPhysPageBitMap.mem frame = true) :
    s'.Housed space := by
  have hframes := frames_congr hmap
  have hpage : TranslationEntry.physicalPage =
      (fun m : ℤ × ℤ × Bool × Bool => m.2.1) ∘ TranslationEntry.mapping := rfl
  refine ⟨h.placed.imp_right fun hp address hat => (hp address hat).trans_le hheap, ?_, ?_,
    hframes ▸ h.nodup, ?_⟩
  · rw [← h.complete, ← List.length_map (f := TranslationEntry.mapping), hmap, List.length_map]
  · rw [hframes, ← h.physical, hpage, ← List.map_map, ← List.map_map, hmap]
  · intro frame hframe
    rw [hframes] at hframe
    exact ⟨(h.marked frame hframe).1, hmarked frame hframe⟩

/-- The hardware changes no entry but its use and dirty bits. -/
theorem entries_congr (h : ∀ address, (s'.kernel.machine.tables address).map
      TranslationEntry.mapping = (s.kernel.machine.tables address).map TranslationEntry.mapping) :
    (s'.entries space).map TranslationEntry.mapping =
      (s.entries space).map TranslationEntry.mapping := by
  unfold entries Scheduler.Kernel.tableOf
  cases space.pageTable with
  | none => rfl
  | some address => exact mapping_take (h address) _

theorem Inv.marked (h : s.Inv) {x : Holder} (hx : s.space x = some space) :
    ∀ frame ∈ s.frames space, s.gPhysPageBitMap.mem frame = true :=
  fun frame hframe => ((h.housed x space hx).marked frame hframe).2

/-- Spaces may change hands and go, while the tables and the marks of those that stay are kept. -/
theorem Inv.keep (h : s.Inv) (hk : KernelInv s'.kernel) (hheap : s.heap ≤ s'.heap)
    {f : Holder → Holder} (hf : Function.Injective f)
    (hspace : ∀ x space, s'.space x = some space → s.space (f x) = some space ∧
      (s'.entries space).map TranslationEntry.mapping =
        (s.entries space).map TranslationEntry.mapping ∧
      ∀ frame ∈ s.frames space, s'.gPhysPageBitMap.mem frame = true) : s'.Inv := by
  refine ⟨hk, fun x space hx => ?_, fun x y space space' hx hy hne => ?_⟩
  · obtain ⟨hold, hmap, hmarked⟩ := hspace x space hx
    exact (h.housed _ _ hold).congr hheap hmap hmarked
  · obtain ⟨hold, hmap, -⟩ := hspace x space hx
    obtain ⟨hold', hmap', -⟩ := hspace y space' hy
    rw [frames_congr hmap, frames_congr hmap']
    exact h.disjoint _ _ _ _ hold hold' fun heq => hne (hf heq)

/-- The current thread has built a space with frames that were free. -/
theorem Inv.extend (h : s.Inv) {new : Members} (hk : KernelInv s'.kernel) (hheap : s.heap ≤ s'.heap)
    (hnew : s'.Housed new)
    (hfree : ∀ frame ∈ s'.frames new, s.gPhysPageBitMap.mem frame = false)
    (hentries : ∀ space, s.Housed space → s'.entries space = s.entries space)
    (hgrows : ∀ frame < NumPhysPages,
      s.gPhysPageBitMap.mem frame = true → s'.gPhysPageBitMap.mem frame = true)
    (hspace : ∀ x space, s'.space x = some space →
      (x = .built s.kernel.currentThread ∧ space = new) ∨ s.space x = some space) : s'.Inv := by
  have hold {x : Holder} {space : Members} (hx : s.space x = some space) :
      s'.frames space = s.frames space :=
    frames_congr (congrArg _ (hentries space (h.housed x space hx)))
  -- no space that was there has one of the new frames
  have hapart {x : Holder} {space : Members} (hx : s.space x = some space) :
      ∀ frame ∈ s.frames space, frame ∉ s'.frames new := by
    intro frame hframe hmem
    have hmarked := h.marked hx frame hframe
    rw [hfree frame hmem] at hmarked
    cases hmarked
  refine ⟨hk, fun x space hx => ?_, fun x y space space' hx hy hne => ?_⟩
  · rcases hspace x space hx with ⟨-, rfl⟩ | hx
    · exact hnew
    · have hhoused := h.housed x space hx
      refine hhoused.congr hheap (congrArg _ (hentries space hhoused)) fun frame hframe => ?_
      obtain ⟨hlt, hmarked⟩ := hhoused.marked frame hframe
      exact hgrows frame hlt hmarked
  · rcases hspace x space hx with ⟨rfl, rfl⟩ | hx' <;>
      rcases hspace y space' hy with ⟨rfl, rfl⟩ | hy'
    · exact absurd rfl hne
    · intro frame hframe hmem
      rw [hold hy'] at hmem
      exact hapart hy' frame hmem hframe
    · rw [hold hx']
      exact hapart hx'
    · rw [hold hx', hold hy']
      exact h.disjoint x y space space' hx' hy' hne

/-- The holders after a constructor. -/
theorem space_built {new : Members} {x : Holder}
    (hthreads : s'.kernel.threads = s.kernel.threads)
    (hbuilt : s'.built = Function.update s.built s.kernel.currentThread (some new))
    (h : s'.space x = some space) :
    (x = .built s.kernel.currentThread ∧ space = new) ∨ s.space x = some space := by
  cases x with
  | thread t =>
    rw [System.space, hthreads] at h
    exact .inr h
  | built t =>
    rw [System.space, hbuilt] at h
    by_cases ht : t = s.kernel.currentThread
    · subst ht
      rw [Function.update_self] at h
      exact .inl ⟨rfl, (Option.some.inj h).symm⟩
    · rw [Function.update_of_ne ht] at h
      exact .inr h

theorem entries_place (h : s.Housed space) (new : Members) (table : PageTable)
    (bm : Bitmap NumPhysPages) (writes : List ByteStore.Patch) :
    (s.place new table bm writes).entries space = s.entries space := by
  unfold entries
  rcases h.placed with hzero | hplaced
  · rw [hzero, List.take_zero, List.take_zero]
  · unfold Scheduler.Kernel.tableOf
    cases hp : space.pageTable with
    | none => rfl
    | some address =>
      exact congrArg (List.take space.numPages) (Function.update_of_ne (hplaced address hp).ne _ _)

theorem entries_placed {table : PageTable} {bm : Bitmap NumPhysPages}
    (h : Constructed s space table bm) (writes : List ByteStore.Patch) :
    (s.place space table bm writes).entries space = table := by
  have htable : (s.place space table bm writes).kernel.tableOf space = table := by
    unfold Scheduler.Kernel.tableOf
    rw [h.at_heap]
    exact Function.update_self _ _ _
  rw [entries, htable, ← h.numPages, List.take_length]

theorem Inv.place (h : s.Inv) {new : Members} {table : PageTable} {bm : Bitmap NumPhysPages}
    (hc : Constructed s new table bm) (writes : List ByteStore.Patch) :
    (s.place new table bm writes).Inv := by
  have hnew : (s.place new table bm writes).frames new = table.map TranslationEntry.pageFrame := by
    rw [frames, entries_placed hc]
  refine h.extend ⟨h.kernel.toBeDestroyed, h.kernel.bounded, h.kernel.fresh, h.kernel.current,
    h.kernel.installed⟩ (Nat.le_succ _) ?_ ?_ (fun _ hhoused => entries_place hhoused ..) hc.grows
    fun _ _ hx => space_built (by rfl) (by rfl) hx
  · refine ⟨.inr fun address hp => ?_, ?_, ?_, ?_, ?_⟩
    · cases hc.at_heap.symm.trans hp
      exact Nat.lt_succ_self _
    · rw [entries_placed hc, hc.numPages]
    · rw [hnew, entries_placed hc, hc.physical]
    · rw [hnew]
      exact hc.nodup
    · intro frame hframe
      rw [hnew] at hframe
      obtain ⟨hlt, -, hmarked⟩ := hc.free frame hframe
      exact ⟨hlt, hmarked⟩
  · intro frame hframe
    rw [hnew] at hframe
    exact (hc.free frame hframe).2.1

/-- A space without pages needs nothing. -/
theorem Inv.refuse (h : s.Inv) (stale : Option ℕ) : (s.refuse stale).Inv := by
  have hentries : (s.refuse stale).entries ⟨stale, 0⟩ = [] := List.take_zero
  have hframes : (s.refuse stale).frames ⟨stale, 0⟩ = [] := by rw [frames, hentries, List.map_nil]
  refine h.extend h.kernel le_rfl ⟨.inl rfl, ?_, ?_, ?_, ?_⟩ ?_ (fun _ _ => rfl) (fun _ _ hm => hm)
    fun _ _ hx => space_built (by rfl) (by rfl) hx
  · rw [hentries, List.length_nil]
  · rw [hentries, hframes]
    rfl
  all_goals rw [hframes]
  · exact List.nodup_nil
  · exact fun _ hframe => (List.not_mem_nil hframe).elim
  · exact fun _ hframe => (List.not_mem_nil hframe).elim

/-- A switch gives no thread a space, and takes one only from a thread that finishes. -/
theorem space_run {k k' : Scheduler.Kernel} (hk : KernelInv k) {nextThread : ThreadId}
    {finishing : Bool} (hrun : k.run nextThread finishing = some k') {t : ThreadId}
    (h : (k'.threads t).bind Thread.space = some space) :
    (k.threads t).bind Thread.space = some space := by
  obtain ⟨oldThread, th, hold, hth, rfl⟩ := Scheduler.run_eq hk.toBeDestroyed hrun
  have hparked {u : ThreadId} {uh : Thread} (hu : k.parked oldThread finishing u = some uh) :
      (k.threads u).bind Thread.space = uh.space := by
    rcases Scheduler.update_eq_some hu with ⟨rfl, hnew⟩ | ⟨-, hu⟩
    · split at hnew
      · cases hnew
      · cases hnew
        rw [hold, Option.bind_some, Thread.saved]
        split <;> rfl
    · rw [hu, Option.bind_some]
  obtain ⟨uh, hu, hspace⟩ := Option.bind_eq_some_iff.mp h
  rcases Scheduler.update_eq_some hu with ⟨rfl, hnew⟩ | ⟨-, hu⟩
  · cases hnew
    rw [hparked hth]
    exact hspace
  · rw [hparked hu]
    exact hspace

/-- What the kernel does otherwise. -/
theorem Inv.kernelStep (h : s.Inv) {e : Scheduler.Event} {k : Scheduler.Kernel}
    (husual : Usual e) (hstep : Scheduler.step s.kernel e = some k) :
    System.Inv { s with kernel := k } := by
  have hk := h.kernel.step hstep
  refine h.keep hk le_rfl (f := id) Function.injective_id fun x space hx => ?_
  cases Scheduler.step_move hstep with
  | hardware hspace hm =>
    have hx : s.space x = some space := hx
    exact ⟨hx, entries_congr hm.mapping, h.marked hx⟩
  | fork userRegisters =>
    have hx : s.space x = some space := by
      cases x with
      | built t => exact hx
      | thread t =>
        obtain ⟨uh, hu, hspace⟩ := Option.bind_eq_some_iff.mp hx
        rcases Scheduler.update_eq_some hu with ⟨-, hnew⟩ | ⟨-, hu⟩
        · cases hnew
          cases hspace
        · exact Option.bind_eq_some_iff.mpr ⟨uh, hu, hspace⟩
    exact ⟨hx, rfl, h.marked hx⟩
  | run hrun =>
    have hx : s.space x = some space := by
      cases x with
      | built t => exact hx
      | thread t => exact space_run h.kernel hrun hx
    have htables := (Scheduler.run_memory h.kernel hrun).1
    exact ⟨hx, entries_congr fun address => by rw [htables], h.marked hx⟩
  | execute | freeSpace | kernel => cases husual

/-- The holders when the space that a thread has built becomes its own. -/
theorem space_executed {th : Thread} {mine : Members} {x : Holder}
    (hbuilt : s.built s.kernel.currentThread = some mine)
    (h : System.space { s with
      kernel := { s.kernel with
        machine := AddrSpace.execute mine s.kernel.machine
        threads := Function.update s.kernel.threads s.kernel.currentThread
          (some { th with space := some mine }) }
      built := Function.update s.built s.kernel.currentThread none } x = some space) :
    s.space (Equiv.swap (.thread s.kernel.currentThread) (.built s.kernel.currentThread) x) =
      some space := by
  cases x with
  | thread t =>
    by_cases ht : t = s.kernel.currentThread
    · subst ht
      rw [Equiv.swap_apply_left]
      have h : (Function.update s.kernel.threads s.kernel.currentThread
        (some { th with space := some mine }) s.kernel.currentThread).bind Thread.space =
          some space := h
      rw [Function.update_self] at h
      cases h
      exact hbuilt
    · rw [Equiv.swap_apply_of_ne_of_ne (by simpa using ht) (by simp)]
      have h : (Function.update s.kernel.threads s.kernel.currentThread
        (some { th with space := some mine }) t).bind Thread.space = some space := h
      rw [Function.update_of_ne ht] at h
      exact h
  | built t =>
    have h : Function.update s.built s.kernel.currentThread none t = some space := h
    by_cases ht : t = s.kernel.currentThread
    · subst ht
      rw [Function.update_self] at h
      cases h
    · rw [Function.update_of_ne ht] at h
      rw [Equiv.swap_apply_of_ne_of_ne (by simp) (by simpa using ht)]
      exact h

theorem space_freed {th : Thread} {bm : Bitmap NumPhysPages} {x : Holder}
    (h : System.space { s with
      kernel := { s.kernel with
        threads := Function.update s.kernel.threads s.kernel.currentThread
          (some { th with space := none }) }
      gPhysPageBitMap := bm } x = some space) :
    x ≠ .thread s.kernel.currentThread ∧ s.space x = some space := by
  cases x with
  | built t => exact ⟨by simp, h⟩
  | thread t =>
    have h : (Function.update s.kernel.threads s.kernel.currentThread
      (some { th with space := none }) t).bind Thread.space = some space := h
    by_cases ht : t = s.kernel.currentThread
    · subst ht
      rw [Function.update_self] at h
      cases h
    · rw [Function.update_of_ne ht] at h
      exact ⟨by simpa using ht, h⟩

theorem Inv.step (h : s.Inv) (hstep : Multiprogramming.step s e = some s') : s'.Inv := by
  cases does hstep with
  | kernel husual hs => exact h.kernelStep husual hs
  | placed _ _ hc _ => exact h.place hc _
  | refused => exact h.refuse _
  | executed hth hbare hbuilt =>
    refine h.keep ?_ le_rfl (Equiv.swap (.thread s.kernel.currentThread)
      (.built s.kernel.currentThread)).injective fun x space hx => ?_
    · exact h.kernel.step (e := .execute _) (by
        rw [Scheduler.step, Scheduler.Kernel.execute, Scheduler.Kernel.setSpace, hth]
        rfl)
    · have hx := space_executed hbuilt hx
      exact ⟨hx, rfl, h.marked hx⟩
  | kept => exact h
  | @freed th space bm hth hown hdestroyed =>
    have hhoused : s.Housed space := by
      refine h.housed (.thread s.kernel.currentThread) space ?_
      rw [System.space, hth]
      exact hown
    have hlt : ∀ frame ∈ s.frames space, frame < NumPhysPages :=
      fun frame hframe => (hhoused.marked frame hframe).1
    have hclear := AddrSpace.destroy_eq (show (AddrSpace.mk (s.entries space)).pageTable.map
      TranslationEntry.physicalPage = _ from hhoused.physical) hlt s.gPhysPageBitMap
    rw [hclear] at hdestroyed
    cases hdestroyed
    refine h.keep ?_ le_rfl (f := id) Function.injective_id fun x other hx => ?_
    · exact h.kernel.step (e := .freeSpace) (by
        rw [Scheduler.step, Scheduler.Kernel.setSpace, hth]
        rfl)
    · obtain ⟨hne, hx⟩ := space_freed hx
      refine ⟨hx, rfl, fun frame hframe => ?_⟩
      have hin := ((h.housed x other hx).marked frame hframe).1
      have hnot : frame ∉ s.frames space := by
        refine h.disjoint x (.thread s.kernel.currentThread) other space hx ?_ hne frame hframe
        rw [System.space, hth]
        exact hown
      rw [Bitmap.mem_foldl_erase hlt hin, h.marked hx frame hframe, decide_eq_false hnot]
      rfl

theorem Inv.booted (h : Booted s) : s.Inv := by
  have hspace (x : Holder) : s.space x = none := by
    cases x with
    | built t => exact h.built t
    | thread t =>
      obtain ⟨main, hmain, hnone, -⟩ := h.kernel.main
      by_cases ht : t = s.kernel.currentThread
      · rw [System.space, ht, hmain]
        exact hnone
      · rw [System.space, h.kernel.alone t ht]
        rfl
  refine ⟨h.kernel.inv, fun x space hx => ?_, fun x y space space' hx => ?_⟩
  · rw [hspace] at hx
    cases hx
  · rw [hspace] at hx
    cases hx

theorem Inv.reach {allow : System → Event → Prop} (h : s.Inv)
    (hr : Runs.Reach Multiprogramming.step allow s s') : s'.Inv :=
  hr.invariant h fun _ _ _ ht _ hstep => ht.step hstep

end System

end

end Nachos.Multiprogramming

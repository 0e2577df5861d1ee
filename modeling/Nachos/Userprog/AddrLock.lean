import Nachos.Threads.SemaphoreRuns
import Nachos.Userprog.AddrSpace

/-! `addrLock` over every interleaving of the constructor `AddrSpace(char*)` and of
`AddrSpace::Load`. The build defines `RDATA`. `Load` acquires the lock in the branch for the
other builds only, and releases it in all. -/
namespace Nachos.AddrLock

/-- The routines that use the lock. -/
inductive Routine where
  | construct | load
  deriving DecidableEq

/-- Whether the build defines it. -/
def RDATA : Bool := true

/-- Whether `addrLock->P()` is compiled into the routine. -/
def Routine.acquires : Routine → Bool
  | .construct => true
  | .load => !RDATA

/-- The `numPages` that the routine computes. -/
def Routine.numPages (noffH : NoffHeader) : Routine → ℕ
  | .construct => AddrSpace.pagesNeeded noffH
  | .load => divRoundUp (uint32 (noffH.code.size +
      (if RDATA then noffH.readonlyData.size else 0) + noffH.initData.size +
      noffH.uninitData.size + UserStackSize)) PageSize

inductive Place where
  | opened
  /-- Inside `addrLock->P()`. -/
  | waiting
  /-- From the size computation to the test of the free frames. -/
  | sizing
  /-- In the allocation loop, with pages left. -/
  | allocating (left : ℕ)
  /-- The pages are allocated or refused, and `addrLock->V()` is to come. -/
  | releasing
  deriving DecidableEq

/-- A call that has opened its file. -/
structure Job where
  routine : Routine
  noffH : NoffHeader
  place : Place
  acquired : ℕ
  deriving DecidableEq

/-- A call that has returned, and how often it used the lock. -/
structure Return where
  routine : Routine
  opened : Bool
  acquired : ℕ
  released : ℕ
  deriving DecidableEq

structure State where
  lock : SemaphoreRuns.State
  gPhysPageBitMap : Bitmap NumPhysPages
  job : ThreadId → Option Job
  returned : List Return

inductive Action where
  /-- A thread calls a routine, with the file that the host opens (`none` for `NULL`). -/
  | call (t : ThreadId) (routine : Routine) (executable : Option HostFile)
  /-- The next step of the call that a thread is in. -/
  | run (t : ThreadId)
  /-- Others change the bitmap. -/
  | change (gPhysPageBitMap : Bitmap NumPhysPages)

/-- A test of the counter inside `addrLock->P()`. -/
def acquire (s : State) (t : ThreadId) (job : Job) (test : SemaphoreRuns.Label) :
    Option State := do
  let lock ← SemaphoreRuns.step s.lock test
  let job := if s.lock.value = 0 then { job with place := .waiting }
    else { job with place := .sizing, acquired := job.acquired + 1 }
  return { s with lock, job := Function.update s.job t (some job) }

/-- The next step of a call. A failed assertion ends the run. -/
def runJob (s : State) (t : ThreadId) (job : Job) : Option State :=
  let goto (place : Place) : State :=
    { s with job := Function.update s.job t (some { job with place }) }
  match job.place with
  | .opened => if job.routine.acquires then acquire s t job (.P t) else some (goto .sizing)
  | .waiting => acquire s t job (.resume t)
  | .sizing => do
    let numPages := job.routine.numPages job.noffH
    if numPages > NumPhysPages then none
    else if numPages > (← s.gPhysPageBitMap.numClear) then return goto .releasing
    else return goto (.allocating numPages)
  | .allocating 0 => some (goto .releasing)
  | .allocating (left + 1) => do
    let (_, gPhysPageBitMap) ← s.gPhysPageBitMap.findAndSet
    return { goto (.allocating left) with gPhysPageBitMap }
  | .releasing => do
    let lock ← SemaphoreRuns.step s.lock (.V (some t))
    return { s with
      lock
      job := Function.update s.job t none
      returned := ⟨job.routine, true, job.acquired, 1⟩ :: s.returned }

def step (s : State) : Action → Option State
  | .call t routine executable =>
    match s.job t, executable with
    | none, none => some { s with returned := ⟨routine, false, 0, 0⟩ :: s.returned }
    | none, some file => do
      let noffH ← AddrSpace.checkedHeader file
      return { s with job := Function.update s.job t (some ⟨routine, noffH, .opened, 0⟩) }
    | some _, _ => none
  | .run t => do runJob s t (← s.job t)
  | .change gPhysPageBitMap => some { s with gPhysPageBitMap }

/-- The kernel after `Kernel::Initialize`. -/
def start (gPhysPageBitMap : Bitmap NumPhysPages) : State :=
  ⟨SemaphoreRuns.start 1, gPhysPageBitMap, fun _ => none, []⟩

/-- The call is past its `P()`, or where that would be, and not at the end of its `V()`. -/
def Job.holds (job : Job) : Bool :=
  match job.place with
  | .opened | .waiting => false
  | .sizing | .allocating _ | .releasing => true

/-- The call is between the size computation and the end of the page allocation. -/
def Job.between (job : Job) : Bool :=
  match job.place with
  | .sizing | .allocating _ => true
  | .opened | .waiting | .releasing => false

namespace State

def Holding (s : State) (t : ThreadId) : Prop := ∃ job, s.job t = some job ∧ job.holds = true

def Between (s : State) (t : ThreadId) : Prop := ∃ job, s.job t = some job ∧ job.between = true

end State

/-- What makes the semaphore a mutex. -/
structure Mutex (s : State) : Prop where
  balanced : ∀ r ∈ s.returned, r.released = r.acquired
  value : s.lock.value = 0 ∨ s.lock.value = 1
  exclusive : ∀ t u, s.Between t → s.Between u → t = u

/-- A call of `Load` that finds its file. -/
def Action.LoadsFile : Action → Prop
  | .call _ .load (some _) => True
  | _ => False

/-- What a step can do. -/
inductive Moved (s : State) (a : Action) : State → Prop where
  | missing (t : ThreadId) (routine : Routine) :
    Moved s a { s with returned := ⟨routine, false, 0, 0⟩ :: s.returned }
  | opened (t : ThreadId) (routine : Routine) (file : HostFile) (noffH : NoffHeader)
    (ha : a = .call t routine (some file)) (hjob : s.job t = none) :
    Moved s a { s with job := Function.update s.job t (some ⟨routine, noffH, .opened, 0⟩) }
  | unlocked (t : ThreadId) (job : Job) (hjob : s.job t = some job) (hplace : job.place = .opened)
    (hroutine : job.routine.acquires = false) :
    Moved s a { s with job := Function.update s.job t (some { job with place := .sizing }) }
  | acquire (t : ThreadId) (job : Job) (test : SemaphoreRuns.Label) (s' : State)
    (hjob : s.job t = some job)
    (hplace : job.place = .opened ∧ job.routine.acquires = true ∨ job.place = .waiting)
    (htest : test = .P t ∨ test = .resume t) (hacquire : acquire s t job test = some s') :
    Moved s a s'
  | inside (t : ThreadId) (job : Job) (place : Place) (gPhysPageBitMap : Bitmap NumPhysPages)
    (hjob : s.job t = some job) (hholds : job.holds = true)
    (hplace : { job with place }.holds = true) :
    Moved s a { s with
      gPhysPageBitMap, job := Function.update s.job t (some { job with place }) }
  | released (t : ThreadId) (job : Job) (lock : SemaphoreRuns.State) (hjob : s.job t = some job)
    (hplace : job.place = .releasing)
    (hlock : SemaphoreRuns.step s.lock (.V (some t)) = some lock) :
    Moved s a { s with
      lock
      job := Function.update s.job t none
      returned := ⟨job.routine, true, job.acquired, 1⟩ :: s.returned }
  | changed (gPhysPageBitMap : Bitmap NumPhysPages) : Moved s a { s with gPhysPageBitMap }

theorem runJob_moved {s s' : State} {t : ThreadId} {job : Job} (hjob : s.job t = some job)
    (h : runJob s t job = some s') (a : Action) : Moved s a s' := by
  unfold runJob at h
  dsimp only at h
  split at h
  · next hplace =>
    split_ifs at h with hroutine
    · exact .acquire t job _ s' hjob (.inl ⟨hplace, hroutine⟩) (.inl rfl) h
    · cases h
      exact .unlocked t job hjob hplace (Bool.eq_false_of_not_eq_true hroutine)
  · next hplace => exact .acquire t job _ s' hjob (.inr hplace) (.inr rfl) h
  · next hplace =>
    have hholds : job.holds = true := by rw [Job.holds, hplace]
    split_ifs at h
    obtain ⟨free, -, h⟩ := Option.bind_eq_some_iff.mp h
    split_ifs at h
    · cases h
      exact .inside t job .releasing s.gPhysPageBitMap hjob hholds rfl
    · cases h
      exact .inside t job (.allocating _) s.gPhysPageBitMap hjob hholds rfl
  · next hplace =>
    cases h
    exact .inside t job .releasing s.gPhysPageBitMap hjob (by rw [Job.holds, hplace]) rfl
  · next left hplace =>
    obtain ⟨⟨page, bm⟩, -, h⟩ := Option.bind_eq_some_iff.mp h
    cases h
    exact .inside t job (.allocating left) bm hjob (by rw [Job.holds, hplace]) rfl
  · next hplace =>
    obtain ⟨lock, hlock, h⟩ := Option.bind_eq_some_iff.mp h
    cases h
    exact .released t job lock hjob hplace hlock

theorem step_moved {s s' : State} {a : Action} (h : step s a = some s') : Moved s a s' := by
  unfold step at h
  split at h
  · next t routine executable =>
    split at h
    · cases h
      exact .missing t routine
    · next file hjob =>
      obtain ⟨noffH, -, h⟩ := Option.bind_eq_some_iff.mp h
      cases h
      exact .opened t routine file noffH rfl hjob
    · cases h
  · obtain ⟨job, hjob, h⟩ := Option.bind_eq_some_iff.mp h
    exact runJob_moved hjob h _
  · cases h
    exact .changed _

/-- The lock is used as often as the build has it. -/
structure Counted (s : State) : Prop where
  job : ∀ t job, s.job t = some job →
    job.acquired = (if job.holds && job.routine.acquires then 1 else 0) ∧
      (job.place = .waiting → job.routine.acquires = true)
  returned : ∀ r ∈ s.returned, r.acquired = (if r.opened && r.routine.acquires then 1 else 0) ∧
    r.released = if r.opened then 1 else 0

/-- The counter says whether a call holds the lock. -/
structure Locked (s : State) : Prop where
  lock : SemaphoreRuns.Inv 1 s.lock
  construct : ∀ t job, s.job t = some job → job.routine = .construct
  returned : ∀ r ∈ s.returned, r.routine = .load → r.opened = false
  holder : (s.lock.value = 1 ∧ ∀ t, ¬ s.Holding t) ∨
    (s.lock.value = 0 ∧ ∃ t, ∀ u, s.Holding u ↔ u = t)

section

variable {s s' : State} {a : Action} {t : ThreadId}

/-- A fact about every job, when one of them changes. -/
theorem forall_job_update {P : ThreadId → Job → Prop} {j : Option Job}
    (h : ∀ u job, s.job u = some job → P u job) (hj : ∀ job, j = some job → P t job) :
    ∀ u job, Function.update s.job t j u = some job → P u job :=
  (Function.forall_update_iff s.job fun u j => ∀ job, j = some job → P u job).mpr
    ⟨hj, fun u _ => h u⟩

theorem acquire_eq {job : Job} {test : SemaphoreRuns.Label} (h : acquire s t job test = some s') :
    ∃ lock, SemaphoreRuns.step s.lock test = some lock ∧ s' = { s with
      lock
      job := Function.update s.job t (some (if s.lock.value = 0 then { job with place := .waiting }
        else { job with place := .sizing, acquired := job.acquired + 1 })) } := by
  obtain ⟨lock, hlock, h⟩ := Option.bind_eq_some_iff.mp h
  cases h
  exact ⟨lock, hlock, rfl⟩

theorem Counted.step (h : Counted s) (hs : step s a = some s') : Counted s' := by
  cases step_moved hs with
  | missing t routine => exact ⟨h.job, List.forall_mem_cons.mpr ⟨⟨rfl, rfl⟩, h.returned⟩⟩
  | opened t routine file noffH ha hjob =>
    refine ⟨forall_job_update h.job ?_, h.returned⟩
    rintro job ⟨⟩
    exact ⟨rfl, fun hplace => by cases hplace⟩
  | unlocked t job hjob hplace hroutine =>
    refine ⟨forall_job_update h.job ?_, h.returned⟩
    rintro job' ⟨⟩
    have hzero := (h.job t job hjob).1
    rw [hroutine, Bool.and_false] at hzero
    refine ⟨?_, fun hplace => by cases hplace⟩
    dsimp only
    rw [hroutine, Bool.and_false]
    exact hzero
  | acquire t job test _ hjob hplace htest hacquire =>
    obtain ⟨lock, -, rfl⟩ := acquire_eq hacquire
    refine ⟨forall_job_update h.job ?_, h.returned⟩
    rintro job' ⟨⟩
    have hacquires : job.routine.acquires = true := by
      rcases hplace with ⟨-, hacquires⟩ | hplace
      · exact hacquires
      · exact (h.job t job hjob).2 hplace
    have hzero : job.acquired = 0 := by
      rw [(h.job t job hjob).1, Job.holds]
      rcases hplace with ⟨hplace, -⟩ | hplace <;> rw [hplace] <;> rfl
    by_cases hvalue : s.lock.value = 0
    · rw [if_pos hvalue]
      exact ⟨hzero, fun _ => hacquires⟩
    · rw [if_neg hvalue]
      refine ⟨?_, fun hplace => by cases hplace⟩
      simp [Job.holds, hacquires, hzero]
  | inside t job place bm hjob hholds hplace =>
    refine ⟨forall_job_update h.job ?_, h.returned⟩
    rintro job' ⟨⟩
    obtain ⟨hcount, hwait⟩ := h.job t job hjob
    refine ⟨?_, ?_⟩
    · rw [hplace]
      rw [hholds] at hcount
      exact hcount
    · rintro rfl
      cases hplace
  | released t job lock hjob hplace hlock =>
    refine ⟨forall_job_update h.job ?_, ?_⟩
    · rintro job' ⟨⟩
    · refine List.forall_mem_cons.mpr ⟨⟨?_, rfl⟩, h.returned⟩
      have hcount := (h.job t job hjob).1
      rw [Job.holds, hplace] at hcount
      exact hcount
  | changed bm => exact ⟨h.job, h.returned⟩

theorem counted_start (bm : Bitmap NumPhysPages) : Counted (start bm) := by
  refine ⟨?_, ?_⟩
  · rintro t job ⟨⟩
  · intro r hr
    cases hr

/-- What a test of the counter does to it. -/
theorem value_test {l lock : SemaphoreRuns.State} {test : SemaphoreRuns.Label}
    (htest : test = .P t ∨ test = .resume t) (h : SemaphoreRuns.step l test = some lock) :
    lock.value = if l.value = 0 then 0 else l.value - 1 := by
  have hvalue (l : SemaphoreRuns.State) :
      (l.test t).value = if l.value = 0 then 0 else l.value - 1 := by
    unfold SemaphoreRuns.State.test
    split_ifs with hzero
    · cases LinkedList.append l.queue t <;> exact hzero
    · rfl
  unfold SemaphoreRuns.step at h
  obtain ⟨-, h⟩ := Option.ite_none_left_eq_some.mp h
  rcases htest with rfl | rfl
  · obtain ⟨-, h⟩ := Option.ite_none_right_eq_some.mp h
    cases h
    exact hvalue l
  · obtain ⟨-, h⟩ := Option.ite_none_right_eq_some.mp h
    cases h
    exact hvalue _

theorem value_V {l lock : SemaphoreRuns.State}
    (h : SemaphoreRuns.step l (.V (some t)) = some lock) : lock.value = l.value + 1 := by
  unfold SemaphoreRuns.step at h
  obtain ⟨-, h⟩ := Option.ite_none_left_eq_some.mp h
  obtain ⟨-, h⟩ := Option.ite_none_right_eq_some.mp h
  cases h
  rfl

theorem holding_update {j : Option Job} {u : ThreadId} (hs : s'.job = Function.update s.job t j) :
    s'.Holding u ↔ if u = t then (∃ job, j = some job ∧ job.holds = true) else s.Holding u := by
  unfold State.Holding
  rw [hs]
  by_cases hut : u = t
  · subst hut
    rw [if_pos rfl, Function.update_self]
  · rw [if_neg hut, Function.update_of_ne hut]

/-- A step that neither takes nor gives the lock. -/
theorem Locked.holder_congr (h : Locked s) (hlock : s'.lock.value = s.lock.value)
    (hholding : ∀ u, s'.Holding u ↔ s.Holding u) :
    (s'.lock.value = 1 ∧ ∀ t, ¬ s'.Holding t) ∨
      (s'.lock.value = 0 ∧ ∃ t, ∀ u, s'.Holding u ↔ u = t) := by
  simp only [hlock, hholding]
  exact h.holder

theorem Locked.step (h : Locked s) (ha : ¬ a.LoadsFile) (hs : step s a = some s') :
    Locked s' := by
  cases step_moved hs with
  | missing t routine =>
    exact ⟨h.lock, h.construct, List.forall_mem_cons.mpr ⟨fun _ => rfl, h.returned⟩, h.holder⟩
  | opened t routine file noffH hcall hjob =>
    have hconstruct : routine = .construct := by
      cases routine with
      | construct => rfl
      | load =>
        subst hcall
        exact absurd trivial ha
    refine ⟨h.lock, forall_job_update h.construct ?_, h.returned, h.holder_congr rfl ?_⟩
    · rintro job ⟨⟩
      exact hconstruct
    · intro u
      rw [holding_update (s := s) (t := t) rfl]
      split_ifs with hut
      · subst hut
        simp [State.Holding, hjob, Job.holds]
      · rfl
  | unlocked t job hjob hplace hroutine =>
    rw [h.construct t job hjob] at hroutine
    cases hroutine
  | acquire t job test _ hjob hplace htest hacquire =>
    obtain ⟨lock, hlock, rfl⟩ := acquire_eq hacquire
    have hvalue := value_test htest hlock
    have hout : ¬ s.Holding t := by
      rintro ⟨job', hjob', hholds⟩
      cases hjob.symm.trans hjob'
      rw [Job.holds] at hholds
      rcases hplace with ⟨hplace, -⟩ | hplace <;> rw [hplace] at hholds <;> cases hholds
    refine ⟨h.lock.step hlock, forall_job_update h.construct ?_, h.returned, ?_⟩
    · intro job' hjob'
      have hroutine := h.construct t job hjob
      split_ifs at hjob' <;> cases hjob' <;> exact hroutine
    · by_cases hzero : s.lock.value = 0
      · rw [if_pos hzero] at hvalue
        refine h.holder_congr (hvalue.trans hzero.symm) ?_
        intro u
        rw [holding_update (s := s) (t := t) rfl, if_pos hzero]
        split_ifs with hut
        · subst hut
          exact iff_of_false (by rintro ⟨job', ⟨⟩, hholds⟩; cases hholds) hout
        · rfl
      · -- the counter was 1, and this is the one call that holds the lock
        obtain ⟨hone, hfree⟩ | ⟨hnone, -⟩ := h.holder
        · rw [if_neg hzero, hone] at hvalue
          refine .inr ⟨hvalue, t, ?_⟩
          intro u
          rw [holding_update (s := s) (t := t) rfl, if_neg hzero]
          split_ifs with hut
          · exact iff_of_true ⟨_, rfl, rfl⟩ hut
          · exact iff_of_false (hfree u) hut
        · exact absurd hnone hzero
  | inside t job place bm hjob hholds hplace =>
    refine ⟨h.lock, forall_job_update h.construct ?_, h.returned, h.holder_congr rfl ?_⟩
    · rintro job' ⟨⟩
      exact h.construct t job hjob
    · intro u
      rw [holding_update (s := s) (t := t) rfl]
      split_ifs with hut
      · subst hut
        simp [State.Holding, hjob, hholds, hplace]
      · rfl
  | released t job lock hjob hplace hlock =>
    have hvalue := value_V hlock
    have hin : s.Holding t := ⟨job, hjob, by rw [Job.holds, hplace]⟩
    have hconstruct := h.construct t job hjob
    refine ⟨h.lock.step hlock, forall_job_update h.construct ?_,
      List.forall_mem_cons.mpr ⟨?_, h.returned⟩, .inl ?_⟩
    · rintro job' ⟨⟩
    · intro hload
      cases hconstruct.symm.trans hload
    · obtain ⟨-, hfree⟩ | ⟨hzero, holder, hholder⟩ := h.holder
      · exact absurd hin (hfree t)
      · rw [hzero] at hvalue
        refine ⟨hvalue, ?_⟩
        intro u
        rw [holding_update (s := s) (t := t) rfl]
        split_ifs with hut
        · rintro ⟨job', ⟨⟩, -⟩
        · rw [hholder]
          rintro rfl
          exact hut ((hholder t).mp hin).symm
  | changed bm => exact ⟨h.lock, h.construct, h.returned, h.holder⟩

theorem locked_start (bm : Bitmap NumPhysPages) : Locked (start bm) := by
  refine ⟨.start (by decide), ?_, ?_, .inl ⟨rfl, ?_⟩⟩
  · rintro t job ⟨⟩
  · intro r hr
    cases hr
  · rintro t ⟨job, ⟨⟩, -⟩

theorem Locked.mutex (h : Locked s) (hc : Counted s) : Mutex s := by
  refine ⟨?_, ?_, ?_⟩
  · intro r hr
    obtain ⟨hacquired, hreleased⟩ := hc.returned r hr
    have hopened := h.returned r hr
    rw [hacquired, hreleased]
    cases hroutine : r.routine with
    | construct => simp [Routine.acquires]
    | load => simp [hopened hroutine]
  · obtain ⟨hone, -⟩ | ⟨hzero, -⟩ := h.holder
    · exact .inr hone
    · exact .inl hzero
  · have hholding {t : ThreadId} (ht : s.Between t) : s.Holding t := by
      obtain ⟨job, hjob, hbetween⟩ := ht
      refine ⟨job, hjob, ?_⟩
      unfold Job.between at hbetween
      unfold Job.holds
      split at hbetween
      · next hplace => rw [hplace]
      · next hplace => rw [hplace]
      · cases hbetween
      · cases hbetween
      · cases hbetween
    intro t u ht hu
    obtain ⟨-, hfree⟩ | ⟨-, holder, hholder⟩ := h.holder
    · exact absurd (hholding ht) (hfree t)
    · rw [(hholder t).mp (hholding ht), (hholder u).mp (hholding hu)]

end

theorem reach_counted {bm : Bitmap NumPhysPages} {allow : State → Action → Prop} {s : State}
    (hr : Runs.Reach step allow (start bm) s) : Counted s :=
  hr.invariant (counted_start bm) fun _ _ _ hc _ hs => hc.step hs

/-- As long as no call of `Load` finds its file, the lock is a mutex. A call that has returned
has released the lock as often as it acquired it, unless it was `Load` and had found its file. -/
theorem addrLock_mutex {bm : Bitmap NumPhysPages} {s : State} :
    (Runs.Reach step (fun _ a => ¬ a.LoadsFile) (start bm) s → Mutex s) ∧
    (Runs.Reach step (fun _ _ => True) (start bm) s → ∀ r ∈ s.returned,
      (r.released = r.acquired ↔ ¬ (r.routine = .load ∧ r.opened = true))) := by
  constructor
  · intro hr
    have hlocked : Locked s :=
      hr.invariant (locked_start bm) fun _ _ _ h ha hs => h.step ha hs
    exact hlocked.mutex (reach_counted hr)
  · intro hr r hmem
    obtain ⟨hacquired, hreleased⟩ := (reach_counted hr).returned r hmem
    rw [hacquired, hreleased]
    cases r.routine <;> cases r.opened <;> simp [Routine.acquires, RDATA]

instance (a : Action) : Decidable a.LoadsFile := by
  unfold Action.LoadsFile
  split
  · exact inferInstanceAs (Decidable True)
  · exact inferInstanceAs (Decidable False)

/-- Two constructors, the second of which waits for the first, and a `Load` of no file. -/
def twoConstructors : List Action :=
  [.call 0 .construct (some tinyProgram), .call 1 .construct (some tinyProgram),
    .call 2 .load none, .run 0, .run 1]

theorem addrLock_mutex_twoConstructors : ∃ bm s, Bitmap.new NumPhysPages = some bm ∧
    s.lock.queue = [1] ∧ s.Between 0 ∧ Mutex s ∧
    ∀ r ∈ s.returned, (r.released = r.acquired ↔ ¬ (r.routine = .load ∧ r.opened = true)) := by
  have hrun : ((Bitmap.new NumPhysPages).bind fun bm =>
      (Runs.execIf step (fun _ a => ¬ a.LoadsFile) (start bm) twoConstructors).map fun s =>
        (s.lock.queue, (s.job 0).map Job.between)) = some ([1], some true) := by decide +kernel
  obtain ⟨bm, hbm, hrun⟩ := Option.bind_eq_some_iff.mp hrun
  obtain ⟨s, hs, hview⟩ := Option.map_eq_some_iff.mp hrun
  obtain ⟨hqueue, hjob⟩ := Prod.mk.inj hview
  obtain ⟨job, hjob, hbetween⟩ := Option.map_eq_some_iff.mp hjob
  have hr := Runs.reach_of_execIf hs
  exact ⟨bm, s, hbm, hqueue, ⟨job, hjob, hbetween⟩, addrLock_mutex.1 hr,
    addrLock_mutex.2 (hr.mono fun _ _ _ => trivial)⟩

/-- One call of `Load` leaves the counter at 2. While a constructor is between the size
computation and the end of the allocation, a call of `Load` is there as well. -/
theorem load_without_acquire : ∃ bm s s', Bitmap.new NumPhysPages = some bm ∧
    Runs.Reach step (fun _ _ => True) (start bm) s ∧ s.lock.value = 2 ∧
    s.returned = [⟨.load, true, 0, 1⟩] ∧ ¬ Mutex s ∧
    Runs.Reach step (fun _ _ => True) (start bm) s' ∧ s'.Between 0 ∧ s'.Between 1 := by
  have hrun : ((Bitmap.new NumPhysPages).bind fun bm =>
      ((Runs.exec step (start bm)
        (.call 0 .load (some tinyProgram) :: List.replicate 37 (.run 0))).map fun s =>
          (s.lock.value, s.returned)).bind fun last =>
      (Runs.exec step (start bm) [.call 0 .construct (some tinyProgram), .run 0,
        .call 1 .load (some tinyProgram), .run 1]).map fun s =>
          (last, (s.job 0).map Job.between, (s.job 1).map Job.between)) =
      some ((2, [⟨.load, true, 0, 1⟩]), some true, some true) := by decide +kernel
  obtain ⟨bm, hbm, hrun⟩ := Option.bind_eq_some_iff.mp hrun
  obtain ⟨last, hlast, hrun⟩ := Option.bind_eq_some_iff.mp hrun
  obtain ⟨s, hs, rfl⟩ := Option.map_eq_some_iff.mp hlast
  obtain ⟨s', hs', hview⟩ := Option.map_eq_some_iff.mp hrun
  simp only [Prod.mk.injEq] at hview
  obtain ⟨⟨hvalue, hreturned⟩, hjob, hjob'⟩ := hview
  obtain ⟨job, hjob, hbetween⟩ := Option.map_eq_some_iff.mp hjob
  obtain ⟨job', hjob', hbetween'⟩ := Option.map_eq_some_iff.mp hjob'
  refine ⟨bm, s, s', hbm, Runs.reach_of_exec hs, hvalue, hreturned, ?_, Runs.reach_of_exec hs',
    ⟨job, hjob, hbetween⟩, ⟨job', hjob', hbetween'⟩⟩
  intro hmutex
  have hbounds := hmutex.value
  rw [hvalue] at hbounds
  exact absurd hbounds (by decide)

end Nachos.AddrLock

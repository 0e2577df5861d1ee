import Nachos.Threads.PTableMoves

/-! The invariant of the process table: the bitmap and the entries agree, every live
thread finds its own PCB under its `processID`, and slot 0 belongs to the main thread. -/
namespace Nachos.PTable

/-- The slot and the PCB of a call of `Exec` that has not forked yet. -/
def Pc.creating : Pc → Option (ℕ × ProcessNumber)
  | .execLock _ index child => some (index, child)
  | .execFork _ index child => some (index, child)
  | _ => none

/-- The slot and the PCB of a call of `Exec` that has forked. -/
def Pc.forkedChild : Pc → Option (ℕ × ProcessNumber)
  | .execUnlock _ index child => some (index, child)
  | .execLeave _ index child => some (index, child)
  | _ => none

/-- Inside `ExitUpdate`. -/
def Pc.exiting : Pc → Bool
  | .exitLock _ | .exitDec _ | .exitRelease | .exitBegin | .exitWait _ | .exitRemove => true
  | _ => false

/-- The fields of a PCB that only `Exec` and the destructor write. -/
def PCB.identity (pcb : PCB) : Option ThreadId × ℤ × ℤ × Bool :=
  (pcb.thread, pcb.parentID, pcb.processID, pcb.deleted)

structure TableInv (s : State) : Prop where
  bits : ∀ i < MAX_PROCESS, s.bm.mem i = (s.pcb i).isSome
  range : ∀ i o, s.pcb i = some o → i < MAX_PROCESS
  object : ∀ i o, s.pcb i = some o →
    ∃ pcb, s.heap o = some pcb ∧ pcb.processID = i ∧ pcb.deleted = false
  fresh : ∀ o : ℕ, s.next ≤ o → s.heap o = none ∧ s.thread o = none
  own : ∀ t th, s.thread t = some th → th.pc ≠ .finished → s.entry th.processID = some t
  creating : ∀ t th i o, s.thread t = some th → th.pc.creating = some (i, o) →
    s.pcb i = some o ∧ s.thread o = none ∧
      ∃ pcb, s.heap o = some pcb ∧ pcb.parentID = th.processID
  forkedChild : ∀ t th i o, s.thread t = some th → th.pc.forkedChild = some (i, o) →
    ∃ new, s.thread o = some new ∧ new.processID = i
  threadField : ∀ o pcb u, s.heap o = some pcb → pcb.thread = some u → u = o
  threadPCB : ∀ t th, s.thread t = some th → t ≠ 0 →
    ∃ pcb, s.heap t = some pcb ∧ pcb.thread = some t
  main : s.pcb 0 = some 0
  exiting : ∀ t th, s.thread t = some th → th.pc.exiting = true → th.processID ≠ 0

section

variable {s s' : State} {t : ThreadId} {th : Thread}

theorem entry_congr (h : s'.pcb = s.pcb) (i : ℤ) : s'.entry i = s.entry i := by
  simp only [State.entry, h]

theorem entry_natCast {i : ℕ} (hi : i < MAX_PROCESS) : s.entry i = s.pcb i := by
  unfold State.entry
  rw [if_pos ⟨by omega, by exact_mod_cast hi⟩, Int.toNat_natCast]

theorem update_some_cases {α β : Type*} [DecidableEq α] {f : α → Option β} {a x : α} {b y : β}
    (h : Function.update f a (some b) x = some y) : (x = a ∧ y = b) ∨ (x ≠ a ∧ f x = some y) := by
  by_cases hx : x = a
  · subst hx
    rw [Function.update_self] at h
    exact .inl ⟨rfl, (Option.some.inj h).symm⟩
  · rw [Function.update_of_ne hx] at h
    exact .inr ⟨hx, h⟩

theorem update_none_cases {α β : Type*} [DecidableEq α] {f : α → Option β} {a x : α} {y : β}
    (h : Function.update f a none x = some y) : x ≠ a ∧ f x = some y := by
  by_cases hx : x = a
  · subst hx
    rw [Function.update_self] at h
    cases h
  · exact ⟨hx, (Function.update_of_ne hx _ _).symm.trans h⟩

/-- The heap after a write that does not change what `f` shows of the PCB. -/
theorem map_update {α : Type*} {f : PCB → α} {heap : ProcessNumber → Option PCB}
    {o : ProcessNumber} {pcb pcb' : PCB} (h : heap o = some pcb) (hf : f pcb' = f pcb)
    (u : ProcessNumber) : (Function.update heap o (some pcb') u).map f = (heap u).map f := by
  by_cases hu : u = o
  · subst hu
    rw [Function.update_self, h, Option.map_some, Option.map_some, hf]
  · rw [Function.update_of_ne hu]

theorem exists_of_map {α : Type*} {f : PCB → α} {heap heap' : ProcessNumber → Option PCB}
    {o : ProcessNumber} (h : (heap' o).map f = (heap o).map f) {pcb : PCB}
    (ho : heap o = some pcb) : ∃ pcb', heap' o = some pcb' ∧ f pcb' = f pcb := by
  rw [ho, Option.map_some] at h
  exact Option.map_eq_some_iff.mp h

/-- Thread `t` goes on at `pc`, and neither the table nor the identity of a PCB changes. -/
structure Quiet (s s' : State) (t : ThreadId) (th : Thread) (input : Input) (pc : Pc) : Prop where
  live : th.pc ≠ .finished
  bm : s'.bm = s.bm
  pcb : s'.pcb = s.pcb
  next : s'.next = s.next
  thread : s'.thread = Function.update s.thread t (some { th with pc })
  heap : ∀ o, (s'.heap o).map PCB.identity = (s.heap o).map PCB.identity
  trace : ∃ es, s'.trace = es ++ s.trace ∧ ∀ u index o, .slotTaken u index o ∉ es
  creating : ∀ c, pc.creating = some c → th.pc.creating = some c
  forkedChild : ∀ c, pc.forkedChild = some c → th.pc.forkedChild = some c
  exiting : pc.exiting = true → th.pc.exiting = true ∨
    (th.processID ≠ 0 ∧ ∃ exitCode, .exitCalled t exitCode ∈ s'.trace)
  finished : pc = .finished → ∃ argv env, th.pc = .start2 argv ∧ input = .start env ∧
    startProcess2 env argv = .returned

/-- The moves as far as the table is concerned. -/
inductive TableMove (s : State) (t : ThreadId) (th : Thread) (input : Input) : State → Prop
  | stop (status : Status) (h : status ≠ .running) : TableMove s t th input { s with status }
  | quiet (s' : State) (pc : Pc) (h : Quiet s s' t th input pc) : TableMove s t th input s'
  | allocate (call : ExecCall) (index : ℕ) (rest : List ℕ) (multex : Semaphore)
      (checks : Checks) (h : th.pc = .execCheck call) (hfree : s.bm.clearList = index :: rest) :
      TableMove s t th input ({ s with
        bm := s.bm.insert index
        pcb := Function.update s.pcb index (some s.next)
        next := s.next + 1
        heap := Function.update s.heap s.next (some { PCB.new index th.processID with multex })
        trace := .slotTaken t index s.next :: .execChecked t checks :: s.trace }.setPc t th
          (.execFork call index s.next))
  | fork (call : ExecCall) (index : ℕ) (child : ProcessNumber) (tail : CString)
      (h : th.pc = .execFork call index child) (pcb : PCB) (hl : s.live child = some pcb) :
      TableMove s t th input ({ s with
        heap := Function.update s.heap child
          (some { pcb with thread := some child, parentID := th.processID })
        thread := Function.update s.thread child (some (State.newThread call index tail))
        trace := .forked t child :: s.trace }.setPc t th (.execUnlock call index child))
  | remove (h : th.pc = .exitRemove) (bm : Bitmap MAX_PROCESS)
      (hbm : s.bm.clear th.processID = some bm) (self : ProcessNumber)
      (he : s.pcb th.processID.toNat = some self) (pcb : PCB) (hl : s.live self = some pcb) :
      TableMove s t th input ({ s with
        bm
        pcb := Function.update s.pcb th.processID.toNat none
        heap := Function.update s.heap self (some { pcb with deleted := true })
        trace := .threadFinished t :: .removed t th.processID.toNat self :: s.trace }.setPc t th
          .finished)
  | stray (s' : State) (h : th.pc = .exitRemove)
      (hstray : s.pcb th.processID.toNat = none ∨ ∃ self pcb,
        s.pcb th.processID.toNat = some self ∧ s.live self = some pcb ∧
        ∀ owner, pcb.thread.bind s.thread = some owner → owner.processID ≠ th.processID) :
      TableMove s t th input s'

/-- A place of no interest to the table. -/
def Pc.plain (pc : Pc) : Prop :=
  pc.creating = none ∧ pc.forkedChild = none ∧ pc.exiting = false ∧ pc ≠ .finished

theorem Quiet.of_plain {input : Input} {pc : Pc} (hlive : th.pc ≠ .finished) (hplain : pc.plain)
    (hbm : s'.bm = s.bm) (hpcb : s'.pcb = s.pcb) (hnext : s'.next = s.next)
    (hthread : s'.thread = Function.update s.thread t (some { th with pc }))
    (hheap : ∀ o, (s'.heap o).map PCB.identity = (s.heap o).map PCB.identity)
    (htrace : ∃ es, s'.trace = es ++ s.trace ∧ ∀ u index o, .slotTaken u index o ∉ es) :
    Quiet s s' t th input pc := by
  obtain ⟨h1, h2, h3, h4⟩ := hplain
  exact ⟨hlive, hbm, hpcb, hnext, hthread, hheap, htrace, by simp [h1], by simp [h2], by simp [h3],
    fun h => absurd h h4⟩

/-- Where a turn in `P` can lead. -/
theorem Turn.pc_cases {sem sem' : Semaphore} {done retry pc : Pc}
    (h : Turn sem t done retry sem' pc) : pc = done ∨ pc = retry := by
  cases h with
  | entered h => exact .inl rfl
  | queued h => exact .inr rfl

theorem Quiet.of_exiting {input : Input} {pc : Pc} (hlive : th.pc ≠ .finished)
    (hexit : pc.exiting = true) (hid : th.pc.exiting = true ∨
      (th.processID ≠ 0 ∧ ∃ exitCode, .exitCalled t exitCode ∈ s'.trace))
    (hbm : s'.bm = s.bm) (hpcb : s'.pcb = s.pcb) (hnext : s'.next = s.next)
    (hthread : s'.thread = Function.update s.thread t (some { th with pc }))
    (hheap : ∀ o, (s'.heap o).map PCB.identity = (s.heap o).map PCB.identity)
    (htrace : ∃ es, s'.trace = es ++ s.trace ∧ ∀ u index o, .slotTaken u index o ∉ es) :
    Quiet s s' t th input pc := by
  have hplain : pc.creating = none ∧ pc.forkedChild = none ∧ pc ≠ .finished := by
    cases pc <;> simp_all [Pc.exiting, Pc.creating, Pc.forkedChild]
  obtain ⟨h1, h2, h3⟩ := hplain
  exact ⟨hlive, hbm, hpcb, hnext, hthread, hheap, htrace, by simp [h1], by simp [h2], fun _ => hid,
    fun h => absurd h h3⟩

theorem map_live {α : Type*} {f : PCB → α} {o : ProcessNumber} {pcb q : PCB}
    (hl : s.live o = some pcb) (hf : f q = f pcb) (u : ProcessNumber) :
    (Function.update s.heap o (some q) u).map f = (s.heap u).map f :=
  map_update (State.live_eq_some_iff.mp hl).1 hf u

theorem Move.table {input : Input} (hm : Move s t th input s') : TableMove s t th input s' := by
  cases hm with
  | stop status h => exact .stop status h
  | run h =>
    refine .quiet _ .user (.of_plain ?_ ?_ rfl rfl rfl rfl (fun _ => rfl) ⟨[], rfl, by simp⟩)
    · rcases h with h | ⟨argv, h⟩ <;> simp [h]
    · simp [Pc.plain, Pc.creating, Pc.forkedChild, Pc.exiting]
  | giveUp argv env h hi hr =>
    refine .quiet _ .finished ⟨by simp [h], rfl, rfl, rfl, rfl, fun _ => rfl, ⟨[_], rfl, by simp⟩,
      by simp [Pc.creating], by simp [Pc.forkedChild], by simp [Pc.exiting], ?_⟩
    exact fun _ => ⟨argv, env, h, hi, hr⟩
  | execCall call h bmsem pc hturn =>
    refine .quiet _ pc
      (.of_plain (by simp [h]) ?_ rfl rfl rfl rfl (fun _ => rfl) ⟨[_], rfl, by simp⟩)
    rcases hturn.pc_cases with rfl | rfl <;>
      simp [Pc.plain, Pc.creating, Pc.forkedChild, Pc.exiting]
  | execWake call h bmsem pc hturn =>
    refine .quiet _ pc
      (.of_plain (by simp [h]) ?_ rfl rfl rfl rfl (fun _ => rfl) ⟨[], rfl, by simp⟩)
    rcases hturn.pc_cases with rfl | rfl <;>
      simp [Pc.plain, Pc.creating, Pc.forkedChild, Pc.exiting]
  | execRefuse call opened h hi hr =>
    refine .quiet _ (.execReturn (-1))
      (.of_plain (by simp [h]) ?_ rfl rfl rfl rfl (fun _ => rfl) ⟨[_, _], rfl, by simp⟩)
    simp [Pc.plain, Pc.creating, Pc.forkedChild, Pc.exiting]
  | execAllocate call name index rest h hi hname hother hfree =>
    exact .allocate call index rest ⟨0, []⟩ _ h hfree
  | execLock call index child h pcb hl sem pc hturn =>
    refine .quiet _ pc ⟨by simp [h], rfl, rfl, rfl, rfl, map_live hl rfl, ⟨[], rfl, by simp⟩,
      ?_, ?_, ?_, ?_⟩
    all_goals
      rcases hturn.pc_cases with rfl | rfl <;>
        simp [h, Pc.creating, Pc.forkedChild, Pc.exiting]
  | execFork call index child tail h pcb hl => exact .fork call index child tail h pcb hl
  | execUnlock call index child h pcb hl =>
    refine .quiet _ (.execLeave call index child) ⟨by simp [h], rfl, rfl, rfl, rfl,
      map_live hl rfl, ⟨[], rfl, by simp⟩, ?_, ?_, ?_, ?_⟩
    all_goals simp [h, Pc.creating, Pc.forkedChild, Pc.exiting]
  | execLeave call index child value h hvalue =>
    refine .quiet _ (.execReturn value)
      (.of_plain (by simp [h]) ?_ rfl rfl rfl rfl (fun _ => rfl) ⟨[_], rfl, by simp⟩)
    simp [Pc.plain, Pc.creating, Pc.forkedChild, Pc.exiting]
  | execReturn value h =>
    refine .quiet _ .user
      (.of_plain (by simp [h]) ?_ rfl rfl rfl rfl (fun _ => rfl) ⟨[_], rfl, by simp⟩)
    simp [Pc.plain, Pc.creating, Pc.forkedChild, Pc.exiting]
  | joinRefuse pid h =>
    refine .quiet _ (.joinReturn (-1))
      (.of_plain (by simp [h]) ?_ rfl rfl rfl rfl (fun _ => rfl) ⟨[_], rfl, by simp⟩)
    simp [Pc.plain, Pc.creating, Pc.forkedChild, Pc.exiting]
  | joinPass pid h hi child he pcb hl hp parent hparent ppcb hpl sem pc hturn =>
    refine .quiet _ pc
      (.of_plain (by simp [h]) ?_ rfl rfl rfl rfl (map_live hpl rfl) ⟨[_], rfl, by simp⟩)
    rcases hturn.pc_cases with rfl | rfl <;>
      simp [Pc.plain, Pc.creating, Pc.forkedChild, Pc.exiting]
  | joinLock pid parent h pcb hl sem pc hturn =>
    refine .quiet _ pc
      (.of_plain (by simp [h]) ?_ rfl rfl rfl rfl (map_live hl rfl) ⟨[], rfl, by simp⟩)
    rcases hturn.pc_cases with rfl | rfl <;>
      simp [Pc.plain, Pc.creating, Pc.forkedChild, Pc.exiting]
  | joinInc pid parent h pcb hl =>
    refine .quiet _ (.joinBegin pid)
      (.of_plain (by simp [h]) ?_ rfl rfl rfl rfl (map_live hl rfl) ⟨[], rfl, by simp⟩)
    simp [Pc.plain, Pc.creating, Pc.forkedChild, Pc.exiting]
  | joinWait pid child h pcb hl sem pc hturn =>
    refine .quiet _ pc (.of_plain ?_ ?_ rfl rfl rfl rfl (map_live hl rfl) ⟨[], rfl, by simp⟩)
    · rcases h with ⟨h, -⟩ | h <;> simp [h]
    · rcases hturn.pc_cases with rfl | rfl <;>
        simp [Pc.plain, Pc.creating, Pc.forkedChild, Pc.exiting]
  | joinRead pid h child he pcb hl =>
    refine .quiet _ (.joinReturn pcb.exitcode)
      (.of_plain (by simp [h]) ?_ rfl rfl rfl rfl (map_live hl rfl) ⟨[_], rfl, by simp⟩)
    simp [Pc.plain, Pc.creating, Pc.forkedChild, Pc.exiting]
  | joinReturn value h =>
    refine .quiet _ .user
      (.of_plain (by simp [h]) ?_ rfl rfl rfl rfl (fun _ => rfl) ⟨[_], rfl, by simp⟩)
    simp [Pc.plain, Pc.creating, Pc.forkedChild, Pc.exiting]
  | exitCall exitCode h hid self he pcb hl parent hparent ppcb hpl sem pc hturn =>
    refine .quiet _ pc (.of_exiting ?_ ?_ (.inr ⟨hid, exitCode, List.mem_cons_self⟩)
      rfl rfl rfl rfl ?_ ⟨[_], rfl, by simp⟩)
    · rcases h with h | h | ⟨argv, h⟩ <;> simp [h]
    · rcases hturn.pc_cases with rfl | rfl <;> rfl
    · intro o
      exact (map_live (q := { ppcb with multex := sem }) hpl rfl o).trans
        (map_live (q := { pcb with exitcode := exitCode }) hl rfl o)
  | exitLock parent h pcb hl sem pc hturn =>
    refine .quiet _ pc (.of_exiting (by simp [h]) ?_ (.inl (by simp [h, Pc.exiting]))
      rfl rfl rfl rfl (map_live hl rfl) ⟨[], rfl, by simp⟩)
    rcases hturn.pc_cases with rfl | rfl <;> rfl
  | exitDec parent h pcb hl =>
    exact .quiet _ .exitRelease (.of_exiting (by simp [h]) rfl (.inl (by simp [h, Pc.exiting]))
      rfl rfl rfl rfl (map_live hl rfl) ⟨[], rfl, by simp⟩)
  | exitRelease h self he pcb hl =>
    exact .quiet _ .exitBegin (.of_exiting (by simp [h]) rfl (.inl (by simp [h, Pc.exiting]))
      rfl rfl rfl rfl (map_live hl rfl) ⟨[], rfl, by simp⟩)
  | exitWait self h pcb hl sem pc hturn =>
    have hpc : th.pc ≠ .finished ∧ th.pc.exiting = true := by
      rcases h with ⟨h, -⟩ | h <;> simp [h, Pc.exiting]
    refine .quiet _ pc (.of_exiting hpc.1 ?_ (.inl hpc.2) rfl rfl rfl rfl (map_live hl rfl)
      ⟨[], rfl, by simp⟩)
    rcases hturn.pc_cases with rfl | rfl <;> rfl
  | remove h bm hbm self he pcb hl hthread => exact .remove h bm hbm self he pcb hl
  | removeStray h s' hstray => exact .stray s' h hstray

namespace TableInv

/-- Two entries never hold the same PCB. -/
theorem slot_unique (h : TableInv s) {i j : ℕ} {o : ProcessNumber} (hi : s.pcb i = some o)
    (hj : s.pcb j = some o) : i = j := by
  obtain ⟨pcb, hp, hid, -⟩ := h.object i o hi
  obtain ⟨pcb', hp', hid', -⟩ := h.object j o hj
  rw [hp] at hp'
  cases hp'
  omega

/-- At most one live thread has a given `processID`. -/
theorem thread_unique (h : TableInv s) {u : ThreadId} {uh : Thread} (ht : s.thread t = some th)
    (hu : s.thread u = some uh) (hlive : th.pc ≠ .finished) (hulive : uh.pc ≠ .finished)
    (hid : th.processID = uh.processID) : t = u := by
  have h1 := h.own t th ht hlive
  have h2 := h.own u uh hu hulive
  rw [hid, h2] at h1
  exact (Option.some.inj h1).symm

theorem creator_unique (h : TableInv s) {u : ThreadId} {uh : Thread} {i j : ℕ}
    {o : ProcessNumber} (ht : s.thread t = some th) (hu : s.thread u = some uh)
    (hc : th.pc.creating = some (i, o)) (huc : uh.pc.creating = some (j, o)) : t = u := by
  obtain ⟨-, -, pcb, hp, hparent⟩ := h.creating t th i o ht hc
  obtain ⟨-, -, pcb', hp', hparent'⟩ := h.creating u uh j o hu huc
  rw [hp] at hp'
  cases hp'
  refine h.thread_unique ht hu ?_ ?_ (hparent.symm.trans hparent')
  · intro hf
    rw [hf] at hc
    cases hc
  · intro hf
    rw [hf] at huc
    cases huc

/-- A live thread's own entry, PCB and slot. -/
theorem own_entry (h : TableInv s) (ht : s.thread t = some th) (hlive : th.pc ≠ .finished) :
    ∃ i : ℕ, i < MAX_PROCESS ∧ th.processID = i ∧ s.pcb i = some t := by
  obtain ⟨h0, h1, h2⟩ := State.entry_eq_some_iff.mp (h.own t th ht hlive)
  exact ⟨th.processID.toNat, by omega, by omega, h2⟩

theorem ne_zero_of_exiting (h : TableInv s) (ht : s.thread t = some th)
    (hexit : th.pc.exiting = true) : t ≠ 0 := by
  have hlive : th.pc ≠ .finished := by
    intro hf
    rw [hf] at hexit
    cases hexit
  obtain ⟨i, -, hid, hi⟩ := h.own_entry ht hlive
  rintro rfl
  have := h.slot_unique hi h.main
  exact h.exiting 0 th ht hexit (by omega)

theorem quiet (h : TableInv s) {input : Input} {pc : Pc} (hth : s.thread t = some th)
    (hq : Quiet s s' t th input pc) : TableInv s' := by
  obtain ⟨hlive, hbm, hpcb, hnext, hthread, hheap, -, hcreating, hforked, hexit, -⟩ := hq
  have hkeep {o : ProcessNumber} {pcb : PCB} (ho : s.heap o = some pcb) :=
    exists_of_map (hheap o) ho
  have hnone {u : ThreadId} (hu : s.thread u = none) : s'.thread u = none := by
    rw [hthread, Function.update_of_ne]
    · exact hu
    · rintro rfl
      rw [hth] at hu
      cases hu
  have hcases {u : ThreadId} {uh : Thread} (hu : s'.thread u = some uh) :=
    update_some_cases (hthread ▸ hu)
  have hchild {u : ThreadId} {new : Thread} (hu : s.thread u = some new) :
      ∃ new', s'.thread u = some new' ∧ new'.processID = new.processID := by
    rw [hthread]
    by_cases hut : u = t
    · subst hut
      rw [hth] at hu
      cases hu
      exact ⟨_, Function.update_self .., rfl⟩
    · exact ⟨new, by rw [Function.update_of_ne hut, hu], rfl⟩
  have hcreated {u : ThreadId} {uh : Thread} {i : ℕ} {o : ProcessNumber}
      (hu : s.thread u = some uh) (hc : uh.pc.creating = some (i, o)) :
      s'.pcb i = some o ∧ s'.thread o = none ∧
        ∃ pcb, s'.heap o = some pcb ∧ pcb.parentID = uh.processID := by
    obtain ⟨h1, h2, pcb, h3, h4⟩ := h.creating u uh i o hu hc
    obtain ⟨pcb', hp', hid⟩ := hkeep h3
    simp only [PCB.identity, Prod.mk.injEq] at hid
    exact ⟨by rw [hpcb, h1], hnone h2, pcb', hp', hid.2.1.trans h4⟩
  constructor
  case bits =>
    rw [hbm, hpcb]
    exact h.bits
  case range =>
    rw [hpcb]
    exact h.range
  case object =>
    intro i o hi
    rw [hpcb] at hi
    obtain ⟨pcb, hp, h1, h2⟩ := h.object i o hi
    obtain ⟨pcb', hp', hid⟩ := hkeep hp
    simp only [PCB.identity, Prod.mk.injEq] at hid
    exact ⟨pcb', hp', hid.2.2.1.trans h1, hid.2.2.2.trans h2⟩
  case fresh =>
    intro o ho
    rw [hnext] at ho
    obtain ⟨h1, h2⟩ := h.fresh o ho
    refine ⟨?_, hnone h2⟩
    have := hheap o
    rw [h1] at this
    simpa using this
  case own =>
    intro u uh hu hulive
    rw [entry_congr hpcb]
    rcases hcases hu with ⟨rfl, rfl⟩ | ⟨-, hu⟩
    · exact h.own u th hth hlive
    · exact h.own u uh hu hulive
  case creating =>
    intro u uh i o hu hc
    rcases hcases hu with ⟨rfl, rfl⟩ | ⟨-, hu⟩
    · have hold := hcreated hth (hcreating _ hc)
      exact hold
    · exact hcreated hu hc
  case forkedChild =>
    intro u uh i o hu hc
    rcases hcases hu with ⟨rfl, rfl⟩ | ⟨-, hu⟩
    · obtain ⟨new, hn, hid⟩ := h.forkedChild u th i o hth (hforked _ hc)
      obtain ⟨new', hn', hid'⟩ := hchild hn
      exact ⟨new', hn', hid'.trans hid⟩
    · obtain ⟨new, hn, hid⟩ := h.forkedChild u uh i o hu hc
      obtain ⟨new', hn', hid'⟩ := hchild hn
      exact ⟨new', hn', hid'.trans hid⟩
  case threadField =>
    intro o pcb' u ho hu
    obtain ⟨pcb, hp, hid⟩ := exists_of_map (hheap o).symm ho
    simp only [PCB.identity, Prod.mk.injEq] at hid
    exact h.threadField o pcb u hp (hid.1.trans hu)
  case threadPCB =>
    intro u uh hu hne
    have hold : ∃ old, s.thread u = some old := by
      rcases hcases hu with ⟨rfl, -⟩ | ⟨-, hu⟩
      · exact ⟨th, hth⟩
      · exact ⟨uh, hu⟩
    obtain ⟨old, hold⟩ := hold
    obtain ⟨pcb, hp, hpt⟩ := h.threadPCB u old hold hne
    obtain ⟨pcb', hp', hid⟩ := hkeep hp
    simp only [PCB.identity, Prod.mk.injEq] at hid
    exact ⟨pcb', hp', hid.1.trans hpt⟩
  case main =>
    rw [hpcb]
    exact h.main
  case exiting =>
    intro u uh hu he
    rcases hcases hu with ⟨rfl, rfl⟩ | ⟨-, hu⟩
    · rcases hexit he with hold | ⟨hid, -⟩
      · exact h.exiting u th hth hold
      · exact hid
    · exact h.exiting u uh hu he

/-- The bitmap lists exactly the free entries. -/
theorem clearList_eq (h : TableInv s) : s.bm.clearList = s.freeSlots := by
  refine List.filter_congr ?_
  intro i hi
  rw [h.bits i (List.mem_range.mp hi)]
  cases s.pcb i <;> rfl

/-- The slot that `FindAndSet` gives was free. -/
theorem free_slot (h : TableInv s) {index : ℕ} {rest : List ℕ}
    (hfree : s.bm.clearList = index :: rest) :
    index < MAX_PROCESS ∧ s.pcb index = none ∧ index ≠ 0 := by
  obtain ⟨hlt, hclear⟩ := Bitmap.mem_clearList.mp (hfree ▸ List.mem_cons_self)
  have hempty : s.pcb index = none := by
    have := h.bits index hlt
    rw [hclear] at this
    cases hp : s.pcb index with
    | none => rfl
    | some o => rw [hp] at this; cases this
  refine ⟨hlt, hempty, ?_⟩
  rintro rfl
  rw [h.main] at hempty
  cases hempty

theorem thread_lt (h : TableInv s) (hth : s.thread t = some th) : t < s.next := by
  by_contra hge
  rw [(h.fresh t (not_lt.mp hge)).2] at hth
  cases hth

theorem heap_lt (h : TableInv s) {o : ProcessNumber} {pcb : PCB} (ho : s.heap o = some pcb) :
    o < s.next := by
  by_contra hge
  rw [(h.fresh o (not_lt.mp hge)).1] at ho
  cases ho

theorem allocate (h : TableInv s) {index : ℕ} {rest : List ℕ} {multex : Semaphore} {call : ExecCall}
    {trace : List Event} (hth : s.thread t = some th) (hlive : th.pc ≠ .finished)
    (hfree : s.bm.clearList = index :: rest) :
    TableInv ({ s with
      bm := s.bm.insert index
      pcb := Function.update s.pcb index (some s.next)
      next := s.next + 1
      heap := Function.update s.heap s.next (some { PCB.new index th.processID with multex })
      trace }.setPc t th (.execFork call index s.next)) := by
  obtain ⟨hlt, hempty, hindex⟩ := h.free_slot hfree
  have hfreshThread := (h.fresh s.next le_rfl).2
  have hold {o : ProcessNumber} {pcb : PCB} (ho : s.heap o = some pcb) : o ≠ s.next :=
    (h.heap_lt ho).ne
  have hnone {u : ThreadId} (hu : s.thread u = none) :
      Function.update s.thread t (some { th with pc := .execFork call index s.next }) u = none := by
    rw [Function.update_of_ne]
    · exact hu
    · rintro rfl
      rw [hth] at hu
      cases hu
  have hslot {i : ℕ} {o : ProcessNumber} (hi : s.pcb i = some o) :
      Function.update s.pcb index (some s.next) i = some o := by
    rw [Function.update_of_ne]
    · exact hi
    · rintro rfl
      rw [hempty] at hi
      cases hi
  have hentry {i : ℤ} {o : ProcessNumber} (hi : s.entry i = some o) :
      0 ≤ i ∧ i < MAX_PROCESS ∧ Function.update s.pcb index (some s.next) i.toNat = some o := by
    obtain ⟨h0, h1, h2⟩ := State.entry_eq_some_iff.mp hi
    exact ⟨h0, h1, hslot h2⟩
  constructor
  case bits =>
    intro i hi
    simp only [State.setPc_bm, State.setPc_pcb]
    rw [Bitmap.mem_insert s.bm hlt hi]
    by_cases hii : i = index
    · subst hii
      simp
    · rw [Function.update_of_ne hii, h.bits i hi]
      simp [Ne.symm hii]
  case range =>
    intro i o hi
    rcases update_some_cases hi with ⟨rfl, -⟩ | ⟨-, hi⟩
    · exact hlt
    · exact h.range i o hi
  case object =>
    intro i o hi
    simp only [State.setPc_heap]
    rcases update_some_cases hi with ⟨rfl, rfl⟩ | ⟨-, hi⟩
    · exact ⟨_, Function.update_self .., rfl, rfl⟩
    · obtain ⟨pcb, hp, h1, h2⟩ := h.object i o hi
      exact ⟨pcb, by rw [Function.update_of_ne (hold hp), hp], h1, h2⟩
  case fresh =>
    intro o ho
    simp only [State.setPc_next] at ho
    have hne : o ≠ s.next := by omega
    obtain ⟨h1, h2⟩ := h.fresh o (by omega)
    exact ⟨(Function.update_of_ne hne _ _).trans h1, hnone h2⟩
  case own =>
    intro u uh hu hulive
    rw [State.entry_eq_some_iff]
    rcases update_some_cases hu with ⟨rfl, rfl⟩ | ⟨-, hu⟩
    · exact hentry (h.own u th hth hlive)
    · exact hentry (h.own u uh hu hulive)
  case creating =>
    intro u uh i o hu hc
    simp only [State.setPc_heap, State.setPc_pcb, State.setPc_thread]
    rcases update_some_cases hu with ⟨rfl, rfl⟩ | ⟨-, hu⟩
    · cases hc
      exact ⟨Function.update_self .., hnone hfreshThread, _, Function.update_self .., if_neg hindex⟩
    · obtain ⟨h1, h2, pcb, h3, h4⟩ := h.creating u uh i o hu hc
      exact ⟨hslot h1, hnone h2, pcb, by rw [Function.update_of_ne (hold h3), h3], h4⟩
  case forkedChild =>
    intro u uh i o hu hc
    rcases update_some_cases hu with ⟨rfl, rfl⟩ | ⟨-, hu⟩
    · cases hc
    · obtain ⟨new, hn, hid⟩ := h.forkedChild u uh i o hu hc
      by_cases hot : o = t
      · subst hot
        rw [hth] at hn
        cases hn
        exact ⟨_, Function.update_self .., hid⟩
      · exact ⟨new, (Function.update_of_ne hot _ _).trans hn, hid⟩
  case threadField =>
    intro o pcb u ho hu
    rcases update_some_cases ho with ⟨rfl, rfl⟩ | ⟨-, ho⟩
    · cases hu
    · exact h.threadField o pcb u ho hu
  case threadPCB =>
    intro u uh hu hne
    simp only [State.setPc_heap]
    have hu' : ∃ old, s.thread u = some old := by
      rcases update_some_cases hu with ⟨rfl, -⟩ | ⟨-, hu⟩
      · exact ⟨th, hth⟩
      · exact ⟨uh, hu⟩
    obtain ⟨old, hu'⟩ := hu'
    obtain ⟨pcb, hp, hpt⟩ := h.threadPCB u old hu' hne
    exact ⟨pcb, by rw [Function.update_of_ne (hold hp), hp], hpt⟩
  case main => exact hslot h.main
  case exiting =>
    intro u uh hu he
    rcases update_some_cases hu with ⟨rfl, rfl⟩ | ⟨-, hu⟩
    · cases he
    · exact h.exiting u uh hu he

theorem fork (h : TableInv s) {call : ExecCall} {index : ℕ} {child : ProcessNumber}
    {tail : CString} {pcb : PCB} {trace : List Event} (hth : s.thread t = some th)
    (hpc : th.pc = .execFork call index child) (hl : s.live child = some pcb) :
    TableInv ({ s with
      heap := Function.update s.heap child
        (some { pcb with thread := some child, parentID := th.processID })
      thread := Function.update s.thread child (some (State.newThread call index tail))
      trace }.setPc t th (.execUnlock call index child)) := by
  have hheap := (State.live_eq_some_iff.mp hl).1
  have hlive : th.pc ≠ .finished := by simp [hpc]
  obtain ⟨hslot, hnone, pcb', hp', hparent⟩ :=
    h.creating t th index child hth (by rw [hpc]; rfl)
  rw [hheap] at hp'
  cases hp'
  have htc : t ≠ child := by
    rintro rfl
    rw [hnone] at hth
    cases hth
  have hnew : (State.newThread call index tail).processID = index ∧
      (State.newThread call index tail).pc.creating = none ∧
      (State.newThread call index tail).pc.forkedChild = none ∧
      (State.newThread call index tail).pc.exiting = false := by
    unfold State.newThread
    cases call.kind <;> exact ⟨rfl, rfl, rfl, rfl⟩
  -- a thread of the new state: the one that forked, the new one, or one from before
  have hcases {u : ThreadId} {uh : Thread}
      (hu : Function.update (Function.update s.thread child
        (some (State.newThread call index tail))) t
          (some { th with pc := .execUnlock call index child }) u = some uh) :
      (u = t ∧ uh = { th with pc := .execUnlock call index child }) ∨
      (u = child ∧ uh = State.newThread call index tail) ∨
      (u ≠ t ∧ u ≠ child ∧ s.thread u = some uh) := by
    rcases update_some_cases hu with hu | ⟨hut, hu⟩
    · exact .inl hu
    · rcases update_some_cases hu with hu | ⟨huc, hu⟩
      · exact .inr (.inl hu)
      · exact .inr (.inr ⟨hut, huc, hu⟩)
  have hkeep {u : ThreadId} (hut : u ≠ t) (huc : u ≠ child) :
      Function.update (Function.update s.thread child (some (State.newThread call index tail))) t
        (some { th with pc := .execUnlock call index child }) u = s.thread u := by
    rw [Function.update_of_ne hut, Function.update_of_ne huc]
  have hobject {o : ProcessNumber} {old : PCB} (ho : s.heap o = some old) :
      ∃ new, Function.update s.heap child
        (some { pcb with thread := some child, parentID := th.processID }) o = some new ∧
        new.processID = old.processID ∧ new.deleted = old.deleted ∧
        new.parentID = old.parentID ∧ (old.thread = some o → new.thread = some o) := by
    by_cases hoc : o = child
    · subst hoc
      rw [hheap] at ho
      cases ho
      exact ⟨_, Function.update_self .., rfl, rfl, hparent.symm, fun _ => rfl⟩
    · exact ⟨old, (Function.update_of_ne hoc _ _).trans ho, rfl, rfl, rfl, id⟩
  constructor
  case bits => exact h.bits
  case range => exact h.range
  case object =>
    intro i o hi
    obtain ⟨old, ho, h1, h2⟩ := h.object i o hi
    obtain ⟨new, hn, hid, hd, -⟩ := hobject ho
    exact ⟨new, hn, hid.trans h1, hd.trans h2⟩
  case fresh =>
    intro o ho
    obtain ⟨h1, h2⟩ := h.fresh o ho
    have hoc : o ≠ child := by
      rintro rfl
      rw [hheap] at h1
      cases h1
    have hot : o ≠ t := by
      rintro rfl
      rw [hth] at h2
      cases h2
    exact ⟨(Function.update_of_ne hoc _ _).trans h1, (hkeep hot hoc).trans h2⟩
  case own =>
    intro u uh hu hulive
    rcases hcases hu with ⟨rfl, rfl⟩ | ⟨rfl, rfl⟩ | ⟨-, -, hu⟩
    · exact h.own u th hth hlive
    · rw [hnew.1]
      exact (entry_natCast (h.range index u hslot)).trans hslot
    · exact h.own u uh hu hulive
  case creating =>
    intro u uh i o hu hc
    rcases hcases hu with ⟨rfl, rfl⟩ | ⟨rfl, rfl⟩ | ⟨hut, huc, hold⟩
    · cases hc
    · rw [hnew.2.1] at hc
      cases hc
    · obtain ⟨h1, h2, old, h3, h4⟩ := h.creating u uh i o hold hc
      have hot : o ≠ t := by
        rintro rfl
        rw [hth] at h2
        cases h2
      have hoc : o ≠ child := by
        rintro rfl
        exact hut (h.creator_unique hold hth hc (by rw [hpc]; rfl))
      obtain ⟨new, hn, -, -, hpar, -⟩ := hobject h3
      exact ⟨h1, (hkeep hot hoc).trans h2, new, hn, hpar.trans h4⟩
  case forkedChild =>
    intro u uh i o hu hc
    rcases hcases hu with ⟨rfl, rfl⟩ | ⟨rfl, rfl⟩ | ⟨hut, huc, hu⟩
    · cases hc
      exact ⟨_, (Function.update_of_ne htc.symm _ _).trans (Function.update_self ..), hnew.1⟩
    · rw [hnew.2.2.1] at hc
      cases hc
    · obtain ⟨new, hn, hid⟩ := h.forkedChild u uh i o hu hc
      by_cases hot : o = t
      · subst hot
        rw [hth] at hn
        cases hn
        exact ⟨_, Function.update_self .., hid⟩
      · have hoc : o ≠ child := by
          rintro rfl
          rw [hnone] at hn
          cases hn
        exact ⟨new, (hkeep hot hoc).trans hn, hid⟩
  case threadField =>
    intro o old u ho hu
    rcases update_some_cases ho with ⟨rfl, rfl⟩ | ⟨-, ho⟩
    · exact (Option.some.inj hu).symm
    · exact h.threadField o old u ho hu
  case threadPCB =>
    intro u uh hu hne
    by_cases huc : u = child
    · subst huc
      exact ⟨_, Function.update_self .., rfl⟩
    · have hu' : ∃ old, s.thread u = some old := by
        rcases hcases hu with ⟨rfl, -⟩ | ⟨hcu, -⟩ | ⟨-, -, hu⟩
        · exact ⟨th, hth⟩
        · exact absurd hcu huc
        · exact ⟨uh, hu⟩
      obtain ⟨old, hu'⟩ := hu'
      obtain ⟨pcb', hp, hpt⟩ := h.threadPCB u old hu' hne
      exact ⟨pcb', (Function.update_of_ne huc _ _).trans hp, hpt⟩
  case main => exact h.main
  case exiting =>
    intro u uh hu he
    rcases hcases hu with ⟨rfl, rfl⟩ | ⟨rfl, rfl⟩ | ⟨-, -, hu⟩
    · cases he
    · rw [hnew.2.2.2] at he
      cases he
    · exact h.exiting u uh hu he

theorem remove (h : TableInv s) {bm : Bitmap MAX_PROCESS} {pcb : PCB} {trace : List Event}
    (hth : s.thread t = some th) (hpc : th.pc = .exitRemove)
    (hbm : s.bm.clear th.processID = some bm) (hl : s.live t = some pcb) :
    TableInv ({ s with
      bm
      pcb := Function.update s.pcb th.processID.toNat none
      heap := Function.update s.heap t (some { pcb with deleted := true })
      trace }.setPc t th .finished) := by
  have hheap := (State.live_eq_some_iff.mp hl).1
  obtain ⟨i, hi, hid, hslot⟩ := h.own_entry hth (by simp [hpc])
  have hi0 : i ≠ 0 := by
    rintro rfl
    exact h.exiting t th hth (by rw [hpc]; rfl) hid
  have htoNat : th.processID.toNat = i := by omega
  rw [hid, Bitmap.clear_of_lt s.bm hi] at hbm
  cases hbm
  rw [htoNat]
  -- an entry with another PCB is another entry
  have hother {j : ℕ} {o : ProcessNumber} (hj : s.pcb j = some o) (hot : o ≠ t) :
      Function.update s.pcb i none j = some o := by
    rw [Function.update_of_ne]
    · exact hj
    · rintro rfl
      rw [hslot] at hj
      exact hot (Option.some.inj hj).symm
  have hkept {j : ℕ} {o : ProcessNumber} (hj : Function.update s.pcb i none j = some o) :
      s.pcb j = some o ∧ o ≠ t := by
    obtain ⟨hji, hj⟩ := update_none_cases hj
    refine ⟨hj, ?_⟩
    rintro rfl
    exact hji (h.slot_unique hj hslot)
  have hobject {o : ProcessNumber} {old : PCB} (ho : s.heap o = some old) (hot : o ≠ t) :
      Function.update s.heap t (some { pcb with deleted := true }) o = some old :=
    (Function.update_of_ne hot _ _).trans ho
  constructor
  case bits =>
    intro j hj
    simp only [State.setPc_bm, State.setPc_pcb]
    rw [Bitmap.mem_erase s.bm hi hj, h.bits j hj]
    by_cases hji : j = i
    · subst hji
      simp
    · rw [Function.update_of_ne hji]
      simp [Ne.symm hji]
  case range =>
    intro j o hj
    exact h.range j o (hkept hj).1
  case object =>
    intro j o hj
    obtain ⟨hj, hot⟩ := hkept hj
    obtain ⟨old, ho, h1, h2⟩ := h.object j o hj
    exact ⟨old, hobject ho hot, h1, h2⟩
  case fresh =>
    intro o ho
    obtain ⟨h1, h2⟩ := h.fresh o ho
    have hot : o ≠ t := by
      rintro rfl
      rw [hth] at h2
      cases h2
    exact ⟨(Function.update_of_ne hot _ _).trans h1, (Function.update_of_ne hot _ _).trans h2⟩
  case own =>
    intro u uh hu hulive
    rcases update_some_cases hu with ⟨rfl, rfl⟩ | ⟨hut, hu⟩
    · exact absurd rfl hulive
    · obtain ⟨h0, h1, h2⟩ := State.entry_eq_some_iff.mp (h.own u uh hu hulive)
      exact State.entry_eq_some_iff.mpr ⟨h0, h1, hother h2 hut⟩
  case creating =>
    intro u uh j o hu hc
    rcases update_some_cases hu with ⟨rfl, rfl⟩ | ⟨hut, hu⟩
    · cases hc
    · obtain ⟨h1, h2, old, h3, h4⟩ := h.creating u uh j o hu hc
      have hot : o ≠ t := by
        rintro rfl
        rw [hth] at h2
        cases h2
      exact ⟨hother h1 hot, (Function.update_of_ne hot _ _).trans h2, old, hobject h3 hot, h4⟩
  case forkedChild =>
    intro u uh j o hu hc
    rcases update_some_cases hu with ⟨rfl, rfl⟩ | ⟨hut, hu⟩
    · cases hc
    · obtain ⟨new, hn, hnid⟩ := h.forkedChild u uh j o hu hc
      by_cases hot : o = t
      · subst hot
        rw [hth] at hn
        cases hn
        exact ⟨_, Function.update_self .., hnid⟩
      · exact ⟨new, (Function.update_of_ne hot _ _).trans hn, hnid⟩
  case threadField =>
    intro o old u ho hu
    rcases update_some_cases ho with ⟨rfl, rfl⟩ | ⟨-, ho⟩
    · exact h.threadField o pcb u hheap hu
    · exact h.threadField o old u ho hu
  case threadPCB =>
    intro u uh hu hne
    rcases update_some_cases hu with ⟨rfl, rfl⟩ | ⟨hut, hu⟩
    · obtain ⟨pcb', hp, hpt⟩ := h.threadPCB u th hth hne
      rw [hheap] at hp
      cases hp
      exact ⟨_, Function.update_self .., hpt⟩
    · obtain ⟨pcb', hp, hpt⟩ := h.threadPCB u uh hu hne
      exact ⟨pcb', hobject hp hut, hpt⟩
  case main =>
    have h0t : (0 : ProcessNumber) ≠ t := (h.ne_zero_of_exiting hth (by rw [hpc]; rfl)).symm
    exact hother h.main h0t
  case exiting =>
    intro u uh hu he
    rcases update_some_cases hu with ⟨rfl, rfl⟩ | ⟨-, hu⟩
    · cases he
    · exact h.exiting u uh hu he

/-- A stray removal needs a thread without a PCB of its own. -/
theorem not_stray (h : TableInv s) (hth : s.thread t = some th) (hpc : th.pc = .exitRemove)
    (hstray : s.pcb th.processID.toNat = none ∨ ∃ self pcb,
      s.pcb th.processID.toNat = some self ∧ s.live self = some pcb ∧
      ∀ owner, pcb.thread.bind s.thread = some owner → owner.processID ≠ th.processID) : False := by
  obtain ⟨-, -, hslot⟩ := State.entry_eq_some_iff.mp (h.own t th hth (by simp [hpc]))
  rcases hstray with hnone | ⟨self, pcb, hself, hl, howner⟩
  · rw [hslot] at hnone
    cases hnone
  · rw [hslot] at hself
    cases hself
    obtain ⟨pcb', hp, hpt⟩ := h.threadPCB t th hth (h.ne_zero_of_exiting hth (by rw [hpc]; rfl))
    rw [(State.live_eq_some_iff.mp hl).1] at hp
    cases hp
    exact howner th (by rw [hpt]; exact hth) rfl

/-- The entry of a removed process is its own PCB. -/
theorem removed_self (h : TableInv s) {self : ProcessNumber} (hth : s.thread t = some th)
    (hpc : th.pc = .exitRemove) (he : s.pcb th.processID.toNat = some self) : self = t := by
  obtain ⟨-, -, hslot⟩ := State.entry_eq_some_iff.mp (h.own t th hth (by simp [hpc]))
  rw [hslot] at he
  exact (Option.some.inj he).symm

/-- Every move keeps the invariant. -/
theorem move (h : TableInv s) {input : Input} (hth : s.thread t = some th)
    (hm : TableMove s t th input s') : TableInv s' := by
  cases hm with
  | stop status _ => exact ⟨h.1, h.2, h.3, h.4, h.5, h.6, h.7, h.8, h.9, h.10, h.11⟩
  | quiet s' pc hq => exact h.quiet hth hq
  | allocate call index rest multex checks hpc hfree =>
    exact h.allocate hth (by simp [hpc]) hfree
  | fork call index child tail hpc pcb hl => exact h.fork hth hpc hl
  | remove hpc bm hbm self he pcb hl =>
    obtain rfl := h.removed_self hth hpc he
    exact h.remove hth hpc hbm hl
  | stray s' hpc hstray => exact (h.not_stray hth hpc hstray).elim

end TableInv

structure Initial (s : State) : Prop where
  bm : ∀ i < MAX_PROCESS, s.bm.mem i = decide (i = 0)
  pcb : s.pcb = Function.update (fun _ => none) 0 (some 0)
  heap : s.heap = Function.update (fun _ => none) 0 (some (PCB.new 0 0))
  thread : s.thread = Function.update (fun _ => none) 0 (some mainThread)
  next : s.next = 1
  trace : s.trace = []

theorem initial_spec (h : initial = some s) : Initial s := by
  unfold initial at h
  obtain ⟨bm, hbm, h⟩ := Option.bind_eq_some_iff.mp h
  obtain ⟨bm', hmark, h⟩ := Option.bind_eq_some_iff.mp h
  obtain ⟨bm₀, hnew, hclear⟩ := Bitmap.new_spec (n := MAX_PROCESS) (by decide)
  obtain rfl := Option.some.inj (hbm.symm.trans hnew)
  rw [show (0 : ℤ) = ((0 : ℕ) : ℤ) by rfl, Bitmap.mark_of_lt bm (by decide)] at hmark
  cases hmark
  cases h
  refine ⟨?_, rfl, rfl, rfl, rfl, rfl⟩
  intro i hi
  rw [Bitmap.mem_insert bm (by decide) hi, hclear i hi, Bool.or_false]
  exact decide_eq_decide.mpr eq_comm

theorem Initial.tableInv (h : Initial s) : TableInv s := by
  have hpcb {i : ℕ} {o : ProcessNumber} (hi : s.pcb i = some o) : i = 0 ∧ o = 0 := by
    rw [h.pcb] at hi
    rcases update_some_cases hi with hi | ⟨-, hi⟩
    · exact hi
    · cases hi
  have hthread {t : ThreadId} {th : Thread} (ht : s.thread t = some th) :
      t = 0 ∧ th = mainThread := by
    rw [h.thread] at ht
    rcases update_some_cases ht with ht | ⟨-, ht⟩
    · exact ht
    · cases ht
  have hheap : s.heap 0 = some (PCB.new 0 0) := by
    rw [h.heap, Function.update_self]
  constructor
  case bits =>
    intro i hi
    rw [h.bm i hi, h.pcb]
    by_cases hi0 : i = 0
    · subst hi0
      rfl
    · rw [Function.update_of_ne hi0]
      simp [hi0]
  case range =>
    intro i o hi
    obtain ⟨rfl, -⟩ := hpcb hi
    decide
  case object =>
    intro i o hi
    obtain ⟨rfl, rfl⟩ := hpcb hi
    exact ⟨_, hheap, rfl, rfl⟩
  case fresh =>
    intro o ho
    have ho' : o ≠ 0 := by
      rw [h.next] at ho
      omega
    rw [h.heap, h.thread]
    exact ⟨Function.update_of_ne ho' _ _, Function.update_of_ne ho' _ _⟩
  case own =>
    intro t th hth _
    obtain ⟨rfl, rfl⟩ := hthread hth
    exact State.entry_eq_some_iff.mpr ⟨le_rfl, by decide, by rw [h.pcb]; rfl⟩
  case creating =>
    intro t th i o hth hc
    obtain ⟨rfl, rfl⟩ := hthread hth
    cases hc
  case forkedChild =>
    intro t th i o hth hc
    obtain ⟨rfl, rfl⟩ := hthread hth
    cases hc
  case threadField =>
    intro o pcb u ho hu
    rw [h.heap] at ho
    rcases update_some_cases ho with ⟨rfl, rfl⟩ | ⟨-, ho⟩
    · cases hu
    · cases ho
  case threadPCB =>
    intro t th hth hne
    obtain ⟨rfl, -⟩ := hthread hth
    exact absurd rfl hne
  case main =>
    rw [h.pcb]
    rfl
  case exiting =>
    intro t th hth he
    obtain ⟨rfl, rfl⟩ := hthread hth
    cases he

theorem tableInv_step {l : Label} (h : TableInv s) (hs : step s l = some s') : TableInv s' := by
  obtain ⟨th, -, hth, hm⟩ := step_move hs
  exact h.move hth hm.table

theorem tableInv_reach {allow : State → Label → Prop} {s₀ : State} (h₀ : initial = some s₀)
    (h : Runs.Reach step allow s₀ s) : TableInv s :=
  h.invariant (initial_spec h₀).tableInv fun _ _ _ hi _ hs => tableInv_step hi hs

end

end Nachos.PTable

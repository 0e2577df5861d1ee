import Nachos.Threads.PTableInvariants

/-! Parent links. `Remove` does not ask whether a PCB of the table still names the removed
slot as its parent; as long as no process with children in the table is removed, every
`parentID` leads to the PCB of the creator. -/
namespace Nachos.PTable

/-- Only a process without children in the table is about to be removed. -/
def RemovesChildless (s : State) (l : Label) : Prop :=
  ∀ th ∈ s.thread l.thread, th.pc = .exitRemove →
    ∀ i < MAX_PROCESS, ∀ o ∈ s.pcb i, ∀ pcb ∈ s.heap o, pcb.parentID ≠ th.processID

instance (s : State) (l : Label) : Decidable (RemovesChildless s l) :=
  inferInstanceAs (Decidable (∀ th ∈ s.thread l.thread, _))

/-- Every PCB other than that of slot 0 names the slot of its creator, so that neither
`ExitUpdate` nor `JoinUpdate` finds a `NULL` entry. -/
structure ParentLinks (s : State) : Prop where
  creator : ∀ i o, i ≠ 0 → s.pcb i = some o → ∃ pcb parent, s.live o = some pcb ∧
    s.livePCB pcb.parentID = some parent ∧
    ∀ u index, .slotTaken u index o ∈ s.trace ↔ u = parent ∧ index = i
  exitUpdate : ∀ t th exitCode, s.status = .running → s.thread t = some th →
    th.pc ≠ .finished → (s.exitUpdate t th exitCode).status ≠ .crashed
  joinUpdate : ∀ t th pid, s.status = .running → s.thread t = some th →
    th.pc ≠ .finished → (s.joinUpdate t th pid).status ≠ .crashed

structure LinkInv (s : State) : Prop where
  main : ∀ pcb, s.heap 0 = some pcb → pcb.parentID = -1
  taken : ∀ u index o, .slotTaken u index o ∈ s.trace → u < o ∧ o < s.next
  creator : ∀ i o, i ≠ 0 → s.pcb i = some o → ∃ pcb parent, s.heap o = some pcb ∧
    s.entry pcb.parentID = some parent ∧
    ∀ u index, .slotTaken u index o ∈ s.trace ↔ u = parent ∧ index = i

section

variable {s s' : State} {t : ThreadId} {th : Thread}

theorem TableInv.live_of_entry (h : TableInv s) {i : ℤ} {o : ProcessNumber}
    (he : s.entry i = some o) : ∃ pcb, s.live o = some pcb ∧ pcb.processID = i := by
  obtain ⟨h0, -, hslot⟩ := State.entry_eq_some_iff.mp he
  obtain ⟨pcb, hp, hid, hd⟩ := h.object _ o hslot
  exact ⟨pcb, State.live_eq_some_iff.mpr ⟨hp, hd⟩, by omega⟩

theorem TableInv.livePCB_eq (h : TableInv s) (i : ℤ) : s.livePCB i = s.entry i := by
  cases he : s.entry i with
  | none => simp [State.livePCB, he]
  | some o =>
    obtain ⟨pcb, hl, -⟩ := h.live_of_entry he
    exact State.livePCB_eq_some_iff.mpr ⟨he, pcb, hl⟩

/-- A turn in `P` on a live PCB does not end the run. -/
theorem acquire_status {s : State} {o : ProcessNumber} {pcb : PCB} {name : SemName}
    {done retry : Pc} (hl : s.live o = some pcb) :
    (s.acquire t th o name done retry).status = s.status := by
  unfold State.acquire
  rw [hl]
  rfl

/-- Writing a live PCB leaves the live PCBs alive. -/
theorem live_setPCB {o u : ProcessNumber} {pcb q upcb : PCB} (hl : s.live o = some pcb)
    (hd : q.deleted = pcb.deleted) (hu : s.live u = some upcb) :
    ∃ new, (s.setPCB o q).live u = some new := by
  by_cases huo : u = o
  · subst huo
    refine ⟨q, State.live_eq_some_iff.mpr ⟨Function.update_self .., ?_⟩⟩
    exact hd.trans (State.live_eq_some_iff.mp hl).2
  · refine ⟨upcb, State.live_eq_some_iff.mpr ?_⟩
    rw [State.setPCB_heap, Function.update_of_ne huo]
    exact State.live_eq_some_iff.mp hu

/-- A thread that has waited for its parent does remove its entry. -/
theorem TableInv.remove_effect (h : TableInv s) {l : Label} (hth : s.thread l.thread = some th)
    (hpc : th.pc = .exitRemove) (hs : step s l = some s') :
    s'.pcb = Function.update s.pcb th.processID.toNat none ∧
      ∀ o, o ≠ l.thread → s'.heap o = s.heap o := by
  obtain ⟨th', hrun, -⟩ := step_move hs
  have hr : s.remove l.thread th = some s' := by
    unfold step at hs
    rw [if_pos hrun, hth, Option.bind_eq_bind, Option.bind_some, hpc] at hs
    cases hin : l.input <;> rw [hin] at hs <;> first | exact hs | cases hs
  have hexit : th.pc.exiting = true := by rw [hpc]; rfl
  obtain ⟨own, -, hown, hslot⟩ := h.own_entry hth (by simp [hpc])
  obtain ⟨pcb, hl, -⟩ := h.live_of_entry (h.own l.thread th hth (by simp [hpc]))
  obtain ⟨pcb', hp, hthread⟩ := h.threadPCB l.thread th hth (h.ne_zero_of_exiting hth hexit)
  obtain rfl := Option.some.inj ((State.live_eq_some_iff.mp hl).1.symm.trans hp)
  obtain ⟨bm, -, hr⟩ := Option.bind_eq_some_iff.mp hr
  rw [show th.processID.toNat = own by omega, hslot] at hr
  dsimp only at hr
  rw [hl] at hr
  dsimp only at hr
  rw [hthread, Option.bind_some, hth] at hr
  simp only [ne_eq, not_true_eq_false, if_false] at hr
  cases hr
  refine ⟨by rw [show th.processID.toNat = own by omega]; rfl, ?_⟩
  intro o ho
  exact Function.update_of_ne ho _ _

namespace LinkInv

theorem exitUpdate (h : LinkInv s) (ht : TableInv s) (exitCode : ℤ) (hrun : s.status = .running)
    (hth : s.thread t = some th) (hlive : th.pc ≠ .finished) :
    (s.exitUpdate t th exitCode).status ≠ .crashed := by
  have hown := ht.own t th hth hlive
  obtain ⟨pcb, hl, -⟩ := ht.live_of_entry hown
  unfold State.exitUpdate
  rw [hown]
  dsimp only
  split
  · simp
  next hid =>
  obtain ⟨i, -, hi, hslot⟩ := ht.own_entry hth hlive
  obtain ⟨pcb', parent, hp, hparent, -⟩ := h.creator i t (by omega) hslot
  obtain rfl : pcb = pcb' := by
    rw [(State.live_eq_some_iff.mp hl).1] at hp
    exact Option.some.inj hp
  obtain ⟨ppcb, hpl, -⟩ := ht.live_of_entry hparent
  obtain ⟨new, hnew⟩ := live_setPCB (q := { pcb with exitcode := exitCode }) hl rfl hpl
  rw [hl]
  dsimp only
  rw [ht.livePCB_eq, hparent]
  dsimp only
  rw [acquire_status (s := (s.setPCB t _).log _) hnew, State.log_status, State.setPCB_status, hrun]
  simp

theorem joinUpdate (ht : TableInv s) (pid : ℤ) (hrun : s.status = .running)
    (hth : s.thread t = some th) (hlive : th.pc ≠ .finished) :
    (s.joinUpdate t th pid).status ≠ .crashed := by
  have hown := ht.own t th hth hlive
  unfold State.joinUpdate
  split
  · rw [State.setPc_status, State.log_status, hrun]
    simp
  next child he =>
  obtain ⟨pcb, hl, -⟩ := ht.live_of_entry he
  rw [hl]
  dsimp only
  split
  · rw [State.setPc_status, State.log_status, hrun]
    simp
  next hparent =>
  rw [not_not] at hparent
  obtain ⟨ppcb, hpl, -⟩ := ht.live_of_entry hown
  rw [ht.livePCB_eq, hparent, hown]
  dsimp only
  rw [acquire_status (s := s.log _) hpl, State.log_status, hrun]
  simp

theorem parentLinks (h : LinkInv s) (ht : TableInv s) : ParentLinks s := by
  constructor
  · intro i o hi ho
    obtain ⟨pcb, parent, hp, hparent, htaken⟩ := h.creator i o hi ho
    obtain ⟨pcb', hp', -, hd⟩ := ht.object i o ho
    rw [hp] at hp'
    cases hp'
    exact ⟨pcb, parent, State.live_eq_some_iff.mpr ⟨hp, hd⟩, by rw [ht.livePCB_eq, hparent], htaken⟩
  · intro t th exitCode hrun hth hlive
    exact h.exitUpdate ht exitCode hrun hth hlive
  · intro t th pid hrun hth hlive
    exact joinUpdate ht pid hrun hth hlive

theorem quiet (h : LinkInv s) {input : Input} {pc : Pc} (hq : Quiet s s' t th input pc) :
    LinkInv s' := by
  obtain ⟨es, htrace, hnone⟩ := hq.trace
  have hmem (u : ThreadId) (index : ℕ) (o : ProcessNumber) :
      .slotTaken u index o ∈ s'.trace ↔ .slotTaken u index o ∈ s.trace := by
    rw [htrace, List.mem_append, or_iff_right (hnone u index o)]
  constructor
  · intro pcb hp
    obtain ⟨old, hold, hid⟩ := exists_of_map (hq.heap 0).symm hp
    simp only [PCB.identity, Prod.mk.injEq] at hid
    exact hid.2.1.symm.trans (h.main old hold)
  · intro u index o ho
    rw [hq.next]
    exact h.taken u index o ((hmem u index o).mp ho)
  · intro i o hi ho
    rw [hq.pcb] at ho
    obtain ⟨pcb, parent, hp, hparent, htaken⟩ := h.creator i o hi ho
    obtain ⟨pcb', hp', hid⟩ := exists_of_map (hq.heap o) hp
    simp only [PCB.identity, Prod.mk.injEq] at hid
    refine ⟨pcb', parent, hp', ?_, fun u index => (hmem u index o).trans (htaken u index)⟩
    rw [entry_congr hq.pcb, hid.2.1, hparent]

theorem allocate (h : LinkInv s) (ht : TableInv s) {index : ℕ} {rest : List ℕ}
    {multex : Semaphore} {call : ExecCall} {checks : Checks} (hth : s.thread t = some th)
    (hlive : th.pc ≠ .finished) (hfree : s.bm.clearList = index :: rest) :
    LinkInv ({ s with
      bm := s.bm.insert index
      pcb := Function.update s.pcb index (some s.next)
      next := s.next + 1
      heap := Function.update s.heap s.next (some { PCB.new index th.processID with multex })
      trace := .slotTaken t index s.next :: .execChecked t checks :: s.trace }.setPc t th
        (.execFork call index s.next)) := by
  obtain ⟨hlt, hempty, hindex⟩ := ht.free_slot hfree
  have hentry {i : ℤ} {o : ProcessNumber} (hi : s.entry i = some o) :
      0 ≤ i ∧ i < MAX_PROCESS ∧ Function.update s.pcb index (some s.next) i.toNat = some o := by
    obtain ⟨h0, h1, h2⟩ := State.entry_eq_some_iff.mp hi
    refine ⟨h0, h1, ?_⟩
    rw [Function.update_of_ne]
    · exact h2
    · intro heq
      rw [heq, hempty] at h2
      cases h2
  have hmem (u : ThreadId) (j : ℕ) (o : ProcessNumber) :
      .slotTaken u j o ∈ Event.slotTaken t index s.next :: .execChecked t checks :: s.trace ↔
        (u = t ∧ j = index ∧ o = s.next) ∨ .slotTaken u j o ∈ s.trace := by
    simp
  constructor
  · intro pcb hp
    rcases update_some_cases hp with ⟨hzero, -⟩ | ⟨-, hp⟩
    · exact absurd (hzero ▸ ht.thread_lt hth) (Nat.not_lt_zero _)
    · exact h.main pcb hp
  · intro u j o ho
    show u < o ∧ o < s.next + 1
    rcases (hmem u j o).mp ho with ⟨rfl, rfl, rfl⟩ | ho
    · exact ⟨ht.thread_lt hth, Nat.lt_succ_self _⟩
    · obtain ⟨h1, h2⟩ := h.taken u j o ho
      exact ⟨h1, by omega⟩
  · intro i o hi ho
    simp only [State.setPc_heap, State.setPc_trace, State.entry_eq_some_iff, State.setPc_pcb]
    rcases update_some_cases ho with ⟨rfl, rfl⟩ | ⟨-, ho⟩
    · refine ⟨_, t, Function.update_self .., ?_, ?_⟩
      · simp only [PCB.new, if_neg hindex]
        exact hentry (ht.own t th hth hlive)
      · intro u j
        rw [hmem]
        constructor
        · rintro (⟨h1, h2, -⟩ | hold)
          · exact ⟨h1, h2⟩
          · exact absurd (h.taken u j s.next hold).2 (lt_irrefl _)
        · rintro ⟨h1, h2⟩
          exact .inl ⟨h1, h2, rfl⟩
    · obtain ⟨pcb, parent, hp, hparent, htaken⟩ := h.creator i o hi ho
      have hne : o ≠ s.next := (ht.heap_lt hp).ne
      refine ⟨pcb, parent, (Function.update_of_ne hne _ _).trans hp, hentry hparent, ?_⟩
      intro u j
      rw [hmem, or_iff_right fun hnew => hne hnew.2.2]
      exact htaken u j

theorem fork (h : LinkInv s) (ht : TableInv s) {call : ExecCall} {index : ℕ}
    {child : ProcessNumber} {tail : CString} {pcb : PCB} (hth : s.thread t = some th)
    (hpc : th.pc = .execFork call index child) (hl : s.live child = some pcb) :
    LinkInv ({ s with
      heap := Function.update s.heap child
        (some { pcb with thread := some child, parentID := th.processID })
      thread := Function.update s.thread child (some (State.newThread call index tail))
      trace := .forked t child :: s.trace }.setPc t th (.execUnlock call index child)) := by
  obtain ⟨-, -, pcb', hp', hparentID⟩ := ht.creating t th index child hth (by rw [hpc]; rfl)
  rw [(State.live_eq_some_iff.mp hl).1] at hp'
  cases hp'
  have hmem (u : ThreadId) (j : ℕ) (o : ProcessNumber) :
      .slotTaken u j o ∈ Event.forked t child :: s.trace ↔ .slotTaken u j o ∈ s.trace := by
    simp
  obtain ⟨own, -, hown, -⟩ := ht.own_entry hth (by simp [hpc])
  constructor
  · intro new hp
    rcases update_some_cases hp with ⟨rfl, -⟩ | ⟨-, hp⟩
    · have := h.main pcb (State.live_eq_some_iff.mp hl).1
      omega
    · exact h.main new hp
  · intro u j o ho
    exact h.taken u j o ((hmem u j o).mp ho)
  · intro i o hi ho
    obtain ⟨old, parent, hp, hparent, htaken⟩ := h.creator i o hi ho
    by_cases hoc : o = child
    · subst hoc
      rw [(State.live_eq_some_iff.mp hl).1] at hp
      cases hp
      refine ⟨_, parent, Function.update_self .., ?_, fun u j => (hmem u j o).trans (htaken u j)⟩
      rw [← hparent, hparentID]
      rfl
    · exact ⟨old, parent, (Function.update_of_ne hoc _ _).trans hp, hparent,
        fun u j => (hmem u j o).trans (htaken u j)⟩

/-- The step that needs the condition. -/
theorem remove (h : LinkInv s) (ht : TableInv s) {bm : Bitmap MAX_PROCESS} {pcb : PCB}
    (hth : s.thread t = some th) (hpc : th.pc = .exitRemove)
    (hchildless : ∀ i o child, s.pcb i = some o → s.heap o = some child →
      child.parentID ≠ th.processID) :
    LinkInv ({ s with
      bm
      pcb := Function.update s.pcb th.processID.toNat none
      heap := Function.update s.heap t (some { pcb with deleted := true })
      trace := .threadFinished t :: .removed t th.processID.toNat t :: s.trace }.setPc t th
        .finished) := by
  have hmem (u : ThreadId) (j : ℕ) (o : ProcessNumber) :
      .slotTaken u j o ∈ Event.threadFinished t :: .removed t th.processID.toNat t :: s.trace ↔
        .slotTaken u j o ∈ s.trace := by
    simp
  obtain ⟨own, -, hown, hslot⟩ := ht.own_entry hth (by simp [hpc])
  constructor
  · intro new hp
    rcases update_some_cases hp with ⟨h0, -⟩ | ⟨-, hp⟩
    · exact absurd h0.symm (ht.ne_zero_of_exiting hth (by rw [hpc]; rfl))
    · exact h.main new hp
  · intro u j o ho
    exact h.taken u j o ((hmem u j o).mp ho)
  · intro i o hi ho
    have hio := update_none_cases ho
    obtain ⟨old, parent, hp, hparent, htaken⟩ := h.creator i o hi hio.2
    have hot : o ≠ t := by
      rintro rfl
      exact hio.1 (by rw [ht.slot_unique hio.2 hslot]; omega)
    refine ⟨old, parent, (Function.update_of_ne hot _ _).trans hp, ?_,
      fun u j => (hmem u j o).trans (htaken u j)⟩
    obtain ⟨h0, h1, h2⟩ := State.entry_eq_some_iff.mp hparent
    have hne : old.parentID.toNat ≠ th.processID.toNat := by
      intro heq
      exact hchildless i o old hio.2 hp (by omega)
    exact State.entry_eq_some_iff.mpr ⟨h0, h1, (Function.update_of_ne hne _ _).trans h2⟩

/-- An allowed move keeps the links. -/
theorem move (h : LinkInv s) (ht : TableInv s) {l : Label} (hth : s.thread l.thread = some th)
    (hallow : RemovesChildless s l) (hm : TableMove s l.thread th l.input s') : LinkInv s' := by
  cases hm with
  | stop status _ => exact ⟨h.main, h.taken, h.creator⟩
  | quiet s' pc hq => exact h.quiet hq
  | allocate call index rest multex checks hpc hfree =>
    exact h.allocate ht hth (by simp [hpc]) hfree
  | fork call index child tail hpc pcb hl => exact h.fork ht hth hpc hl
  | remove hpc bm hbm self he pcb hl =>
    obtain rfl := ht.removed_self hth hpc he
    refine h.remove ht hth hpc fun i o child hi ho => ?_
    exact hallow th hth hpc i (ht.range i o hi) o hi child ho
  | stray s' hpc hstray => exact (ht.not_stray hth hpc hstray).elim

theorem ne_self (h : LinkInv s) (ht : TableInv s) (hth : s.thread t = some th)
    (hlive : th.pc ≠ .finished) {i : ℕ} {o : ProcessNumber} {pcb : PCB} (hi : s.pcb i = some o)
    (ho : s.heap o = some pcb) (hparent : pcb.parentID = th.processID) : i ≠ 0 ∧ o ≠ t := by
  obtain ⟨own, -, hown, -⟩ := ht.own_entry hth hlive
  have hi0 : i ≠ 0 := by
    rintro rfl
    obtain rfl := Option.some.inj (hi.symm.trans ht.main)
    have := h.main pcb ho
    omega
  refine ⟨hi0, ?_⟩
  rintro rfl
  -- the creator of a process came before it
  obtain ⟨pcb', parent, hp, hentry, htaken⟩ := h.creator i o hi0 hi
  obtain rfl := Option.some.inj (ho.symm.trans hp)
  rw [hparent, ht.own o th hth hlive] at hentry
  cases hentry
  exact lt_irrefl _ (h.taken o i o ((htaken o i).mpr ⟨rfl, rfl⟩)).1

/-- The removal of a process with a child in the table breaks the child's link. -/
theorem not_parentLinks (h : LinkInv s) (ht : TableInv s) {l : Label}
    (hs : step s l = some s') (hallow : ¬ RemovesChildless s l) : ¬ ParentLinks s' := by
  unfold RemovesChildless at hallow
  push Not at hallow
  obtain ⟨th, hth, hpc, i, -, o, hi, pcb, ho, hparent⟩ := hallow
  have hlive : th.pc ≠ .finished := by simp [hpc]
  obtain ⟨hi0, hot⟩ := h.ne_self ht hth hlive hi ho hparent
  obtain ⟨own, -, hown, hslot⟩ := ht.own_entry hth hlive
  obtain ⟨hpcb, hheap⟩ := ht.remove_effect hth hpc hs
  have hne : i ≠ th.processID.toNat := by
    rintro rfl
    rw [show th.processID.toNat = own by omega, hslot] at hi
    exact hot (Option.some.inj hi).symm
  intro hlinks
  obtain ⟨pcb', parent, hl, hentry, -⟩ := hlinks.creator i o hi0
    (by rw [hpcb, Function.update_of_ne hne]; exact hi)
  obtain rfl : pcb = pcb' := by
    have := (State.live_eq_some_iff.mp hl).1
    rw [hheap o hot, ho] at this
    exact Option.some.inj this
  obtain ⟨-, -, hnone⟩ := State.entry_eq_some_iff.mp (State.livePCB_eq_some_iff.mp hentry).1
  rw [hpcb, hparent, Function.update_self] at hnone
  cases hnone

end LinkInv

theorem Initial.linkInv (h : Initial s) : LinkInv s := by
  constructor
  · intro pcb hp
    rw [h.heap] at hp
    cases hp
    rfl
  · intro u index o ho
    rw [h.trace] at ho
    cases ho
  · intro i o hi ho
    rw [h.pcb, Function.update_of_ne hi] at ho
    cases ho

theorem linkInv_reach {s₀ : State} (h₀ : initial = some s₀)
    (h : Runs.Reach step RemovesChildless s₀ s) : TableInv s ∧ LinkInv s := by
  refine h.invariant (P := fun s => TableInv s ∧ LinkInv s)
    ⟨(initial_spec h₀).tableInv, (initial_spec h₀).linkInv⟩ ?_
  intro s l s' hi hallow hs
  obtain ⟨th, -, hth, hm⟩ := step_move hs
  exact ⟨hi.1.move hth hm.table, hi.2.move hi.1 hth hallow hm.table⟩

/-- As long as only processes without children are removed, the links are valid, and the
next step keeps them so exactly if it is no other removal either. -/
theorem parent_links_iff {s₀ : State} (h₀ : initial = some s₀)
    (h : Runs.Reach step RemovesChildless s₀ s) :
    ParentLinks s ∧ ∀ l s', step s l = some s' → (ParentLinks s' ↔ RemovesChildless s l) := by
  obtain ⟨ht, hi⟩ := linkInv_reach h₀ h
  refine ⟨hi.parentLinks ht, ?_⟩
  intro l s' hs
  constructor
  · intro hlinks
    by_contra hallow
    exact hi.not_parentLinks ht hs hallow hlinks
  · intro hallow
    obtain ⟨ht', hi'⟩ := linkInv_reach h₀ (h.tail hallow hs)
    exact hi'.parentLinks ht'

end

/-- The main thread starts "a" and "b"; "a" exits with 5, is joined and removed. -/
def joinOnce : List Label :=
  execSteps 0 .update nameA ++ execSteps 0 .update nameB ++
    [⟨1, .start sampleEnv⟩, ⟨1, .exit 5⟩] ++ goSteps 1 3 ++ [⟨0, .join 1⟩] ++ goSteps 0 4 ++
    goSteps 1 2

theorem parent_links_joinOnce : ∃ s₀ s, initial = some s₀ ∧
    Runs.Reach step RemovesChildless s₀ s ∧ .removed 1 1 1 ∈ s.trace ∧ s.pcb 2 = some 2 ∧
    ParentLinks s := by
  have hrun : (initial.bind fun s₀ => (Runs.execIf step RemovesChildless s₀ joinOnce).map fun s =>
      decide (.removed 1 1 1 ∈ s.trace ∧ s.pcb 2 = some 2)) = some true := by
    decide +kernel
  obtain ⟨s₀, h₀, hrun⟩ := Option.bind_eq_some_iff.mp hrun
  obtain ⟨s, hs, hd⟩ := Option.map_eq_some_iff.mp hrun
  obtain ⟨hremoved, hslot⟩ := of_decide_eq_true hd
  have hr := Runs.reach_of_execIf hs
  exact ⟨s₀, s, h₀, hr, hremoved, hslot, (parent_links_iff h₀ hr).1⟩

/-- Process 1 starts process 2, exits and is joined by the main thread. -/
def orphanRun : List Label :=
  execSteps 0 .update nameA ++ [⟨1, .start sampleEnv⟩] ++ execSteps 1 .update nameB ++
    [⟨2, .start sampleEnv⟩, ⟨1, .exit 5⟩] ++ goSteps 1 3 ++ [⟨0, .join 1⟩] ++ goSteps 0 4 ++
    goSteps 1 2

/-- Process 2 is left with a parent slot that is empty, and its exit dereferences it. -/
theorem orphanRun_dangles : ∃ s₀ s s', initial = some s₀ ∧
    Runs.Reach step (fun _ _ => True) s₀ s ∧ ¬ ParentLinks s ∧
    step s ⟨2, .exit 0⟩ = some s' ∧ s'.status = .crashed := by
  have hrun : (initial.bind fun s₀ => (Runs.exec step s₀ orphanRun).bind fun s =>
      (step s ⟨2, .exit 0⟩).map fun s' => decide (s.pcb 2 = some 2 ∧
        ((s.live 2).bind fun pcb => s.livePCB pcb.parentID) = none ∧ s'.status = .crashed)) =
      some true := by
    decide +kernel
  obtain ⟨s₀, h₀, hrun⟩ := Option.bind_eq_some_iff.mp hrun
  obtain ⟨s, hs, hrun⟩ := Option.bind_eq_some_iff.mp hrun
  obtain ⟨s', hs', hd⟩ := Option.map_eq_some_iff.mp hrun
  obtain ⟨hslot, hnone, hcrash⟩ := of_decide_eq_true hd
  refine ⟨s₀, s, s', h₀, Runs.reach_of_exec hs, ?_, hs', hcrash⟩
  intro hlinks
  obtain ⟨pcb, parent, hl, hparent, -⟩ := hlinks.creator 2 2 (by decide) hslot
  rw [hl, Option.bind_some, hparent] at hnone
  cases hnone

end Nachos.PTable

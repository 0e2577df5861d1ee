import Nachos.Threads.Handshake

/-! What `JoinUpdate` returns. The two semaphores of a PCB let through one join for one exit:
`JoinRelease` pays for one `JoinWait`, `ExitRelease` for one `ExitWait`. The entry test of
`JoinUpdate` does not see whether the child has been joined before, so a second join can
pass it while the child is on its way to `Remove`. -/
namespace Nachos.PTable

def Input.joined : Input → Option ℤ
  | .join pid => some pid
  | _ => none

/-- A join that is about to pass its checks finds a child that no join has released yet. -/
def JoinsUnreleased (s : State) (l : Label) : Prop :=
  ∀ th ∈ s.thread l.thread, th.pc = .user → ∀ pid ∈ l.input.joined, ∀ child ∈ s.entry pid,
    ∀ pcb ∈ s.heap child, pcb.parentID = th.processID →
      pcb.exitsem.value = 0 ∧ ∀ ch ∈ s.thread child, ch.pc ≠ .exitRemove

instance (s : State) (l : Label) : Decidable (JoinsUnreleased s l) :=
  inferInstanceAs (Decidable (∀ th ∈ s.thread l.thread, _))

/-- How a join that returns `value` went, given the trace before its return. Either it was
refused, or the child it found in the slot had called `ExitUpdate` with this value, and only
with it, and was not removed when the code was read. -/
inductive JoinOutcome (t : ThreadId) (es : List Event) (value : ℤ) : Prop
  | refused (pid : ℤ) (h : ownSince Event.isJoinCall t es = [.joinRefused t pid])
      (hvalue : value = -1)
  | read (pid : ℤ) (child : ProcessNumber) (later earlier : List Event)
      (h : ownSince Event.isJoinCall t es = [.codeRead t value, .joinPassed t pid child])
      (hes : es = later ++ .codeRead t value :: earlier)
      (hcode : ∀ code, .exitCalled child code ∈ earlier ↔ code = value)
      (hthere : ∀ u i, .removed u i child ∉ earlier)

def State.stage (s : State) (o : ProcessNumber) : Stage :=
  ((s.thread o).map fun th => th.pc.stage).getD .before

/-- A join of slot `i` has passed `JoinWait` and not yet read the code. -/
def State.Read (s : State) (i : ℕ) : Prop :=
  ∃ u uh, s.thread u = some uh ∧ uh.pc.reading = some (i : ℤ)

/-- A join of slot `i` has not passed `JoinWait`. -/
def State.Awaited (s : State) (i : ℕ) : Prop :=
  ∃ u uh, s.thread u = some uh ∧ uh.pc.awaiting = some (i : ℤ)

/-- The counters of the two semaphores in the course of a handshake. -/
def Stage.Meets (joinsem exitsem : ℕ) (read awaited : Prop) : Stage → Prop
  | .before | .announced => joinsem = 0 ∧ exitsem = 0 ∧ ¬ read
  | .released => (joinsem = 1 ∧ exitsem = 0 ∧ ¬ read) ∨ (joinsem = 0 ∧ exitsem = 0 ∧ read) ∨
    (joinsem = 0 ∧ exitsem = 1 ∧ ¬ read ∧ ¬ awaited)
  | .removing => joinsem = 0 ∧ exitsem = 0 ∧ ¬ read ∧ ¬ awaited

/-- A join under way knows the occupant of its slot, which it found there and whose parent
it is. -/
def Joins (s : State) (u : ThreadId) (uh : Thread) (pid : ℤ) (trace : List Event) : Prop :=
  ∃ o pcb, s.entry pid = some o ∧ s.heap o = some pcb ∧ pcb.parentID = uh.processID ∧
    ownSince Event.isJoinCall u trace = [.joinPassed u pid o]

structure JoinInv (s : State) : Prop where
  joiner : ∀ u uh pid, s.thread u = some uh → uh.pc.joining = some pid → Joins s u uh pid s.trace
  child : ∀ u uh pid child, s.thread u = some uh → uh.pc = .joinWait pid child →
    s.entry pid = some child
  self : ∀ u uh self, s.thread u = some uh → uh.pc = .exitWait self → self = u
  slot : ∀ i o pcb, s.pcb i = some o → s.heap o = some pcb →
    (s.stage o).Meets pcb.joinsem.value pcb.exitsem.value (s.Read i) (s.Awaited i)
  outcome : ∀ u uh value, s.thread u = some uh → uh.pc = .joinReturn value →
    JoinOutcome u s.trace value
  returned : ∀ u value es, .joinReturned u value :: es <:+ s.trace → JoinOutcome u es value

section

variable {s s' : State} {t : ThreadId} {th : Thread} {input : Input}

/-- Events of other threads do not change the outcome. -/
theorem JoinOutcome.append {es new : List Event} {value : ℤ} (h : JoinOutcome t es value)
    (hnew : ∀ e ∈ new, e.actor ≠ t) : JoinOutcome t (new ++ es) value := by
  cases h with
  | refused pid h hvalue => exact .refused pid ((ownSince_append_of_other hnew).trans h) hvalue
  | read pid child later earlier h hes hcode hthere =>
    refine .read pid child (new ++ later) earlier ((ownSince_append_of_other hnew).trans h) ?_
      hcode hthere
    rw [hes, List.append_assoc]

namespace Stage.Meets

variable {st : Stage} {joinsem exitsem : ℕ} {read awaited : Prop}

/-- One more waiter, before the child has been released. -/
theorem await (h : st.Meets joinsem exitsem read awaited) (hexit : exitsem = 0)
    (hst : st ≠ .removing) (awaited' : Prop) : st.Meets joinsem exitsem read awaited' := by
  cases st with
  | before => exact h
  | announced => exact h
  | released =>
    rcases h with h | h | ⟨-, hone, -⟩
    · exact .inl h
    · exact .inr (.inl h)
    · omega
  | removing => exact absurd rfl hst

/-- `JoinWait` passes only after `JoinRelease`. -/
theorem enter_join (h : st.Meets joinsem exitsem read awaited) (hjoin : joinsem ≠ 0) :
    st = .released ∧ joinsem = 1 ∧ exitsem = 0 := by
  cases st with
  | before => exact absurd h.1 hjoin
  | announced => exact absurd h.1 hjoin
  | released =>
    rcases h with ⟨h1, h2, -⟩ | ⟨h1, -⟩ | ⟨h1, -⟩
    · exact ⟨rfl, h1, h2⟩
    · exact absurd h1 hjoin
    · exact absurd h1 hjoin
  | removing => exact absurd h.1 hjoin

theorem reading (h : st.Meets joinsem exitsem read awaited) (hread : read) :
    st = .released ∧ joinsem = 0 ∧ exitsem = 0 := by
  cases st with
  | before => exact absurd hread h.2.2
  | announced => exact absurd hread h.2.2
  | released =>
    rcases h with ⟨-, -, h⟩ | ⟨h1, h2, -⟩ | ⟨-, -, h, -⟩
    · exact absurd hread h
    · exact ⟨rfl, h1, h2⟩
    · exact absurd hread h
  | removing => exact absurd hread h.2.2.1

/-- `ExitWait` passes only after `ExitRelease`. -/
theorem enter_exit (h : Stage.released.Meets joinsem exitsem read awaited) (hexit : exitsem ≠ 0) :
    joinsem = 0 ∧ exitsem = 1 ∧ ¬ read ∧ ¬ awaited := by
  rcases h with ⟨-, h, -⟩ | ⟨-, h, -⟩ | h
  · exact absurd h hexit
  · exact absurd h hexit
  · exact h

theorem congr {read' awaited' : Prop} (h : st.Meets joinsem exitsem read awaited)
    (hread : read' ↔ read) (hawaited : awaited' ↔ awaited) :
    st.Meets joinsem exitsem read' awaited' := by
  rwa [propext hread, propext hawaited]

end Stage.Meets

theorem stage_of_thread (hth : s.thread t = some th) : s.stage t = th.pc.stage := by
  simp [State.stage, hth]

/-- Some thread is at a place of the given kind, after a step of one thread. -/
theorem exists_thread_iff {P : Pc → Prop} {f : ThreadId → Option Thread} {pc : Pc}
    (hth : f t = some th) (hP : P pc ↔ P th.pc) :
    (∃ u uh, Function.update f t (some { th with pc }) u = some uh ∧ P uh.pc) ↔
      ∃ u uh, f u = some uh ∧ P uh.pc := by
  constructor
  · rintro ⟨u, uh, hu, hp⟩
    rcases update_some_cases hu with ⟨rfl, rfl⟩ | ⟨-, hu⟩
    · exact ⟨u, th, hth, hP.mp hp⟩
    · exact ⟨u, uh, hu, hp⟩
  · rintro ⟨u, uh, hu, hp⟩
    by_cases hut : u = t
    · subst hut
      rw [hth] at hu
      cases hu
      exact ⟨u, _, Function.update_self .., hP.mpr hp⟩
    · exact ⟨u, uh, by rw [Function.update_of_ne hut, hu], hp⟩

/-- The same after a new thread. -/
theorem exists_thread_insert {P : Pc → Prop} {f : ThreadId → Option Thread} {child : ThreadId}
    {new : Thread} (hnone : f child = none) (hnew : ¬ P new.pc) :
    (∃ u uh, Function.update f child (some new) u = some uh ∧ P uh.pc) ↔
      ∃ u uh, f u = some uh ∧ P uh.pc := by
  constructor
  · rintro ⟨u, uh, hu, hp⟩
    rcases update_some_cases hu with ⟨rfl, rfl⟩ | ⟨-, hu⟩
    · exact absurd hp hnew
    · exact ⟨u, uh, hu, hp⟩
  · rintro ⟨u, uh, hu, hp⟩
    have huc : u ≠ child := by
      rintro rfl
      rw [hnone] at hu
      cases hu
    exact ⟨u, uh, by rw [Function.update_of_ne huc, hu], hp⟩

theorem Pc.joining_of_reading {pc : Pc} {pid : ℤ} (h : pc.reading = some pid) :
    pc.joining = some pid := by
  cases pc <;> simp_all [Pc.reading, Pc.joining, Pc.awaiting]

theorem Pc.joining_of_awaiting {pc : Pc} {pid : ℤ} (h : pc.awaiting = some pid) :
    pc.joining = some pid := by
  simp [Pc.joining, h]

/-- Only one thread at a time joins a slot. -/
theorem JoinInv.joiner_unique (h : JoinInv s) (ht : TableInv s) {u : ThreadId} {uh : Thread}
    {pid : ℤ} (hth : s.thread t = some th) (hu : s.thread u = some uh)
    (hj : th.pc.joining = some pid) (huj : uh.pc.joining = some pid) : u = t := by
  obtain ⟨o, pcb, he, hp, hparent, -⟩ := h.joiner t th pid hth hj
  obtain ⟨o', pcb', he', hp', hparent', -⟩ := h.joiner u uh pid hu huj
  obtain rfl := Option.some.inj (he.symm.trans he')
  obtain rfl := Option.some.inj (hp.symm.trans hp')
  refine ht.thread_unique hu hth ?_ ?_ (hparent'.symm.trans hparent)
  · intro hf
    rw [hf] at huj
    cases huj
  · intro hf
    rw [hf] at hj
    cases hj

theorem Advance.stage_self {pc : Pc} {es : List Event} (ha : Advance s s' t th pc es) :
    s'.stage t = pc.stage := by
  simp [State.stage, ha.thread]

theorem Advance.stage_of_ne {pc : Pc} {es : List Event} (ha : Advance s s' t th pc es)
    {o : ProcessNumber} (ho : o ≠ t) : s'.stage o = s.stage o := by
  simp [State.stage, ha.thread, Function.update_of_ne ho]

theorem Advance.stage_eq {pc : Pc} {es : List Event} (ha : Advance s s' t th pc es)
    (hth : s.thread t = some th) (hpc : pc.stage = th.pc.stage) (o : ProcessNumber) :
    s'.stage o = s.stage o := by
  by_cases ho : o = t
  · rw [ho, ha.stage_self, stage_of_thread hth, hpc]
  · exact ha.stage_of_ne ho

theorem Advance.read_iff {pc : Pc} {es : List Event} (ha : Advance s s' t th pc es)
    (hth : s.thread t = some th) {i : ℕ}
    (hpc : pc.reading = some (i : ℤ) ↔ th.pc.reading = some (i : ℤ)) : s'.Read i ↔ s.Read i := by
  unfold State.Read
  rw [ha.thread]
  exact exists_thread_iff (P := fun pc => pc.reading = some (i : ℤ)) hth hpc

theorem Advance.awaited_iff {pc : Pc} {es : List Event} (ha : Advance s s' t th pc es)
    (hth : s.thread t = some th) {i : ℕ}
    (hpc : pc.awaiting = some (i : ℤ) ↔ th.pc.awaiting = some (i : ℤ)) :
    s'.Awaited i ↔ s.Awaited i := by
  unfold State.Awaited
  rw [ha.thread]
  exact exists_thread_iff (P := fun pc => pc.awaiting = some (i : ℤ)) hth hpc

namespace JoinInv

/-- A slot the step does not touch. -/
theorem slot_keep (h : JoinInv s) {i : ℕ} {o : ProcessNumber} {pcb pcb' : PCB}
    (hi : s.pcb i = some o) (hp : s.heap o = some pcb)
    (hjoin : pcb'.joinsem.value = pcb.joinsem.value)
    (hexit : pcb'.exitsem.value = pcb.exitsem.value) (hstage : s'.stage o = s.stage o)
    (hread : s'.Read i ↔ s.Read i) (hawaited : s'.Awaited i ↔ s.Awaited i) :
    (s'.stage o).Meets pcb'.joinsem.value pcb'.exitsem.value (s'.Read i) (s'.Awaited i) := by
  rw [hjoin, hexit, hstage]
  exact (h.slot i o pcb hi hp).congr hread hawaited

theorem advance (h : JoinInv s) {pc : Pc} {es : List Event} (ha : Advance s s' t th pc es)
    (hparent : ∀ o, (s'.heap o).map PCB.parentID = (s.heap o).map PCB.parentID)
    (hjoiner : ∀ pid, pc.joining = some pid → Joins s t th pid (es ++ s.trace))
    (hchild : ∀ pid child, pc = .joinWait pid child → s.entry pid = some child)
    (hself : ∀ self, pc = .exitWait self → self = t)
    (hslot : ∀ i o pcb, s.pcb i = some o → s'.heap o = some pcb →
      (s'.stage o).Meets pcb.joinsem.value pcb.exitsem.value (s'.Read i) (s'.Awaited i))
    (houtcome : ∀ value, pc = .joinReturn value → JoinOutcome t (es ++ s.trace) value)
    (hreturned : ∀ u value rest, .joinReturned u value ∈ es →
      .joinReturned u value :: rest <:+ es ++ s.trace →
      .joinReturned u value :: rest <:+ s.trace ∨ JoinOutcome u rest value) : JoinInv s' := by
  have hentry (pid : ℤ) : s'.entry pid = s.entry pid := entry_congr ha.pcb pid
  have hcases {u : ThreadId} {uh : Thread} (hu : s'.thread u = some uh) :=
    update_some_cases (ha.thread ▸ hu)
  have hother {u : ThreadId} (hut : u ≠ t) : ∀ e ∈ es, e.actor ≠ u :=
    fun e he hau => hut (hau.symm.trans (ha.actor e he))
  -- the child of a join keeps its slot and its parent
  have hjoins {u : ThreadId} {uh uh' : Thread} {pid : ℤ} {trace : List Event}
      (hid : uh'.processID = uh.processID) (hj : Joins s u uh pid trace) :
      Joins s' u uh' pid trace := by
    obtain ⟨o, pcb, he, hp, hpar, hown⟩ := hj
    obtain ⟨pcb', hp', hpar'⟩ := exists_of_map (hparent o) hp
    exact ⟨o, pcb', by rw [hentry, he], hp', by rw [hpar', hpar, hid], hown⟩
  constructor
  case joiner =>
    intro u uh pid hu hj
    rw [ha.trace]
    rcases hcases hu with ⟨rfl, rfl⟩ | ⟨hut, hu⟩
    · exact hjoins rfl (hjoiner pid hj)
    · obtain ⟨o, pcb, he, hp, hpar, hown⟩ := h.joiner u uh pid hu hj
      exact hjoins rfl ⟨o, pcb, he, hp, hpar, (ownSince_append_of_other (hother hut)).trans hown⟩
  case child =>
    intro u uh pid child hu hpc
    rw [hentry]
    rcases hcases hu with ⟨rfl, rfl⟩ | ⟨-, hu⟩
    · exact hchild pid child hpc
    · exact h.child u uh pid child hu hpc
  case self =>
    intro u uh self hu hpc
    rcases hcases hu with ⟨rfl, rfl⟩ | ⟨-, hu⟩
    · exact hself self hpc
    · exact h.self u uh self hu hpc
  case slot =>
    intro i o pcb hi hp
    exact hslot i o pcb (ha.pcb ▸ hi) hp
  case outcome =>
    intro u uh value hu hpc
    rw [ha.trace]
    rcases hcases hu with ⟨rfl, rfl⟩ | ⟨hut, hu⟩
    · exact houtcome value hpc
    · exact (h.outcome u uh value hu hpc).append (hother hut)
  case returned =>
    intro u value rest hr
    rw [ha.trace] at hr
    by_cases hm : .joinReturned u value ∈ es
    · rcases hreturned u value rest hm hr with hold | hnew
      · exact h.returned u value rest hold
      · exact hnew
    · exact h.returned u value rest (suffix_of_not_mem hm hr)

theorem parentID_of_core {heap heap' : ProcessNumber → Option PCB} {o : ProcessNumber}
    (h : (heap' o).map PCB.core = (heap o).map PCB.core) :
    (heap' o).map PCB.parentID = (heap o).map PCB.parentID := by
  have := congrArg (Option.map fun core : ℕ × ℕ × ℤ × Bool => core.2.2.1) h
  rw [Option.map_map, Option.map_map] at this
  exact this

theorem aside (h : JoinInv s) (ht : TableInv s) (hth : s.thread t = some th) {pc : Pc}
    {es : List Event} (ha : Advance s s' t th pc es) (haside : Aside s s' t th pc es) :
    JoinInv s' := by
  have hjoining : pc.joining = th.pc.joining := by
    unfold Pc.joining
    rw [haside.awaiting, haside.reading]
  refine h.advance ha (fun o => parentID_of_core (haside.core o)) ?_ ?_ ?_ ?_ ?_ ?_
  · intro pid hj
    rw [hjoining] at hj
    rw [haside.silent (by rw [hj]; simp)]
    exact h.joiner t th pid hth hj
  · intro pid child hpc
    rcases haside.child pid child hpc with he | hpc
    · exact he
    · exact h.child t th pid child hth hpc
  · intro self hpc
    rcases haside.self self hpc with he | hpc
    · rw [ht.own t th hth ha.live] at he
      exact (Option.some.inj he).symm
    · exact h.self t th self hth hpc
  · intro i o pcb hi hp
    obtain ⟨old, hold, hcore⟩ := exists_of_map (haside.core o).symm hp
    simp only [PCB.core, Prod.mk.injEq] at hcore
    exact h.slot_keep hi hold hcore.1.symm hcore.2.1.symm (ha.stage_eq hth haside.stage o)
      (ha.read_iff hth (by rw [haside.reading])) (ha.awaited_iff hth (by rw [haside.awaiting]))
  · intro value hpc
    obtain ⟨hvalue, pid, hes⟩ := haside.outcome value hpc
    rw [hes]
    exact .refused pid (ownSince_cons_start t _ _ rfl rfl) hvalue
  · intro u value rest hm hr
    obtain ⟨hes, hpc⟩ := haside.returned u value hm
    rw [hes] at hm hr
    rw [List.singleton_append, List.suffix_cons_iff] at hr
    rcases hr with heq | hr
    · cases heq
      exact .inr (h.outcome t th value hth hpc)
    · exact .inl hr

/-- Where the condition on joins is needed. -/
theorem joinPass (h : JoinInv s) (hth : s.thread t = some th) {pid : ℤ}
    {child parent : ProcessNumber} {pcb : PCB} {pc : Pc} (hold : th.pc = .user)
    (he : s.entry pid = some child) (hl : s.live child = some pcb)
    (hp : pcb.parentID = th.processID) (hpc : pc = .joinInc pid parent ∨ pc = .joinLock pid parent)
    (ha : Advance s s' t th pc [.joinPassed t pid child])
    (hcore : ∀ o, (s'.heap o).map PCB.core = (s.heap o).map PCB.core)
    (hunreleased : pcb.exitsem.value = 0 ∧ s.stage child ≠ .removing) : JoinInv s' := by
  have hpc' : pc.awaiting = some pid ∧ pc.reading = none ∧ pc.stage = .before ∧
      (∀ pid child, pc ≠ .joinWait pid child) ∧ (∀ self, pc ≠ .exitWait self) ∧
      ∀ value, pc ≠ .joinReturn value := by
    rcases hpc with rfl | rfl <;> simp [Pc.awaiting, Pc.reading, Pc.stage]
  obtain ⟨hawaiting, hreading, hstage, hwait, hexit, hreturn⟩ := hpc'
  obtain ⟨h0, -, hslot⟩ := State.entry_eq_some_iff.mp he
  have hheap := (State.live_eq_some_iff.mp hl).1
  refine h.advance ha (fun o => parentID_of_core (hcore o)) ?_
    (fun pid child hw => absurd hw (hwait pid child)) (fun self hw => absurd hw (hexit self)) ?_
    (fun value hr => absurd hr (hreturn value)) (by simp)
  · intro pid' hj
    rw [Pc.joining, hawaiting, Option.some_or] at hj
    cases hj
    exact ⟨child, pcb, he, hheap, hp, ownSince_cons_start t _ _ rfl rfl⟩
  · intro i o pcb' hi hp'
    obtain ⟨old, hold', hc⟩ := exists_of_map (hcore o).symm hp'
    simp only [PCB.core, Prod.mk.injEq] at hc
    have hst : s'.stage o = s.stage o :=
      ha.stage_eq hth (by rw [hstage, hold]; rfl) o
    have hread : s'.Read i ↔ s.Read i := ha.read_iff hth (by rw [hreading, hold]; rfl)
    by_cases hii : pid = i
    · subst hii
      rw [Int.toNat_natCast, hi] at hslot
      obtain rfl := Option.some.inj hslot
      rw [hheap] at hold'
      cases hold'
      rw [← hc.1, ← hc.2.1, hst]
      exact ((h.slot i o pcb hi hheap).await hunreleased.1 hunreleased.2 _).congr hread Iff.rfl
    · refine h.slot_keep hi hold' hc.1.symm hc.2.1.symm hst hread (ha.awaited_iff hth ?_)
      rw [hawaiting, hold]
      simp [Pc.awaiting, hii]

theorem joinEnter (h : JoinInv s) (ht : TableInv s) (hth : s.thread t = some th) {pid : ℤ}
    {child : ProcessNumber} {pcb : PCB}
    (hpc : (th.pc = .joinBegin pid ∧ s.entry pid = some child) ∨ th.pc = .joinWait pid child)
    (hl : s.live child = some pcb) (hsem : pcb.joinsem.value ≠ 0)
    (ha : Advance s s' t th (.joinRead pid) [])
    (hheap : s'.heap = Function.update s.heap child (some { pcb with
      joinsem := { pcb.joinsem with value := pcb.joinsem.value - 1 } })) : JoinInv s' := by
  have he : s.entry pid = some child := by
    rcases hpc with ⟨-, he⟩ | hpc
    · exact he
    · exact h.child t th pid child hth hpc
  have hold : th.pc.joining = some pid ∧ th.pc.awaiting = some pid ∧ th.pc.reading = none ∧
      th.pc.stage = .before := by
    rcases hpc with ⟨hpc, -⟩ | hpc <;> rw [hpc] <;> exact ⟨rfl, rfl, rfl, rfl⟩
  obtain ⟨hjoining, hawaiting, hreading, hstage⟩ := hold
  obtain ⟨h0, -, hslot⟩ := State.entry_eq_some_iff.mp he
  have hp := (State.live_eq_some_iff.mp hl).1
  refine h.advance ha (CodeInv.map_of_update hheap hl rfl) ?_ (by simp) (by simp) ?_ (by simp)
    (by simp)
  · intro pid' hj
    cases hj
    exact h.joiner t th pid hth hjoining
  · intro i o pcb' hi hp'
    have hst : s'.stage o = s.stage o := ha.stage_eq hth (by rw [hstage]; rfl) o
    rw [hheap] at hp'
    rcases update_some_cases hp' with ⟨rfl, rfl⟩ | ⟨ho, hp'⟩
    · obtain ⟨hreleased, hone, hzero⟩ := (h.slot i o pcb hi hp).enter_join hsem
      rw [hst, hreleased]
      refine .inr (.inl ⟨by simp [hone], hzero, ?_⟩)
      refine ⟨t, _, by rw [ha.thread, Function.update_self], ?_⟩
      have := ht.slot_unique hi hslot
      rw [this, Int.toNat_of_nonneg h0]
      rfl
    · have hii : pid ≠ i := by
        rintro rfl
        rw [Int.toNat_natCast, hi] at hslot
        exact ho (Option.some.inj hslot)
      refine h.slot_keep hi hp' rfl rfl hst (ha.read_iff hth ?_) (ha.awaited_iff hth ?_)
      · rw [hreading]
        simp [Pc.reading, hii]
      · rw [hawaiting]
        simp [Pc.awaiting, hii]

theorem joinRead (h : JoinInv s) (ht : TableInv s) (hc : CodeInv s) (hth : s.thread t = some th)
    {pid : ℤ} {child : ProcessNumber} {pcb : PCB} (hpc : th.pc = .joinRead pid)
    (he : s.entry pid = some child) (hl : s.live child = some pcb)
    (ha : Advance s s' t th (.joinReturn pcb.exitcode) [.codeRead t pcb.exitcode])
    (hheap : s'.heap = Function.update s.heap child (some { pcb with
      exitsem := pcb.exitsem.V.2 })) : JoinInv s' := by
  have hjoining : th.pc.joining = some pid := by rw [hpc]; rfl
  obtain ⟨h0, -, hslot⟩ := State.entry_eq_some_iff.mp he
  obtain ⟨hp, hlive⟩ := State.live_eq_some_iff.mp hl
  have hread : s.Read pid.toNat := by
    refine ⟨t, th, hth, ?_⟩
    rw [hpc, Int.toNat_of_nonneg h0]
    rfl
  obtain ⟨hreleased, hzero, hzero'⟩ := (h.slot _ child pcb hslot hp).reading hread
  -- the join of this slot is over, and it was the only one
  have hover {u : ThreadId} {uh : Thread} (hu : s'.thread u = some uh) :
      uh.pc.joining ≠ some pid := by
    intro hj
    rw [ha.thread] at hu
    rcases update_some_cases hu with ⟨rfl, rfl⟩ | ⟨hut, hu⟩
    · cases hj
    · exact hut (h.joiner_unique ht hth hu hjoining hj)
  refine h.advance ha (CodeInv.map_of_update hheap hl rfl) (by simp [Pc.joining, Pc.awaiting,
    Pc.reading]) (by simp) (by simp) ?_ ?_ (by simp)
  · intro i o pcb' hi hp'
    have hst : s'.stage o = s.stage o := ha.stage_eq hth (by rw [hpc]; rfl) o
    rw [hheap] at hp'
    rcases update_some_cases hp' with ⟨rfl, rfl⟩ | ⟨ho, hp'⟩
    · obtain rfl := ht.slot_unique hi hslot
      rw [hst, hreleased]
      refine .inr (.inr ⟨hzero, by simp [Semaphore.V, hzero'], ?_, ?_⟩)
      · rintro ⟨u, uh, hu, hr⟩
        rw [Int.toNat_of_nonneg h0] at hr
        exact hover hu (Pc.joining_of_reading hr)
      · rintro ⟨u, uh, hu, hw⟩
        rw [Int.toNat_of_nonneg h0] at hw
        exact hover hu (Pc.joining_of_awaiting hw)
    · have hii : pid ≠ i := by
        rintro rfl
        rw [Int.toNat_natCast, hi] at hslot
        exact ho (Option.some.inj hslot)
      refine h.slot_keep hi hp' rfl rfl hst (ha.read_iff hth ?_) (ha.awaited_iff hth ?_)
      · rw [hpc]
        simp [Pc.reading, hii]
      · rw [hpc]
        simp [Pc.awaiting]
  · intro value hv
    cases hv
    obtain ⟨o, opcb, he', -, -, hown⟩ := h.joiner t th pid hth hjoining
    obtain rfl := Option.some.inj (he.symm.trans he')
    refine .read pid child [] s.trace ?_ rfl ?_ ?_
    · rw [List.singleton_append, ownSince_cons_self t _ _ rfl rfl, hown]
    · obtain ⟨ch, hch, hstage⟩ : ∃ ch, s.thread child = some ch ∧ ch.pc.stage = .released := by
        unfold State.stage at hreleased
        cases hch : s.thread child with
        | none => simp [hch] at hreleased
        | some ch => exact ⟨ch, rfl, by simpa [hch] using hreleased⟩
      obtain ⟨pcb', hp', hcalled⟩ := hc.code child ch hch (by simp [hstage])
      obtain rfl := Option.some.inj (hp.symm.trans hp')
      intro code
      constructor
      · intro hm
        exact hc.unique child code pcb.exitcode hm hcalled
      · rintro rfl
        exact hcalled
    · intro u i hm
      obtain ⟨pcb', hp', hd⟩ := hc.removed u i child hm
      obtain rfl := Option.some.inj (hp.symm.trans hp')
      rw [hlive] at hd
      cases hd

theorem exitCall (h : JoinInv s) (hth : s.thread t = some th) {pc : Pc} {exitCode : ℤ}
    {parent : ProcessNumber} (hold : th.pc.stage = .before) (hjoin : th.pc.joining = none)
    (hpc : pc = .exitDec parent ∨ pc = .exitLock parent)
    (ha : Advance s s' t th pc [.exitCalled t exitCode])
    (hcore : ∀ o, (s'.heap o).map PCB.core = (s.heap o).map PCB.core) : JoinInv s' := by
  have hpc' : pc.stage = .announced ∧ pc.awaiting = none ∧ pc.reading = none ∧
      (∀ pid child, pc ≠ .joinWait pid child) ∧ (∀ self, pc ≠ .exitWait self) ∧
      ∀ value, pc ≠ .joinReturn value := by
    rcases hpc with rfl | rfl <;> simp [Pc.awaiting, Pc.reading, Pc.stage]
  obtain ⟨hstage, hawaiting, hreading, hwait, hexit, hreturn⟩ := hpc'
  obtain ⟨hawaiting', hreading'⟩ : th.pc.awaiting = none ∧ th.pc.reading = none := by
    simpa [Pc.joining, Option.or_eq_none_iff] using hjoin
  refine h.advance ha (fun o => parentID_of_core (hcore o))
    (by simp [Pc.joining, hawaiting, hreading])
    (fun pid child hw => absurd hw (hwait pid child)) (fun self hw => absurd hw (hexit self)) ?_
    (fun value hr => absurd hr (hreturn value)) (by simp)
  intro i o pcb hi hp
  obtain ⟨old, hp', hc⟩ := exists_of_map (hcore o).symm hp
  simp only [PCB.core, Prod.mk.injEq] at hc
  have hread : s'.Read i ↔ s.Read i := ha.read_iff hth (by rw [hreading, hreading'])
  have hawaited : s'.Awaited i ↔ s.Awaited i := ha.awaited_iff hth (by rw [hawaiting, hawaiting'])
  by_cases ho : o = t
  · subst ho
    have hmeets := h.slot i o old hi hp'
    rw [stage_of_thread hth, hold] at hmeets
    rw [ha.stage_self, hstage, ← hc.1, ← hc.2.1]
    exact hmeets.congr hread hawaited
  · exact h.slot_keep hi hp' hc.1.symm hc.2.1.symm (ha.stage_of_ne ho) hread hawaited

theorem exitRelease (h : JoinInv s) (ht : TableInv s) (hth : s.thread t = some th)
    {self : ProcessNumber} {pcb : PCB} (hpc : th.pc = .exitRelease)
    (he : s.entry th.processID = some self) (hl : s.live self = some pcb)
    (ha : Advance s s' t th .exitBegin [])
    (hheap : s'.heap = Function.update s.heap self (some { pcb with
      joinsem := pcb.joinsem.V.2 })) : JoinInv s' := by
  rw [ht.own t th hth ha.live] at he
  obtain rfl := Option.some.inj he
  refine h.advance ha (CodeInv.map_of_update hheap hl rfl) (by simp [Pc.joining, Pc.awaiting,
    Pc.reading]) (by simp) (by simp) ?_ (by simp) (by simp)
  intro i o pcb' hi hp'
  have hread : s'.Read i ↔ s.Read i := ha.read_iff hth (by rw [hpc]; rfl)
  have hawaited : s'.Awaited i ↔ s.Awaited i := ha.awaited_iff hth (by rw [hpc]; rfl)
  rw [hheap] at hp'
  rcases update_some_cases hp' with ⟨rfl, rfl⟩ | ⟨ho, hp'⟩
  · have hmeets := h.slot i o pcb hi (State.live_eq_some_iff.mp hl).1
    rw [stage_of_thread hth, hpc] at hmeets
    rw [ha.stage_self]
    exact .inl ⟨by simp [Semaphore.V, hmeets.1], hmeets.2.1, fun hr => hmeets.2.2 (hread.mp hr)⟩
  · exact h.slot_keep hi hp' rfl rfl (ha.stage_of_ne ho) hread hawaited

theorem exitEnter (h : JoinInv s) (ht : TableInv s) (hth : s.thread t = some th)
    {self : ProcessNumber} {pcb : PCB}
    (hpc : (th.pc = .exitBegin ∧ s.entry th.processID = some self) ∨ th.pc = .exitWait self)
    (hl : s.live self = some pcb) (hsem : pcb.exitsem.value ≠ 0)
    (ha : Advance s s' t th .exitRemove [])
    (hheap : s'.heap = Function.update s.heap self (some { pcb with
      exitsem := { pcb.exitsem with value := pcb.exitsem.value - 1 } })) : JoinInv s' := by
  obtain rfl : self = t := by
    rcases hpc with ⟨-, he⟩ | hpc
    · rw [ht.own t th hth ha.live] at he
      exact (Option.some.inj he).symm
    · exact h.self t th self hth hpc
  have hold : th.pc.awaiting = none ∧ th.pc.reading = none ∧ th.pc.stage = .released := by
    rcases hpc with ⟨hpc, -⟩ | hpc <;> rw [hpc] <;> exact ⟨rfl, rfl, rfl⟩
  refine h.advance ha (CodeInv.map_of_update hheap hl rfl) (by simp [Pc.joining, Pc.awaiting,
    Pc.reading]) (by simp) (by simp) ?_ (by simp) (by simp)
  intro i o pcb' hi hp'
  have hread : s'.Read i ↔ s.Read i := ha.read_iff hth (by rw [hold.2.1]; rfl)
  have hawaited : s'.Awaited i ↔ s.Awaited i := ha.awaited_iff hth (by rw [hold.1]; rfl)
  rw [hheap] at hp'
  rcases update_some_cases hp' with ⟨rfl, rfl⟩ | ⟨ho, hp'⟩
  · have hmeets := h.slot i o pcb hi (State.live_eq_some_iff.mp hl).1
    rw [stage_of_thread hth, hold.2.2] at hmeets
    obtain ⟨hzero, hone, hnread, hnawaited⟩ := hmeets.enter_exit hsem
    rw [ha.stage_self]
    exact ⟨hzero, by simp [hone], fun hr => hnread (hread.mp hr),
      fun hw => hnawaited (hawaited.mp hw)⟩
  · exact h.slot_keep hi hp' rfl rfl (ha.stage_of_ne ho) hread hawaited

/-- Steps that change the table, by a thread that is not in a join. -/
theorem reshape (h : JoinInv s) (es : List Event) (htrace : s'.trace = es ++ s.trace)
    (hactor : ∀ e ∈ es, e.actor = t) (hreturned : ∀ u value, .joinReturned u value ∉ es)
    (hthread : ∀ u uh, s'.thread u = some uh → (u ≠ t ∧ s.thread u = some uh) ∨
      (uh.pc.joining = none ∧ uh.pc.stage = .before ∧ ∀ value, uh.pc ≠ .joinReturn value))
    (hjoined : ∀ u uh pid o pcb, s.thread u = some uh → uh.pc.joining = some pid →
      s.entry pid = some o → s.heap o = some pcb →
      s'.entry pid = some o ∧ ∃ pcb', s'.heap o = some pcb' ∧ pcb'.parentID = pcb.parentID)
    (hslot : ∀ i o pcb, s'.pcb i = some o → s'.heap o = some pcb →
      (s'.stage o).Meets pcb.joinsem.value pcb.exitsem.value (s'.Read i) (s'.Awaited i)) :
    JoinInv s' := by
  have hother {u : ThreadId} (hut : u ≠ t) : ∀ e ∈ es, e.actor ≠ u :=
    fun e he hau => hut (hau.symm.trans (hactor e he))
  constructor
  case joiner =>
    intro u uh pid hu hj
    rcases hthread u uh hu with ⟨hut, hu⟩ | ⟨hnone, -⟩
    · obtain ⟨o, pcb, he, hp, hpar, hown⟩ := h.joiner u uh pid hu hj
      obtain ⟨he', pcb', hp', hpar'⟩ := hjoined u uh pid o pcb hu hj he hp
      refine ⟨o, pcb', he', hp', hpar'.trans hpar, ?_⟩
      rw [htrace, ownSince_append_of_other (hother hut), hown]
    · rw [hnone] at hj
      cases hj
  case child =>
    intro u uh pid child hu hpc
    have hj : uh.pc.joining = some pid := by rw [hpc]; rfl
    rcases hthread u uh hu with ⟨-, hu⟩ | ⟨hnone, -⟩
    · obtain ⟨o, pcb, he, hp, -⟩ := h.joiner u uh pid hu hj
      obtain rfl := Option.some.inj (he.symm.trans (h.child u uh pid child hu hpc))
      exact (hjoined u uh pid o pcb hu hj he hp).1
    · rw [hnone] at hj
      cases hj
  case self =>
    intro u uh self hu hpc
    rcases hthread u uh hu with ⟨-, hu⟩ | ⟨-, hstage, -⟩
    · exact h.self u uh self hu hpc
    · rw [hpc] at hstage
      cases hstage
  case slot => exact hslot
  case outcome =>
    intro u uh value hu hpc
    rcases hthread u uh hu with ⟨hut, hu⟩ | ⟨-, -, hne⟩
    · rw [htrace]
      exact (h.outcome u uh value hu hpc).append (hother hut)
    · exact absurd hpc (hne value)
  case returned =>
    intro u value rest hr
    rw [htrace] at hr
    exact h.returned u value rest (suffix_of_not_mem (hreturned u value) hr)

theorem allocate (h : JoinInv s) (ht : TableInv s) {index : ℕ} {rest : List ℕ}
    {multex : Semaphore} {call : ExecCall} {checks : Checks} (hth : s.thread t = some th)
    (hpc : th.pc = .execCheck call) (hfree : s.bm.clearList = index :: rest) :
    JoinInv ({ s with
      bm := s.bm.insert index
      pcb := Function.update s.pcb index (some s.next)
      next := s.next + 1
      heap := Function.update s.heap s.next (some { PCB.new index th.processID with multex })
      trace := .slotTaken t index s.next :: .execChecked t checks :: s.trace }.setPc t th
        (.execFork call index s.next)) := by
  obtain ⟨hlt, hempty, -⟩ := ht.free_slot hfree
  set s' := ({ s with
      bm := s.bm.insert index
      pcb := Function.update s.pcb index (some s.next)
      next := s.next + 1
      heap := Function.update s.heap s.next (some { PCB.new index th.processID with multex })
      trace := .slotTaken t index s.next :: .execChecked t checks :: s.trace }.setPc t th
        (.execFork call index s.next)) with hs'
  have hread (i : ℕ) : s'.Read i ↔ s.Read i :=
    exists_thread_iff (P := fun pc => pc.reading = some (i : ℤ)) hth (by rw [hpc]; rfl)
  have hawaited (i : ℕ) : s'.Awaited i ↔ s.Awaited i :=
    exists_thread_iff (P := fun pc => pc.awaiting = some (i : ℤ)) hth (by rw [hpc]; rfl)
  refine h.reshape [_, _] (t := t) rfl (by simp [Event.actor]) (by simp) ?_ ?_ ?_
  · intro u uh hu
    rcases update_some_cases hu with ⟨rfl, rfl⟩ | ⟨hut, hu⟩
    · exact .inr ⟨rfl, rfl, by simp⟩
    · exact .inl ⟨hut, hu⟩
  · intro u uh pid o pcb hu hj he hp
    obtain ⟨h0, h1, hslot⟩ := State.entry_eq_some_iff.mp he
    have hne : pid.toNat ≠ index := by
      intro heq
      rw [heq, hempty] at hslot
      cases hslot
    exact ⟨State.entry_eq_some_iff.mpr ⟨h0, h1, (Function.update_of_ne hne _ _).trans hslot⟩,
      pcb, (Function.update_of_ne (ht.heap_lt hp).ne _ _).trans hp, rfl⟩
  · intro i o pcb hi hp
    have hstage (o : ProcessNumber) : s'.stage o = s.stage o := by
      by_cases ho : o = t
      · subst ho
        rw [stage_of_thread hth, hpc]
        simp [hs', State.stage, Pc.stage]
      · simp [hs', State.stage, Function.update_of_ne ho]
    rcases update_some_cases hi with ⟨rfl, rfl⟩ | ⟨-, hi⟩
    · rw [show s'.heap s.next = some { PCB.new i th.processID with multex } from
        Function.update_self ..] at hp
      cases hp
      have hbefore : s.stage s.next = .before := by
        simp [State.stage, (ht.fresh s.next le_rfl).2]
      rw [hstage, hbefore]
      -- nobody joins a slot that was free
      refine ⟨rfl, rfl, fun hr => ?_⟩
      obtain ⟨u, uh, hu, hr⟩ := (hread i).mp hr
      obtain ⟨o, pcb, he, -⟩ := h.joiner u uh i hu (Pc.joining_of_reading hr)
      rw [entry_natCast hlt, hempty] at he
      cases he
    · obtain ⟨old, hold, -⟩ := ht.object i o hi
      have hp' : s.heap o = some pcb :=
        (Function.update_of_ne (ht.heap_lt hold).ne _ _).symm.trans hp
      exact h.slot_keep hi hp' rfl rfl (hstage o) (hread i) (hawaited i)

theorem fork (h : JoinInv s) (ht : TableInv s) {call : ExecCall} {index : ℕ}
    {child : ProcessNumber} {tail : CString} {pcb : PCB} (hth : s.thread t = some th)
    (hpc : th.pc = .execFork call index child) (hl : s.live child = some pcb) :
    JoinInv ({ s with
      heap := Function.update s.heap child
        (some { pcb with thread := some child, parentID := th.processID })
      thread := Function.update s.thread child (some (State.newThread call index tail))
      trace := .forked t child :: s.trace }.setPc t th (.execUnlock call index child)) := by
  obtain ⟨-, hnone, pcb', hp', hparent⟩ := ht.creating t th index child hth (by rw [hpc]; rfl)
  have hheap := (State.live_eq_some_iff.mp hl).1
  obtain rfl := Option.some.inj (hheap.symm.trans hp')
  have htc : t ≠ child := by
    rintro rfl
    rw [hnone] at hth
    cases hth
  have hth' : Function.update s.thread child (some (State.newThread call index tail)) t =
      some th := (Function.update_of_ne htc _ _).trans hth
  have hjoining := State.newThread_joining call index tail
  have hobject {o : ProcessNumber} {old : PCB} (ho : s.heap o = some old) : ∃ new,
      Function.update s.heap child
        (some { pcb with thread := some child, parentID := th.processID }) o = some new ∧
      new.parentID = old.parentID ∧ new.joinsem = old.joinsem ∧ new.exitsem = old.exitsem := by
    by_cases hoc : o = child
    · subst hoc
      obtain rfl := Option.some.inj (hheap.symm.trans ho)
      exact ⟨_, Function.update_self .., hparent.symm, rfl, rfl⟩
    · exact ⟨old, (Function.update_of_ne hoc _ _).trans ho, rfl, rfl, rfl⟩
  refine h.reshape [_] (t := t) rfl (by simp [Event.actor]) (by simp) ?_ ?_ ?_
  · intro u uh hu
    rcases update_some_cases hu with ⟨rfl, rfl⟩ | ⟨hut, hu⟩
    · exact .inr ⟨rfl, rfl, by simp⟩
    · rcases update_some_cases hu with ⟨rfl, rfl⟩ | ⟨-, hu⟩
      · refine .inr ⟨hjoining, State.newThread_stage call index tail, ?_⟩
        unfold State.newThread
        cases call.kind <;> simp
      · exact .inl ⟨hut, hu⟩
  · intro u uh pid o old hu hj he ho
    obtain ⟨new, hn, hpar, -⟩ := hobject ho
    exact ⟨he, new, hn, hpar⟩
  · intro i o new hi hn
    obtain ⟨old, ho, -⟩ := ht.object i o hi
    obtain ⟨new', hn', -, hjoin, hexit⟩ := hobject ho
    obtain rfl := Option.some.inj (hn.symm.trans hn')
    refine h.slot_keep hi ho (by rw [hjoin]) (by rw [hexit]) ?_ ?_ ?_
    · by_cases hot : o = t
      · subst hot
        rw [stage_of_thread hth, hpc]
        simp [State.stage, Pc.stage]
      · by_cases hoc : o = child
        · subst hoc
          simp [State.stage, Function.update_of_ne hot, hnone, State.newThread_stage]
        · simp [State.stage, Function.update_of_ne hot, Function.update_of_ne hoc]
    · refine (exists_thread_iff (P := fun pc => pc.reading = some (i : ℤ)) hth'
        (by rw [hpc]; rfl)).trans (exists_thread_insert
        (P := fun pc => pc.reading = some (i : ℤ)) hnone ?_)
      intro hr
      rw [Pc.joining_of_reading hr] at hjoining
      cases hjoining
    · refine (exists_thread_iff (P := fun pc => pc.awaiting = some (i : ℤ)) hth'
        (by rw [hpc]; rfl)).trans (exists_thread_insert
        (P := fun pc => pc.awaiting = some (i : ℤ)) hnone ?_)
      intro hw
      rw [Pc.joining_of_awaiting hw] at hjoining
      cases hjoining

theorem remove (h : JoinInv s) (ht : TableInv s) {bm : Bitmap MAX_PROCESS} {pcb : PCB}
    (hth : s.thread t = some th) (hpc : th.pc = .exitRemove) (hl : s.live t = some pcb) :
    JoinInv ({ s with
      bm
      pcb := Function.update s.pcb th.processID.toNat none
      heap := Function.update s.heap t (some { pcb with deleted := true })
      trace := .threadFinished t :: .removed t th.processID.toNat t :: s.trace }.setPc t th
        .finished) := by
  obtain ⟨own, -, hown, hslot⟩ := ht.own_entry hth (by simp [hpc])
  have htoNat : th.processID.toNat = own := by omega
  rw [htoNat]
  have hheap := (State.live_eq_some_iff.mp hl).1
  have hmeets := h.slot own t pcb hslot hheap
  rw [stage_of_thread hth, hpc] at hmeets
  -- a process in `Remove` is not being joined
  have hfree {u : ThreadId} {uh : Thread} (hu : s.thread u = some uh) :
      uh.pc.joining ≠ some (own : ℤ) := by
    intro hj
    unfold Pc.joining at hj
    rcases Option.or_eq_some_iff.mp hj with hw | ⟨-, hr⟩
    · exact hmeets.2.2.2 ⟨u, uh, hu, hw⟩
    · exact hmeets.2.2.1 ⟨u, uh, hu, hr⟩
  have hkept {i : ℕ} {o : ProcessNumber} (hi : s.pcb i = some o) (hio : i ≠ own) : o ≠ t := by
    rintro rfl
    exact hio (ht.slot_unique hi hslot)
  refine h.reshape [_, _] (t := t) rfl (by simp [Event.actor]) (by simp) ?_ ?_ ?_
  · intro u uh hu
    rcases update_some_cases hu with ⟨rfl, rfl⟩ | ⟨hut, hu⟩
    · exact .inr ⟨rfl, rfl, by simp⟩
    · exact .inl ⟨hut, hu⟩
  · intro u uh pid o old hu hj he ho
    obtain ⟨h0, h1, hi⟩ := State.entry_eq_some_iff.mp he
    have hne : pid.toNat ≠ own := by
      intro heq
      exact hfree hu (by rw [hj, ← heq, Int.toNat_of_nonneg h0])
    exact ⟨State.entry_eq_some_iff.mpr ⟨h0, h1, (Function.update_of_ne hne _ _).trans hi⟩,
      old, (Function.update_of_ne (hkept hi hne) _ _).trans ho, rfl⟩
  · intro i o old hi ho
    obtain ⟨hio, hi⟩ := update_none_cases hi
    have hot := hkept hi hio
    have ho' : s.heap o = some old := (Function.update_of_ne hot _ _).symm.trans ho
    refine h.slot_keep hi ho' rfl rfl ?_ ?_ ?_
    · simp [State.stage, Function.update_of_ne hot]
    · exact exists_thread_iff (P := fun pc => pc.reading = some (i : ℤ)) hth (by rw [hpc]; rfl)
    · exact exists_thread_iff (P := fun pc => pc.awaiting = some (i : ℤ)) hth (by rw [hpc]; rfl)

theorem move (h : JoinInv s) (ht : TableInv s) (hc : CodeInv s) {l : Label}
    (hth : s.thread l.thread = some th) (hallow : JoinsUnreleased s l)
    (hm : HandMove s l.thread th l.input s') : JoinInv s' := by
  cases hm with
  | stop status _ => exact ⟨h.joiner, h.child, h.self, h.slot, h.outcome, h.returned⟩
  | aside s' pc es ha haside => exact h.aside ht hth ha haside
  | allocate call index rest multex checks hpc hfree => exact h.allocate ht hth hpc hfree
  | fork call index child tail hpc pcb hl => exact h.fork ht hth hpc hl
  | joinPass s' pid hpc hi child he pcb hl hp parent pc hnew ha hcore hcode =>
    refine h.joinPass hth hpc he hl hp hnew ha hcore ?_
    obtain ⟨hexit, hnot⟩ := hallow th hth hpc pid (by rw [hi]; rfl) child he pcb
      (State.live_eq_some_iff.mp hl).1 hp
    refine ⟨hexit, ?_⟩
    unfold State.stage
    cases hch : s.thread child with
    | none => simp
    | some ch =>
      have := hnot ch hch
      cases hchpc : ch.pc <;> simp_all [Pc.stage]
  | joinEnter s' pid child hpc pcb hl hsem ha hheap => exact h.joinEnter ht hth hpc hl hsem ha hheap
  | joinRead s' pid hpc child he pcb hl ha hheap => exact h.joinRead ht hc hth hpc he hl ha hheap
  | exitCall s' exitCode pc hold hjoin parent hpc self hself ha hcore hcode =>
    exact h.exitCall hth hold hjoin hpc ha hcore
  | exitRelease s' hpc self he pcb hl ha hheap => exact h.exitRelease ht hth hpc he hl ha hheap
  | exitEnter s' self hpc pcb hl hsem ha hheap => exact h.exitEnter ht hth hpc hl hsem ha hheap
  | remove hpc bm self he pcb hl =>
    obtain rfl := ht.removed_self hth hpc he
    exact h.remove ht hth hpc hl
  | stray s' hpc hstray => exact (ht.not_stray hth hpc hstray).elim

end JoinInv

theorem Initial.joinInv (h : Initial s) : JoinInv s := by
  have hmain {t : ThreadId} {th : Thread} (hth : s.thread t = some th) : th.pc = .user := by
    rw [h.thread] at hth
    rcases update_some_cases hth with ⟨-, rfl⟩ | ⟨-, hth⟩
    · rfl
    · cases hth
  have htrace {e : Event} {es : List Event} (hs : e :: es <:+ s.trace) : False := by
    rw [h.trace] at hs
    exact absurd (List.suffix_nil.mp hs) (by simp)
  constructor
  case joiner =>
    intro u uh pid hu hj
    rw [hmain hu] at hj
    cases hj
  case child =>
    intro u uh pid child hu hpc
    rw [hmain hu] at hpc
    cases hpc
  case self =>
    intro u uh self hu hpc
    rw [hmain hu] at hpc
    cases hpc
  case slot =>
    intro i o pcb hi hp
    rw [h.pcb] at hi
    rcases update_some_cases hi with ⟨rfl, rfl⟩ | ⟨-, hi⟩
    · rw [h.heap, Function.update_self] at hp
      cases hp
      have hstage : s.stage 0 = .before := by
        simp [State.stage, h.thread, mainThread, Pc.stage]
      rw [hstage]
      refine ⟨rfl, rfl, ?_⟩
      rintro ⟨u, uh, hu, hr⟩
      rw [hmain hu] at hr
      cases hr
    · cases hi
  case outcome =>
    intro u uh value hu hpc
    rw [hmain hu] at hpc
    cases hpc
  case returned =>
    intro u value es hs
    exact (htrace hs).elim

theorem joinInv_reach {allow : State → Label → Prop} {s₀ : State}
    (hallow : ∀ s l, allow s l → JoinsUnreleased s l) (h₀ : initial = some s₀)
    (h : Runs.Reach step allow s₀ s) : TableInv s ∧ CodeInv s ∧ JoinInv s := by
  have hi := initial_spec h₀
  refine h.invariant (P := fun s => TableInv s ∧ CodeInv s ∧ JoinInv s)
    ⟨hi.tableInv, hi.codeInv, hi.joinInv⟩ ?_
  intro s l s' hi ha hs
  obtain ⟨th, -, hth, hm⟩ := step_move hs
  exact ⟨hi.1.move hth hm.table, hi.2.1.move hi.1 hth hm.hand,
    hi.2.2.move hi.1 hi.2.1 hth (hallow s l ha) hm.hand⟩

/-- What the events of a step say about it: the child a join found, the code an exit stored,
and every process that leaves the table. -/
structure JoinTraced (s s' : State) (t : ThreadId) (es : List Event) : Prop where
  trace : s'.trace = es ++ s.trace
  passed : ∀ u pid child, .joinPassed u pid child ∈ es → s.entry pid = some child
  stored : ∀ u code, .exitCalled u code ∈ es →
    ∃ pcb, s'.heap u = some pcb ∧ pcb.exitcode = code
  removed : ∀ i o, s.pcb i = some o → s'.pcb i ≠ some o → .removed t i o ∈ es

theorem JoinTraced.of_advance {pc : Pc} {es : List Event} (ha : Advance s s' t th pc es)
    (hpassed : ∀ u pid child, .joinPassed u pid child ∈ es → s.entry pid = some child)
    (hstored : ∀ u code, .exitCalled u code ∈ es →
      ∃ pcb, s'.heap u = some pcb ∧ pcb.exitcode = code) : JoinTraced s s' t es where
  trace := ha.trace
  passed := hpassed
  stored := hstored
  removed _ _ hi hne := absurd (ha.pcb ▸ hi) hne

theorem HandMove.joinTraced (ht : TableInv s) (hth : s.thread t = some th)
    (hm : HandMove s t th input s') : ∃ es, JoinTraced s s' t es := by
  cases hm with
  | stop status _ => exact ⟨[], rfl, by simp, by simp, fun _ _ hi hne => absurd hi hne⟩
  | aside s' pc es ha haside =>
    exact ⟨es, .of_advance ha (fun u pid child hm => absurd hm (haside.joinPassed u pid child))
      fun u code hm => absurd hm (haside.exitCalled u code)⟩
  | allocate call index rest multex checks hpc hfree =>
    refine ⟨[_, _], rfl, by simp, by simp, ?_⟩
    intro i o hi hne
    have hii : i ≠ index := by
      rintro rfl
      rw [(ht.free_slot hfree).2.1] at hi
      cases hi
    exact absurd ((Function.update_of_ne hii _ _).trans hi) hne
  | fork call index child tail hpc pcb hl =>
    exact ⟨[_], rfl, by simp, by simp, fun _ _ hi hne => absurd hi hne⟩
  | joinPass s' pid hpc hi child he pcb hl hp parent pc hnew ha hcore hcode =>
    refine ⟨_, .of_advance ha ?_ (by simp)⟩
    intro u pid' child' hm
    obtain ⟨-, rfl, rfl⟩ : u = t ∧ pid' = pid ∧ child' = child := by simpa using hm
    exact he
  | joinEnter s' pid child hpc pcb hl hsem ha hheap => exact ⟨_, .of_advance ha (by simp) (by simp)⟩
  | joinRead s' pid hpc child he pcb hl ha hheap => exact ⟨_, .of_advance ha (by simp) (by simp)⟩
  | exitCall s' exitCode pc hold hjoin parent hpc self hself ha hcore hcode =>
    rw [ht.own t th hth ha.live] at hself
    obtain rfl := Option.some.inj hself
    refine ⟨_, .of_advance ha (by simp) ?_⟩
    intro u code hm
    obtain ⟨rfl, rfl⟩ : u = t ∧ code = exitCode := by simpa using hm
    have := hcode u
    rw [if_pos rfl] at this
    exact Option.map_eq_some_iff.mp this
  | exitRelease s' hpc self he pcb hl ha hheap => exact ⟨_, .of_advance ha (by simp) (by simp)⟩
  | exitEnter s' self hpc pcb hl hsem ha hheap => exact ⟨_, .of_advance ha (by simp) (by simp)⟩
  | remove hpc bm self he pcb hl =>
    refine ⟨[_, _], rfl, by simp, by simp, ?_⟩
    intro i o hi hne
    by_cases hii : i = th.processID.toNat
    · subst hii
      obtain rfl := Option.some.inj (hi.symm.trans he)
      simp
    · exact absurd ((Function.update_of_ne hii _ _).trans hi) hne
  | stray s' hpc hstray => exact (ht.not_stray hth hpc hstray).elim

/-- As long as no join passes its checks on a child that was released before, every join that
returns does so with the exit code of the child it found, which had exited and was still in
the table when the code was read. -/
theorem join_returns_code {s₀ : State} (h₀ : initial = some s₀)
    (h : Runs.Reach step JoinsUnreleased s₀ s) :
    (∀ t value es, .joinReturned t value :: es <:+ s.trace → JoinOutcome t es value) ∧
      ∀ l s', step s l = some s' → ∃ es, JoinTraced s s' l.thread es := by
  obtain ⟨ht, -, hj⟩ := joinInv_reach (fun _ _ ha => ha) h₀ h
  refine ⟨hj.returned, ?_⟩
  intro l s' hs
  obtain ⟨th, -, hth, hm⟩ := step_move hs
  exact hm.hand.joinTraced ht hth

end

/-- The main thread starts "a", which exits with 7, and joins it. -/
def joinAfterExit : List Label :=
  execSteps 0 .update nameA ++ [⟨1, .start sampleEnv⟩, ⟨1, .exit 7⟩] ++ goSteps 1 3 ++
    [⟨0, .join 1⟩] ++ goSteps 0 4

theorem join_returns_code_joinAfterExit : ∃ s₀ s es, initial = some s₀ ∧
    Runs.Reach step JoinsUnreleased s₀ s ∧ .joinReturned 0 7 :: es <:+ s.trace ∧
    JoinOutcome 0 es 7 := by
  have hrun : (initial.bind fun s₀ => (Runs.execIf step JoinsUnreleased s₀ joinAfterExit).map
      fun s => decide (s.trace.head? = some (.joinReturned 0 7))) = some true := by
    decide +kernel
  obtain ⟨s₀, h₀, hrun⟩ := Option.bind_eq_some_iff.mp hrun
  obtain ⟨s, hs, hd⟩ := Option.map_eq_some_iff.mp hrun
  obtain ⟨es, hes⟩ := List.head?_eq_some_iff.mp (of_decide_eq_true hd)
  have hr := Runs.reach_of_execIf hs
  have hsuffix : .joinReturned 0 7 :: es <:+ s.trace := hes ▸ List.suffix_rfl
  exact ⟨s₀, s, es, h₀, hr, hsuffix, (join_returns_code h₀ hr).1 0 7 es hsuffix⟩

/-- The main thread joins "a" twice. While the second join is under way, "a" is removed and
"c" takes over its slot, started by "b", and exits with 9. -/
def joinTwice : List Label :=
  execSteps 0 .update nameA ++ execSteps 0 .update nameB ++
    [⟨1, .start sampleEnv⟩, ⟨2, .start sampleEnv⟩, ⟨1, .exit 7⟩] ++ goSteps 1 3 ++
    [⟨0, .join 1⟩] ++ goSteps 0 4 ++ [⟨0, .join 1⟩] ++ goSteps 0 1 ++ goSteps 1 2 ++
    execSteps 2 .update nameC ++ [⟨3, .start sampleEnv⟩, ⟨3, .exit 9⟩] ++ goSteps 3 3 ++ goSteps 0 3

/-- The second join found process 1, which exited with 7, and returns 9. -/
theorem joinTwice_returns_stranger : ∃ s₀ s es, initial = some s₀ ∧
    Runs.Reach step (fun _ _ => True) s₀ s ∧ .joinReturned 0 9 :: es <:+ s.trace ∧
    .exitCalled 1 7 ∈ es ∧ ¬ JoinOutcome 0 es 9 := by
  have hrun : (initial.bind fun s₀ => (Runs.exec step s₀ joinTwice).map fun s =>
      decide (s.trace.head? = some (.joinReturned 0 9) ∧
        ownSince Event.isJoinCall 0 s.trace.tail = [.codeRead 0 9, .joinPassed 0 1 1] ∧
        .exitCalled 1 7 ∈ s.trace.tail ∧ .exitCalled 1 9 ∉ s.trace.tail)) = some true := by
    decide +kernel
  obtain ⟨s₀, h₀, hrun⟩ := Option.bind_eq_some_iff.mp hrun
  obtain ⟨s, hs, hd⟩ := Option.map_eq_some_iff.mp hrun
  obtain ⟨hhead, hown, hseven, hnine⟩ := of_decide_eq_true hd
  obtain ⟨es, hes⟩ := List.head?_eq_some_iff.mp hhead
  rw [hes, List.tail_cons] at hown hseven hnine
  refine ⟨s₀, s, es, h₀, Runs.reach_of_exec hs, hes ▸ List.suffix_rfl, hseven, ?_⟩
  intro houtcome
  cases houtcome with
  | refused pid h hvalue => cases hvalue
  | read pid child later earlier h hsplit hcode hthere =>
    rw [hown] at h
    cases h
    have := (hcode 9).mpr rfl
    exact hnine (hsplit ▸ List.mem_append_right later (List.mem_cons_of_mem _ this))

end Nachos.PTable

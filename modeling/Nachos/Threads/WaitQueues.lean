import Nachos.Threads.JoinExit

/-! Who sleeps on the semaphores of a PCB, and what `Remove` leaves behind. A semaphore may
only be deleted when nobody waits for it; nothing in `ExitUpdate` makes sure of that. -/
namespace Nachos.PTable

/-- The semaphore a thread is in `P` for. -/
def Pc.waits : Pc → Option (ProcessNumber × SemName)
  | .execLock _ _ child => some (child, .multex)
  | .joinLock _ parent | .exitLock parent => some (parent, .multex)
  | .joinWait _ child => some (child, .joinsem)
  | .exitWait self => some (self, .exitsem)
  | _ => none

/-- A process is removed only when no other one is inside `DecNumWait` on its PCB. -/
def RemovesUnused (s : State) (l : Label) : Prop :=
  ∀ th ∈ s.thread l.thread, th.pc = .exitRemove →
    ∀ u < s.next, ∀ uh ∈ s.thread u, uh.pc ≠ .exitLock l.thread ∧ uh.pc ≠ .exitDec l.thread

instance (s : State) (l : Label) : Decidable (RemovesUnused s l) :=
  inferInstanceAs (Decidable (∀ th ∈ s.thread l.thread, _))

/-- Nobody waits for a semaphore of the PCB. -/
def PCB.Unwatched (pcb : PCB) : Prop := ∀ name, (pcb.sem name).queue = []

structure QueueInv (s : State) : Prop where
  queued : ∀ o pcb name u, s.heap o = some pcb → u ∈ (pcb.sem name).queue →
    ∃ uh, s.thread u = some uh ∧ uh.pc.waits = some (o, name)
  lock : ∀ u uh pid parent, s.thread u = some uh → uh.pc = .joinLock pid parent → parent = u
  deleted : ∀ o pcb, s.heap o = some pcb → pcb.deleted = true → pcb.Unwatched

section

variable {s s' : State} {t : ThreadId} {th : Thread} {input : Input}

/-- A thread in the queue of the semaphore it waits for does not run. -/
theorem step_awake {l : Label} (hs : step s l = some s') (hth : s.thread l.thread = some th)
    {o : ProcessNumber} {name : SemName} {pcb : PCB} (hw : th.pc.waits = some (o, name))
    (hp : s.heap o = some pcb) : l.thread ∉ (pcb.sem name).queue := by
  have hwake {done retry : Pc} (h : s.wake l.thread th o name done retry = some s') :
      l.thread ∉ (pcb.sem name).queue := by
    intro hm
    unfold State.wake at h
    rw [if_pos (by simp [hp, hm])] at h
    cases h
  obtain ⟨-, hrun, -⟩ := step_move hs
  unfold step at hs
  rw [if_pos hrun, hth, Option.bind_eq_bind, Option.bind_some] at hs
  cases hpc : th.pc <;> rw [hpc] at hw hs <;> cases hw
  all_goals
    cases hin : l.input <;> rw [hin] at hs <;> first | exact hwake hs | cases hs

/-- The queue after one turn in `P`. -/
theorem Turn.queue {sem sem' : Semaphore} {done retry pc : Pc}
    (h : Turn sem t done retry sem' pc) {u : ThreadId} (hu : u ∈ sem'.queue) :
    u ∈ sem.queue ∨ (u = t ∧ pc = retry) := by
  cases h with
  | entered h => exact .inl hu
  | queued h =>
    rcases List.mem_append.mp hu with hu | hu
    · exact .inl hu
    · exact .inr ⟨List.mem_singleton.mp hu, rfl⟩

theorem queue_V {sem : Semaphore} {u : ThreadId} (hu : u ∈ sem.V.2.queue) : u ∈ sem.queue :=
  List.mem_of_mem_tail hu

/-- The queues after a step of `t` to `pc`: nobody but `t` is new in one. -/
def Queues (s s' : State) (t : ThreadId) (pc : Pc) : Prop :=
  ∀ o pcb', s'.heap o = some pcb' →
    (∀ name, (pcb'.sem name).queue = []) ∨ ∃ pcb, s.heap o = some pcb ∧
      pcb'.deleted = pcb.deleted ∧ ∀ name, ∀ u ∈ (pcb'.sem name).queue,
        u ∈ (pcb.sem name).queue ∨ (u = t ∧ pc.waits = some (o, name) ∧ pcb.deleted = false)

theorem Queues.refl (pc : Pc) : Queues s s t pc :=
  fun _ pcb hp => .inr ⟨pcb, hp, rfl, fun _ _ hu => .inl hu⟩

/-- One PCB is written. -/
theorem Queues.of_update {pc : Pc} {o : ProcessNumber} {pcb new : PCB}
    (hheap : s'.heap = Function.update s.heap o (some new)) (hl : s.live o = some pcb)
    (hdeleted : new.deleted = pcb.deleted)
    (hqueue : ∀ name, ∀ u ∈ (new.sem name).queue,
      u ∈ (pcb.sem name).queue ∨ (u = t ∧ pc.waits = some (o, name))) : Queues s s' t pc := by
  obtain ⟨hp, hlive⟩ := State.live_eq_some_iff.mp hl
  intro u pcb' hu
  rw [hheap] at hu
  rcases update_some_cases hu with ⟨rfl, rfl⟩ | ⟨-, hu⟩
  · refine .inr ⟨pcb, hp, hdeleted, ?_⟩
    intro name v hv
    rcases hqueue name v hv with hv | ⟨hv, hw⟩
    · exact .inl hv
    · exact .inr ⟨hv, hw, hlive⟩
  · exact .inr ⟨pcb', hu, rfl, fun _ _ hv => .inl hv⟩

/-- Only one semaphore of the PCB changes. -/
theorem forall_sem {P : SemName → Semaphore → Prop} {q : PCB} {sem : Semaphore} {name : SemName}
    (hsem : P name sem) (hrest : ∀ name, P name (q.sem name)) (name' : SemName) :
    P name' ((q.setSem sem name).sem name') := by
  cases name <;> cases name' <;> first | exact hsem | exact hrest _

theorem Queues.of_turn {pc done retry : Pc} {o : ProcessNumber} {pcb : PCB} {sem : Semaphore}
    (name : SemName) (hheap : s'.heap = Function.update s.heap o (some (pcb.setSem sem name)))
    (hl : s.live o = some pcb) (hturn : Turn (pcb.sem name) t done retry sem pc)
    (hretry : retry.waits = some (o, name)) : Queues s s' t pc := by
  refine .of_update hheap hl (by cases name <;> rfl) ?_
  refine forall_sem (P := fun name' sem' => ∀ u ∈ sem'.queue,
    u ∈ (pcb.sem name').queue ∨ (u = t ∧ pc.waits = some (o, name'))) ?_ fun _ _ hu => .inl hu
  intro u hu
  rcases hturn.queue hu with hu | ⟨hu, rfl⟩
  · exact .inl hu
  · exact .inr ⟨hu, hretry⟩

theorem Queues.of_V {pc : Pc} {o : ProcessNumber} {pcb : PCB} {n : ℕ} (name : SemName)
    (hheap : s'.heap = Function.update s.heap o
      (some ({ pcb with numwait := n }.setSem (pcb.sem name).V.2 name)))
    (hl : s.live o = some pcb) : Queues s s' t pc := by
  refine .of_update hheap hl (by cases name <;> rfl) ?_
  refine forall_sem (q := { pcb with numwait := n }) (P := fun name' sem' => ∀ u ∈ sem'.queue,
    u ∈ (pcb.sem name').queue ∨ (u = t ∧ pc.waits = some (o, name'))) ?_ ?_
  · exact fun _ hu => .inl (queue_V hu)
  · intro name' u hu
    exact .inl (by cases name' <;> exact hu)

/-- Queues after a step that begins with a write to no queue. -/
theorem Queues.of_same (mid : State) {pc : Pc}
    (hsame : ∀ o pcb', mid.heap o = some pcb' → ∃ pcb, s.heap o = some pcb ∧
      pcb'.deleted = pcb.deleted ∧ ∀ name, pcb'.sem name = pcb.sem name)
    (hq : Queues mid s' t pc) : Queues s s' t pc := by
  intro o pcb' hp'
  rcases hq o pcb' hp' with hempty | ⟨pcb₁, hp₁, hd₁, hqueue⟩
  · exact .inl hempty
  · obtain ⟨pcb, hp, hd, hsem⟩ := hsame o pcb₁ hp₁
    refine .inr ⟨pcb, hp, hd₁.trans hd, ?_⟩
    intro name u hu
    rw [← hsem name, ← hd]
    exact hqueue name u hu

namespace QueueInv

theorem advance (h : QueueInv s) (pc : Pc)
    (hawake : ∀ o pcb name, s.heap o = some pcb → t ∉ (pcb.sem name).queue)
    (hself : s'.thread t = some { th with pc })
    (hthread : ∀ u, u ≠ t → s'.thread u = s.thread u ∨
      (s.thread u = none ∧ ∃ new, s'.thread u = some new ∧ new.pc.waits = none))
    (hlock : ∀ pid parent, pc = .joinLock pid parent → parent = t)
    (hq : Queues s s' t pc) : QueueInv s' := by
  constructor
  · intro o pcb' name u hp' hu
    rcases hq o pcb' hp' with hempty | ⟨pcb, hp, -, hqueue⟩
    · rw [hempty name] at hu
      cases hu
    · rcases hqueue name u hu with hold | ⟨rfl, hw, -⟩
      · obtain ⟨uh, hu, hw⟩ := h.queued o pcb name u hp hold
        have hut : u ≠ t := by
          rintro rfl
          exact hawake o pcb name hp hold
        rcases hthread u hut with heq | ⟨hnone, -⟩
        · exact ⟨uh, heq.trans hu, hw⟩
        · rw [hnone] at hu
          cases hu
      · exact ⟨_, hself, hw⟩
  · intro u uh pid parent hu hpc
    by_cases hut : u = t
    · subst hut
      rw [hself] at hu
      cases hu
      exact hlock pid parent hpc
    · rcases hthread u hut with heq | ⟨-, new, hnew, hnone⟩
      · exact h.lock u uh pid parent (heq ▸ hu) hpc
      · rw [hnew] at hu
        cases hu
        rw [hpc] at hnone
        cases hnone
  · intro o pcb' hp' hd
    rcases hq o pcb' hp' with hempty | ⟨pcb, hp, hd', hqueue⟩
    · exact hempty
    · rw [hd'] at hd
      intro name
      rw [List.eq_nil_iff_forall_not_mem]
      intro u hu
      rcases hqueue name u hu with hold | ⟨-, -, hlive⟩
      · rw [h.deleted o pcb hp hd name] at hold
        cases hold
      · rw [hd] at hlive
        cases hlive

/-- A step of one thread. -/
theorem setPc (h : QueueInv s) {pc : Pc}
    (hawake : ∀ o pcb name, s.heap o = some pcb → t ∉ (pcb.sem name).queue)
    (hthread : s'.thread = Function.update s.thread t (some { th with pc }))
    (hlock : ∀ pid parent, pc = .joinLock pid parent → parent = t)
    (hq : Queues s s' t pc) : QueueInv s' := by
  refine h.advance pc hawake (by rw [hthread, Function.update_self]) ?_ hlock hq
  intro u hut
  exact .inl (by rw [hthread, Function.update_of_ne hut])

/-- Nobody waits for a semaphore of a process that comes to `Remove`. -/
theorem unwatched (h : QueueInv s) (ht : TableInv s) (hj : JoinInv s) {l : Label}
    (hallow : RemovesUnused s l) (hth : s.thread l.thread = some th) (hpc : th.pc = .exitRemove)
    {pcb : PCB} (hp : s.heap l.thread = some pcb) : pcb.Unwatched := by
  obtain ⟨own, -, -, hslot⟩ := ht.own_entry hth (by simp [hpc])
  have hmeets := hj.slot own l.thread pcb hslot hp
  rw [stage_of_thread hth, hpc] at hmeets
  have hother {u : ThreadId} {uh : Thread} (hu : s.thread u = some uh) (hut : l.thread = u) :
      uh.pc = .exitRemove := by
    subst hut
    rw [hth] at hu
    cases hu
    exact hpc
  intro name
  rw [List.eq_nil_iff_forall_not_mem]
  intro u hmem
  obtain ⟨uh, hu, hw⟩ := h.queued l.thread pcb name u hp hmem
  cases huc : uh.pc <;> rw [huc] at hw <;> cases hw
  case execLock call index =>
    -- a process that has not been forked does not exit
    obtain ⟨-, hnone, -⟩ := ht.creating u uh index l.thread hu (by rw [huc]; rfl)
    rw [hth] at hnone
    cases hnone
  case joinLock pid =>
    have := hother hu (h.lock u uh pid l.thread hu huc)
    rw [huc] at this
    cases this
  case joinWait pid =>
    obtain ⟨h0, -, hi⟩ := State.entry_eq_some_iff.mp (hj.child u uh pid l.thread hu huc)
    refine hmeets.2.2.2 ⟨u, uh, hu, ?_⟩
    rw [← ht.slot_unique hi hslot, huc, Int.toNat_of_nonneg h0]
    rfl
  case exitLock => exact (hallow th hth hpc u (ht.thread_lt hu) uh hu).1 huc
  case exitWait =>
    have := hother hu (hj.self u uh l.thread hu huc)
    rw [huc] at this
    cases this

theorem move (h : QueueInv s) (ht : TableInv s) (hj : JoinInv s) {l : Label}
    (hallow : RemovesUnused s l) (hth : s.thread l.thread = some th)
    (hawake : ∀ o pcb name, s.heap o = some pcb → l.thread ∉ (pcb.sem name).queue)
    (hm : Move s l.thread th l.input s') : QueueInv s' := by
  have hown := ht.own l.thread th hth
  cases hm with
  | stop status _ => exact ⟨h.queued, h.lock, h.deleted⟩
  | run hpc => exact h.setPc hawake rfl (by simp) (.refl _)
  | giveUp argv env hpc hi hr => exact h.setPc hawake rfl (by simp) (.refl _)
  | execCall call hpc bmsem pc hturn =>
    refine h.setPc hawake rfl ?_ (.refl _)
    rcases hturn.pc_cases with rfl | rfl <;> simp
  | execWake call hpc bmsem pc hturn =>
    refine h.setPc hawake rfl ?_ (.refl _)
    rcases hturn.pc_cases with rfl | rfl <;> simp
  | execRefuse call opened hpc hi hr => exact h.setPc hawake rfl (by simp) (.refl _)
  | execAllocate call name index rest hpc hi hname hother hfree =>
    refine h.setPc hawake rfl (by simp) ?_
    intro o pcb' hp'
    rcases update_some_cases hp' with ⟨rfl, rfl⟩ | ⟨-, hp'⟩
    · exact .inl fun name => by cases name <;> rfl
    · exact .inr ⟨pcb', hp', rfl, fun _ _ hu => .inl hu⟩
  | execLock call index child hpc pcb hl sem pc hturn =>
    refine h.setPc hawake rfl ?_ (.of_turn .multex rfl hl hturn rfl)
    rcases hturn.pc_cases with rfl | rfl <;> simp
  | execFork call index child tail hpc pcb hl =>
    obtain ⟨-, hnone, -⟩ := ht.creating l.thread th index child hth (by rw [hpc]; rfl)
    refine h.advance (.execUnlock call index child) hawake (Function.update_self ..) ?_
      (by simp) (.of_update rfl hl rfl fun name u hu => .inl (by cases name <;> exact hu))
    intro u hut
    by_cases huc : u = child
    · subst huc
      refine .inr ⟨hnone, _, (Function.update_of_ne hut _ _).trans (Function.update_self ..), ?_⟩
      unfold State.newThread
      cases call.kind <;> rfl
    · exact .inl ((Function.update_of_ne hut _ _).trans (Function.update_of_ne huc _ _))
  | execUnlock call index child hpc pcb hl =>
    exact h.setPc hawake rfl (by simp) (.of_V .multex rfl hl)
  | execLeave call index child value hpc hvalue => exact h.setPc hawake rfl (by simp) (.refl _)
  | execReturn value hpc => exact h.setPc hawake rfl (by simp) (.refl _)
  | joinRefuse pid hpc => exact h.setPc hawake rfl (by simp) (.refl _)
  | joinPass pid hpc hi child he pcb hl hp parent hparent ppcb hpl sem pc hturn =>
    refine h.setPc hawake rfl ?_ (.of_turn .multex rfl hpl hturn rfl)
    rw [hp, hown (by simp [hpc])] at hparent
    cases hparent
    rcases hturn.pc_cases with rfl | rfl <;> simp
  | joinLock pid parent hpc pcb hl sem pc hturn =>
    refine h.setPc hawake rfl ?_ (.of_turn .multex rfl hl hturn rfl)
    have := h.lock l.thread th pid parent hth hpc
    rcases hturn.pc_cases with rfl | rfl <;> simp [this]
  | joinInc pid parent hpc pcb hl =>
    exact h.setPc hawake rfl (by simp) (.of_V (n := pcb.numwait + 1) .multex rfl hl)
  | joinWait pid child hpc pcb hl sem pc hturn =>
    refine h.setPc hawake rfl ?_ (.of_turn .joinsem rfl hl hturn rfl)
    rcases hturn.pc_cases with rfl | rfl <;> simp
  | joinRead pid hpc child he pcb hl =>
    exact h.setPc hawake rfl (by simp) (.of_V .exitsem rfl hl)
  | joinReturn value hpc => exact h.setPc hawake rfl (by simp) (.refl _)
  | exitCall exitCode hpc hid self he pcb hl parent hparent ppcb hpl sem pc hturn =>
    refine h.setPc hawake rfl ?_ (.of_same
      (s.setPCB self { pcb with exitcode := exitCode }) ?_
      (.of_turn .multex rfl hpl hturn rfl))
    · rcases hturn.pc_cases with rfl | rfl <;> simp
    · intro o pcb' hp'
      rcases update_some_cases hp' with ⟨rfl, rfl⟩ | ⟨-, hp'⟩
      · exact ⟨pcb, (State.live_eq_some_iff.mp hl).1, rfl, fun name => by cases name <;> rfl⟩
      · exact ⟨pcb', hp', rfl, fun _ => rfl⟩
  | exitLock parent hpc pcb hl sem pc hturn =>
    refine h.setPc hawake rfl ?_ (.of_turn .multex rfl hl hturn rfl)
    rcases hturn.pc_cases with rfl | rfl <;> simp
  | exitDec parent hpc pcb hl =>
    exact h.setPc hawake rfl (by simp) (.of_V (n := pcb.numwait - 1) .multex rfl hl)
  | exitRelease hpc self he pcb hl =>
    exact h.setPc hawake rfl (by simp) (.of_V .joinsem rfl hl)
  | exitWait self hpc pcb hl sem pc hturn =>
    refine h.setPc hawake rfl ?_ (.of_turn .exitsem rfl hl hturn rfl)
    rcases hturn.pc_cases with rfl | rfl <;> simp
  | remove hpc bm hbm self he pcb hl hthread =>
    obtain rfl := ht.removed_self hth hpc he
    have hunwatched := h.unwatched ht hj hallow hth hpc (State.live_eq_some_iff.mp hl).1
    refine h.setPc hawake rfl (by simp) ?_
    intro o pcb' hp'
    rcases update_some_cases hp' with ⟨rfl, rfl⟩ | ⟨-, hp'⟩
    · exact .inl fun name => (by cases name <;> rfl : _ = (pcb.sem name).queue).trans
        (hunwatched name)
    · exact .inr ⟨pcb', hp', rfl, fun _ _ hu => .inl hu⟩
  | removeStray hpc s' hstray => exact (ht.not_stray hth hpc hstray).elim

end QueueInv

theorem Initial.queueInv (h : Initial s) : QueueInv s := by
  have hheap {o : ProcessNumber} {pcb : PCB} (hp : s.heap o = some pcb) : pcb = PCB.new 0 0 := by
    rw [h.heap] at hp
    rcases update_some_cases hp with ⟨-, hp⟩ | ⟨-, hp⟩
    · exact hp
    · cases hp
  have hempty (name : SemName) : ((PCB.new 0 0).sem name).queue = [] := by cases name <;> rfl
  constructor
  · intro o pcb name u hp hu
    rw [hheap hp, hempty] at hu
    cases hu
  · intro u uh pid parent hu hpc
    rw [h.thread] at hu
    rcases update_some_cases hu with ⟨-, rfl⟩ | ⟨-, hu⟩
    · cases hpc
    · cases hu
  · intro o pcb hp _
    rw [hheap hp]
    exact hempty

/-- Joins find children that no join has released, and removals PCBs that are not in use. -/
def Orderly (s : State) (l : Label) : Prop := JoinsUnreleased s l ∧ RemovesUnused s l

instance (s : State) (l : Label) : Decidable (Orderly s l) :=
  inferInstanceAs (Decidable (_ ∧ _))

theorem queueInv_reach {s₀ : State} (h₀ : initial = some s₀)
    (h : Runs.Reach step Orderly s₀ s) : TableInv s ∧ JoinInv s ∧ QueueInv s := by
  have hi := initial_spec h₀
  have hall : (TableInv s ∧ CodeInv s ∧ JoinInv s) ∧ QueueInv s := by
    refine h.invariant (P := fun s => (TableInv s ∧ CodeInv s ∧ JoinInv s) ∧ QueueInv s)
      ⟨⟨hi.tableInv, hi.codeInv, hi.joinInv⟩, hi.queueInv⟩ ?_
    rintro s l s' ⟨⟨ht, hc, hj⟩, hq⟩ ha hs
    obtain ⟨th, -, hth, hm⟩ := step_move hs
    refine ⟨⟨ht.move hth hm.table, hc.move ht hth hm.hand, hj.move ht hc hth ha.1 hm.hand⟩,
      hq.move ht hj ha.2 hth ?_ hm⟩
    intro o pcb name hp hmem
    obtain ⟨uh, hu, hw⟩ := hq.queued o pcb name l.thread hp hmem
    rw [hth] at hu
    cases hu
    exact step_awake hs hth hw hp hmem
  exact ⟨hall.1.1, hall.1.2.2, hall.2⟩

/-- Only `Remove` deletes a PCB, and only the one of the thread that runs it. -/
theorem deletes_own (ht : TableInv s) (hth : s.thread t = some th)
    (hm : TableMove s t th input s') {o : ProcessNumber} {pcb : PCB} (hl : s.live o = some pcb)
    (hnone : s'.live o = none) : th.pc = .exitRemove ∧ o = t := by
  obtain ⟨hp, hd⟩ := State.live_eq_some_iff.mp hl
  have hgone {pcb' : PCB} (hp' : s'.heap o = some pcb') (hd' : pcb'.deleted = false) : False := by
    rw [State.live_eq_some_iff.mpr ⟨hp', hd'⟩] at hnone
    cases hnone
  cases hm with
  | stop status _ => exact (hgone hp hd).elim
  | quiet s' pc hq =>
    obtain ⟨pcb', hp', hid⟩ := exists_of_map (hq.heap o) hp
    simp only [PCB.identity, Prod.mk.injEq] at hid
    exact (hgone hp' (hid.2.2.2.trans hd)).elim
  | allocate call index rest multex checks hpc hfree =>
    exact (hgone ((Function.update_of_ne (ht.heap_lt hp).ne _ _).trans hp) hd).elim
  | fork call index child tail hpc pcb' hl' =>
    by_cases ho : o = child
    · subst ho
      exact (hgone (Function.update_self ..) (State.live_eq_some_iff.mp hl').2).elim
    · exact (hgone ((Function.update_of_ne ho _ _).trans hp) hd).elim
  | remove hpc bm hbm self he pcb' hl' =>
    refine ⟨hpc, ?_⟩
    obtain rfl := ht.removed_self hth hpc he
    by_contra ho
    exact hgone ((Function.update_of_ne ho _ _).trans hp) hd
  | stray s' hpc hstray => exact (ht.not_stray hth hpc hstray).elim

/-- In an orderly run nobody waits for a semaphore of a PCB when it is deleted, nor ever after. -/
theorem removed_unwatched {s₀ : State} (h₀ : initial = some s₀)
    (h : Runs.Reach step Orderly s₀ s) :
    (∀ o pcb, s.heap o = some pcb → pcb.deleted = true → pcb.Unwatched) ∧
      ∀ l s' o pcb, Orderly s l → step s l = some s' → s.live o = some pcb →
        s'.live o = none → pcb.Unwatched := by
  obtain ⟨ht, hj, hq⟩ := queueInv_reach h₀ h
  refine ⟨hq.deleted, ?_⟩
  intro l s' o pcb ha hs hl hnone
  obtain ⟨th, -, hth, hm⟩ := step_move hs
  obtain ⟨hpc, rfl⟩ := deletes_own ht hth hm.table hl hnone
  exact hq.unwatched ht hj ha.2 hth hpc (State.live_eq_some_iff.mp hl).1

end

/-- The main thread joins "a" once, and "a" is removed. -/
def joinAndRemove : List Label := joinAfterExit ++ goSteps 1 2

theorem removed_unwatched_joinAndRemove : ∃ s₀ s pcb, initial = some s₀ ∧
    Runs.Reach step Orderly s₀ s ∧ s.heap 1 = some pcb ∧ pcb.deleted = true ∧ pcb.Unwatched := by
  have hrun : (initial.bind fun s₀ => (Runs.execIf step Orderly s₀ joinAndRemove).bind fun s =>
      (s.heap 1).map fun pcb => pcb.deleted) = some true := by
    decide +kernel
  obtain ⟨s₀, h₀, hrun⟩ := Option.bind_eq_some_iff.mp hrun
  obtain ⟨s, hs, hrun⟩ := Option.bind_eq_some_iff.mp hrun
  obtain ⟨pcb, hp, hd⟩ := Option.map_eq_some_iff.mp hrun
  have hr := Runs.reach_of_execIf hs
  exact ⟨s₀, s, pcb, h₀, hr, hp, hd, (removed_unwatched h₀ hr).1 1 pcb hp hd⟩

/-- The main thread joins "a" a second time before "a" comes to `Remove`. -/
def joinAgain : List Label :=
  joinAfterExit ++ [⟨0, .join 1⟩] ++ goSteps 0 2 ++ goSteps 1 1

/-- The PCB of process 1 is deleted with the main thread asleep on its `joinsem`. -/
theorem joinAgain_deletes_watched : ∃ s₀ s s' pcb, initial = some s₀ ∧
    Runs.Reach step (fun _ _ => True) s₀ s ∧ step s ⟨1, .go⟩ = some s' ∧ s.live 1 = some pcb ∧
    s'.live 1 = none ∧ pcb.joinsem.queue = [0] ∧ ¬ pcb.Unwatched := by
  have hrun : (initial.bind fun s₀ => (Runs.exec step s₀ joinAgain).bind fun s =>
      (step s ⟨1, .go⟩).bind fun s' => (s.live 1).map fun pcb =>
        decide (s'.live 1 = none ∧ pcb.joinsem.queue = [0])) = some true := by
    decide +kernel
  obtain ⟨s₀, h₀, hrun⟩ := Option.bind_eq_some_iff.mp hrun
  obtain ⟨s, hs, hrun⟩ := Option.bind_eq_some_iff.mp hrun
  obtain ⟨s', hs', hrun⟩ := Option.bind_eq_some_iff.mp hrun
  obtain ⟨pcb, hl, hd⟩ := Option.map_eq_some_iff.mp hrun
  obtain ⟨hnone, hqueue⟩ := of_decide_eq_true hd
  refine ⟨s₀, s, s', pcb, h₀, Runs.reach_of_exec hs, hs', hl, hnone, hqueue, ?_⟩
  intro hunwatched
  have := hunwatched .joinsem
  rw [show (pcb.sem .joinsem).queue = [0] from hqueue] at this
  cases this

end Nachos.PTable

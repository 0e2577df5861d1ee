import Nachos.Threads.PTableInvariants

/-! What a call of `ExecUpdate` or `ExecV` has done when it returns, whatever other
threads did meanwhile. The trace names the thread behind each event, so the events of a
thread since it entered the call are its own steps. -/
namespace Nachos.PTable

def Event.actor : Event → ThreadId
  | .execCalled t _ | .execChecked t _ | .slotTaken t _ _ | .forked t _ | .bmsemReleased t
  | .execReturned t _ | .joinPassed t _ _ | .joinRefused t _ | .codeRead t _ | .joinReturned t _
  | .exitCalled t _ | .removed t _ _ | .threadFinished t => t

def Event.isExecCall : Event → Bool
  | .execCalled _ _ => true
  | _ => false

/-- The events of `t` since its last event that passes the test, the last one first. -/
def ownSince (start : Event → Bool) (t : ThreadId) : List Event → List Event
  | [] => []
  | e :: es =>
    if e.actor = t then
      if start e then [e] else e :: ownSince start t es
    else ownSince start t es

/-- The reasons to refuse a call. -/
def Checks.Refuses (checks : Checks) : Prop :=
  checks.name = none ∨ checks.name = some checks.current ∨ checks.opened = false ∨
    checks.free = []

/-- The own steps of a call that returns `value`: refused, it has only released `bmsem`;
else it has taken the least free slot, forked once and then released `bmsem`. -/
inductive ExecOutcome (t : ThreadId) : List Event → ℤ → Prop
  | refused (call : ExecCall) (checks : Checks) (hname : checks.name = call.name)
      (h : checks.Refuses) : ExecOutcome t
        [.bmsemReleased t, .execChecked t checks, .execCalled t call] (-1)
  | forked (call : ExecCall) (checks : Checks) (hname : checks.name = call.name)
      (h : ¬ checks.Refuses) (index : ℕ) (rest : List ℕ) (hfree : checks.free = index :: rest)
      (child : ProcessNumber) : ExecOutcome t
        [.bmsemReleased t, .forked t child, .slotTaken t index child, .execChecked t checks,
          .execCalled t call] index

/-- Accepted checks, with the slot they give. -/
structure Accepted (call : ExecCall) (checks : Checks) (index : ℕ) : Prop where
  name : checks.name = call.name
  not_refuses : ¬ checks.Refuses
  least : ∃ rest, checks.free = index :: rest

/-- What a thread inside a call has done in it so far. -/
def CallShape (t : ThreadId) (events : List Event) : Pc → Prop
  | .execEnter call | .execCheck call => events = [.execCalled t call]
  | .execLock call index child | .execFork call index child => ∃ checks,
    Accepted call checks index ∧
    events = [.slotTaken t index child, .execChecked t checks, .execCalled t call]
  | .execUnlock call index child | .execLeave call index child => ∃ checks,
    Accepted call checks index ∧ events =
      [.forked t child, .slotTaken t index child, .execChecked t checks, .execCalled t call]
  | .execReturn value => ExecOutcome t events value
  | _ => True

structure ExecInv (s : State) : Prop where
  shape : ∀ t th, s.thread t = some th → CallShape t (ownSince Event.isExecCall t s.trace) th.pc
  returned : ∀ t value es, .execReturned t value :: es <:+ s.trace →
    ExecOutcome t (ownSince Event.isExecCall t es) value

theorem ownSince_append_of_other {start : Event → Bool} {u : ThreadId} {es tr : List Event}
    (h : ∀ e ∈ es, e.actor ≠ u) : ownSince start u (es ++ tr) = ownSince start u tr := by
  induction es with
  | nil => rfl
  | cons e es ih =>
    rw [List.cons_append, ownSince, if_neg (h e List.mem_cons_self)]
    exact ih fun e' he' => h e' (List.mem_cons_of_mem e he')

theorem ownSince_cons_self {start : Event → Bool} (t : ThreadId) (e : Event) (tr : List Event)
    (ha : e.actor = t) (hc : start e = false) :
    ownSince start t (e :: tr) = e :: ownSince start t tr := by
  simp [ownSince, ha, hc]

theorem ownSince_cons_start {start : Event → Bool} (t : ThreadId) (e : Event) (tr : List Event)
    (ha : e.actor = t) (hc : start e = true) : ownSince start t (e :: tr) = [e] := by
  simp [ownSince, ha, hc]

section

variable {s s' : State} {t : ThreadId} {th : Thread}

/-- A step of `t` keeps the invariant when `t` is left in shape. -/
theorem ExecInv.advance (h : ExecInv s) (es : List Event) (pc : Pc)
    (htrace : s'.trace = es ++ s.trace) (hactor : ∀ e ∈ es, e.actor = t)
    (hthread : ∀ u uh, s'.thread u = some uh → (u = t ∧ uh.pc = pc) ∨
      (u ≠ t ∧ (s.thread u = some uh ∨ ∀ events, CallShape u events uh.pc)))
    (hshape : CallShape t (ownSince Event.isExecCall t (es ++ s.trace)) pc)
    (hreturned : ∀ u value rest, .execReturned u value :: rest <:+ es ++ s.trace →
      (.execReturned u value :: rest <:+ s.trace ∨
        ExecOutcome u (ownSince Event.isExecCall u rest) value)) :
    ExecInv s' := by
  constructor
  · intro u uh hu
    rw [htrace]
    rcases hthread u uh hu with ⟨rfl, rfl⟩ | ⟨hut, hu | hu⟩
    · exact hshape
    · rw [ownSince_append_of_other fun e he hau => hut (hau.symm.trans (hactor e he))]
      exact h.shape u uh hu
    · exact hu _
  · intro u value rest hr
    rw [htrace] at hr
    rcases hreturned u value rest hr with hold | hnew
    · exact h.returned u value rest hold
    · exact hnew

/-- An event that a step does not log was logged before it, with the same history. -/
theorem suffix_of_not_mem {e : Event} {es tr rest : List Event} (h : e ∉ es)
    (hr : e :: rest <:+ es ++ tr) : e :: rest <:+ tr := by
  induction es with
  | nil => exact hr
  | cons e' es ih =>
    rw [List.cons_append, List.suffix_cons_iff] at hr
    rcases hr with heq | hr
    · exact absurd ((List.cons.inj heq).1 ▸ List.mem_cons_self) h
    · exact ih (fun hm => h (List.mem_cons_of_mem e' hm)) hr

theorem thread_cases_setPc {pc : Pc} {thread : ThreadId → Option Thread}
    (hthread : s'.thread = Function.update thread t (some { th with pc })) {u : ThreadId}
    {uh : Thread} (hu : s'.thread u = some uh) :
    (u = t ∧ uh.pc = pc) ∨ (u ≠ t ∧ (thread u = some uh ∨ ∀ events, CallShape u events uh.pc)) := by
  rw [hthread] at hu
  rcases update_some_cases hu with ⟨rfl, rfl⟩ | ⟨hut, hu⟩
  · exact .inl ⟨rfl, rfl⟩
  · exact .inr ⟨hut, .inl hu⟩

/-- Steps that end outside `Exec`, or inside it without an event. -/
theorem ExecInv.silent (h : ExecInv s) (es : List Event) {pc : Pc}
    (htrace : s'.trace = es ++ s.trace) (hactor : ∀ e ∈ es, e.actor = t)
    (hthread : s'.thread = Function.update s.thread t (some { th with pc }))
    (hreturn : ∀ u value, .execReturned u value ∉ es)
    (hshape : CallShape t (ownSince Event.isExecCall t (es ++ s.trace)) pc) : ExecInv s' :=
  h.advance es pc htrace hactor (fun _ _ => thread_cases_setPc hthread) hshape
    fun _ _ _ hr => .inl (suffix_of_not_mem (hreturn _ _) hr)

theorem ExecInv.move (h : ExecInv s) (ht : TableInv s) {input : Input} (hth : s.thread t = some th)
    (hm : Move s t th input s') : ExecInv s' := by
  have hshape := h.shape t th hth
  cases hm with
  | stop status _ => exact ⟨h.shape, h.returned⟩
  | run hpc => exact h.silent [] rfl (by simp) rfl (by simp) trivial
  | giveUp argv env hpc hi hr =>
    exact h.silent [_] rfl (by simp [Event.actor]) rfl (by simp) trivial
  | execCall call hpc bmsem pc hturn =>
    refine h.silent [_] rfl (by simp [Event.actor]) rfl (by simp) ?_
    rcases hturn.pc_cases with rfl | rfl <;>
      simp [CallShape, ownSince, Event.actor, Event.isExecCall]
  | execWake call hpc bmsem pc hturn =>
    rw [hpc] at hshape
    refine h.silent [] rfl (by simp) rfl (by simp) ?_
    rcases hturn.pc_cases with rfl | rfl
    · exact hshape
    · exact hshape
  | execRefuse call opened hpc hi hr =>
    rw [hpc] at hshape
    refine h.silent [_, _] rfl (by simp [Event.actor]) rfl (by simp) ?_
    rw [List.cons_append, List.singleton_append, ownSince_cons_self t (.bmsemReleased t) _ rfl rfl,
      ownSince_cons_self t (.execChecked t _) _ rfl rfl,
      show ownSince _ t s.trace = [_] from hshape]
    refine .refused call _ rfl ?_
    rw [ht.clearList_eq] at hr
    exact hr
  | execAllocate call name index rest hpc hi hname hother hfree =>
    rw [hpc] at hshape
    refine h.silent [_, _] rfl (by simp [Event.actor]) rfl (by simp) ?_
    rw [List.cons_append, List.singleton_append,
      ownSince_cons_self t (.slotTaken t index s.next) _ rfl rfl,
      ownSince_cons_self t (.execChecked t _) _ rfl rfl,
      show ownSince _ t s.trace = [_] from hshape]
    rw [ht.clearList_eq] at hfree
    refine ⟨_, ⟨rfl, ?_, rest, hfree⟩, rfl⟩
    simp [Checks.Refuses, hname, hother, hfree]
  | execLock call index child hpc pcb hl sem pc hturn =>
    rw [hpc] at hshape
    refine h.silent [] rfl (by simp) rfl (by simp) ?_
    rcases hturn.pc_cases with rfl | rfl
    · exact hshape
    · exact hshape
  | execFork call index child tail hpc pcb hl =>
    rw [hpc] at hshape
    obtain ⟨checks, haccepted, hevents⟩ := hshape
    refine h.advance [.forked t child] (.execUnlock call index child) (t := t) rfl
      (by simp [Event.actor]) ?_ ?_ fun u value rest hr => .inl (suffix_of_not_mem (by simp) hr)
    · intro u uh hu
      rcases thread_cases_setPc rfl hu with hu | ⟨hut, hu | hu⟩
      · exact .inl hu
      · rcases update_some_cases hu with ⟨rfl, rfl⟩ | ⟨-, hu⟩
        · refine .inr ⟨hut, .inr fun events => ?_⟩
          unfold State.newThread
          cases call.kind <;> trivial
        · exact .inr ⟨hut, .inl hu⟩
      · exact .inr ⟨hut, .inr hu⟩
    · rw [List.singleton_append, ownSince_cons_self t (.forked t child) _ rfl rfl, hevents]
      exact ⟨checks, haccepted, rfl⟩
  | execUnlock call index child hpc pcb hl =>
    rw [hpc] at hshape
    exact h.silent [] rfl (by simp) rfl (by simp) hshape
  | execLeave call index child value hpc hvalue =>
    rw [hpc] at hshape
    obtain ⟨checks, haccepted, hevents⟩ := hshape
    have hindex : value = index := by
      rcases hvalue with hv | ⟨pcb, new, hl, hnew, hv⟩
      · exact hv
      · obtain ⟨new', hn', hid⟩ := ht.forkedChild t th index child hth (by rw [hpc]; rfl)
        obtain ⟨u, hu, hnew⟩ := Option.bind_eq_some_iff.mp hnew
        obtain rfl := ht.threadField child pcb u (State.live_eq_some_iff.mp hl).1 hu
        rw [hnew] at hn'
        cases hn'
        exact hv.trans hid
    refine h.silent [_] rfl (by simp [Event.actor]) rfl (by simp) ?_
    rw [List.singleton_append, ownSince_cons_self t (.bmsemReleased t) _ rfl rfl, hevents, hindex]
    obtain ⟨hname, hnot, rest, hfree⟩ := haccepted
    exact .forked call checks hname hnot index rest hfree child
  | execReturn value hpc =>
    rw [hpc] at hshape
    refine h.advance [.execReturned t value] .user (t := t) rfl
      (by simp [Event.actor]) (fun _ _ => thread_cases_setPc rfl) trivial ?_
    intro u value' rest hr
    rw [List.singleton_append, List.suffix_cons_iff] at hr
    rcases hr with heq | hr
    · cases heq
      exact .inr hshape
    · exact .inl hr
  | joinRefuse pid hpc =>
    exact h.silent [_] rfl (by simp [Event.actor]) rfl (by simp) trivial
  | joinPass pid hpc hi child he pcb hl hp parent hparent ppcb hpl sem pc hturn =>
    refine h.silent [_] rfl (by simp [Event.actor]) rfl (by simp) ?_
    rcases hturn.pc_cases with rfl | rfl <;> trivial
  | joinLock pid parent hpc pcb hl sem pc hturn =>
    refine h.silent [] rfl (by simp) rfl (by simp) ?_
    rcases hturn.pc_cases with rfl | rfl <;> trivial
  | joinInc pid parent hpc pcb hl => exact h.silent [] rfl (by simp) rfl (by simp) trivial
  | joinWait pid child hpc pcb hl sem pc hturn =>
    refine h.silent [] rfl (by simp) rfl (by simp) ?_
    rcases hturn.pc_cases with rfl | rfl <;> trivial
  | joinRead pid hpc child he pcb hl =>
    exact h.silent [_] rfl (by simp [Event.actor]) rfl (by simp) trivial
  | joinReturn value hpc =>
    exact h.silent [_] rfl (by simp [Event.actor]) rfl (by simp) trivial
  | exitCall exitCode hpc hid self he pcb hl parent hparent ppcb hpl sem pc hturn =>
    refine h.silent [_] rfl (by simp [Event.actor]) rfl (by simp) ?_
    rcases hturn.pc_cases with rfl | rfl <;> trivial
  | exitLock parent hpc pcb hl sem pc hturn =>
    refine h.silent [] rfl (by simp) rfl (by simp) ?_
    rcases hturn.pc_cases with rfl | rfl <;> trivial
  | exitDec parent hpc pcb hl => exact h.silent [] rfl (by simp) rfl (by simp) trivial
  | exitRelease hpc self he pcb hl =>
    exact h.silent [] rfl (by simp) rfl (by simp) trivial
  | exitWait self hpc pcb hl sem pc hturn =>
    refine h.silent [] rfl (by simp) rfl (by simp) ?_
    rcases hturn.pc_cases with rfl | rfl <;> trivial
  | remove hpc bm hbm self he pcb hl hthread =>
    exact h.silent [_, _] rfl (by simp [Event.actor]) rfl (by simp) trivial
  | removeStray hpc s' hstray => exact (ht.not_stray hth hpc hstray).elim

theorem Initial.execInv (h : Initial s) : ExecInv s := by
  constructor
  · intro t th hth
    rw [h.thread] at hth
    rcases update_some_cases hth with ⟨rfl, rfl⟩ | ⟨-, hth⟩
    · trivial
    · cases hth
  · intro t value es hr
    rw [h.trace] at hr
    exact absurd (List.suffix_nil.mp hr) (by simp)

theorem execInv_reach {allow : State → Label → Prop} {s₀ : State} (h₀ : initial = some s₀)
    (h : Runs.Reach step allow s₀ s) : ExecInv s := by
  have hboth : TableInv s ∧ ExecInv s := by
    refine h.invariant (P := fun s => TableInv s ∧ ExecInv s)
      ⟨(initial_spec h₀).tableInv, (initial_spec h₀).execInv⟩ ?_
    intro s l s' hi _ hs
    obtain ⟨th, -, hth, hm⟩ := step_move hs
    exact ⟨hi.1.move hth hm.table, hi.2.move hi.1 hth hm⟩
  exact hboth.2

/-- The events `es` of one step of `t` account for what it does to the table, to the set of
threads and to `bmsem`. -/
structure Traced (s : State) (t : ThreadId) (input : Input) (s' : State) (es : List Event) :
    Prop where
  trace : s'.trace = es ++ s.trace
  actor : ∀ e ∈ es, e.actor = t
  table : (∀ index o, .slotTaken t index o ∉ es ∧ .removed t index o ∉ es) →
    s'.bm = s.bm ∧ s'.pcb = s.pcb
  threads : (∀ child, .forked t child ∉ es) → ∀ u, (s'.thread u).isSome = (s.thread u).isSome
  bmsem : .bmsemReleased t ∉ es → s'.bmsem.value ≤ s.bmsem.value
  checked : ∀ checks, .execChecked t checks ∈ es → checks.free = s.freeSlots ∧
    input = .check checks.opened ∧ ∃ th, s.thread t = some th ∧ checks.current = th.name
  slotTaken : ∀ index child, .slotTaken t index child ∈ es →
    s.freeSlots.head? = some index ∧ s'.pcb = Function.update s.pcb index (some child) ∧
    ∃ th pcb, s.thread t = some th ∧ s'.live child = some pcb ∧ pcb.parentID = th.processID ∧
      pcb.processID = index
  forked : ∀ child, .forked t child ∈ es → s.thread child = none ∧
    ∀ u, (s'.thread u).isSome = ((s.thread u).isSome || u == child)
  released : .bmsemReleased t ∈ es → s'.bmsem = s.bmsem.V.2

theorem isSome_update {f : ThreadId → Option Thread} {new : Thread} (h : f t = some th)
    (u : ThreadId) : (Function.update f t (some new) u).isSome = (f u).isSome := by
  by_cases hu : u = t
  · subst hu
    rw [Function.update_self, h]
    rfl
  · rw [Function.update_of_ne hu]

/-- Steps that only move their own thread. -/
theorem Traced.of_plain {input : Input} {es : List Event} {pc : Pc} (hth : s.thread t = some th)
    (htrace : s'.trace = es ++ s.trace) (hactor : ∀ e ∈ es, e.actor = t) (hbm : s'.bm = s.bm)
    (hpcb : s'.pcb = s.pcb)
    (hthread : s'.thread = Function.update s.thread t (some { th with pc }))
    (hbmsem : s'.bmsem.value ≤ s.bmsem.value)
    (hes : ∀ e ∈ es, (∀ checks, e ≠ .execChecked t checks) ∧
      (∀ index child, e ≠ .slotTaken t index child) ∧ (∀ child, e ≠ .forked t child) ∧
      e ≠ .bmsemReleased t) : Traced s t input s' es where
  trace := htrace
  actor := hactor
  table _ := ⟨hbm, hpcb⟩
  threads _ u := by rw [hthread, isSome_update hth]
  bmsem _ := hbmsem
  checked checks hc := absurd rfl ((hes _ hc).1 checks)
  slotTaken index child hc := absurd rfl ((hes _ hc).2.1 index child)
  forked child hc := absurd rfl ((hes _ hc).2.2.1 child)
  released hc := absurd rfl (hes _ hc).2.2.2

theorem Turn.value_le {sem sem' : Semaphore} {done retry pc : Pc}
    (h : Turn sem t done retry sem' pc) : sem'.value ≤ sem.value := by
  cases h with
  | entered h => exact Nat.sub_le _ _
  | queued h => exact le_rfl

theorem Move.traced (ht : TableInv s) {input : Input} (hth : s.thread t = some th)
    (hm : Move s t th input s') : ∃ es, Traced s t input s' es := by
  cases hm with
  | stop status _ =>
    refine ⟨[], ⟨rfl, by simp, fun _ => ⟨rfl, rfl⟩, fun _ _ => rfl, fun _ => le_rfl,
      ?_, ?_, ?_, ?_⟩⟩
    all_goals simp
  | run hpc =>
    exact ⟨[], .of_plain hth rfl (by simp) rfl rfl rfl le_rfl (by simp)⟩
  | giveUp argv env hpc hi hr =>
    exact ⟨[_], .of_plain hth rfl (by simp [Event.actor]) rfl rfl rfl le_rfl (by simp)⟩
  | execCall call hpc bmsem pc hturn =>
    exact ⟨[_], .of_plain hth rfl (by simp [Event.actor]) rfl rfl rfl hturn.value_le (by simp)⟩
  | execWake call hpc bmsem pc hturn =>
    exact ⟨[], .of_plain hth rfl (by simp) rfl rfl rfl hturn.value_le (by simp)⟩
  | execRefuse call opened hpc hi hr =>
    refine ⟨[.bmsemReleased t, .execChecked t _], rfl, by simp [Event.actor], fun _ => ⟨rfl, rfl⟩,
      fun _ => isSome_update hth, by simp, ?_, by simp, by simp, fun _ => rfl⟩
    intro checks hc
    simp only [List.mem_cons, reduceCtorEq, Event.execChecked.injEq, true_and, List.not_mem_nil,
      or_false, false_or] at hc
    subst hc
    exact ⟨rfl, hi, th, hth, rfl⟩
  | execAllocate call name index rest hpc hi hname hother hfree =>
    refine ⟨[.slotTaken t index s.next, .execChecked t _], rfl, by simp [Event.actor], ?_,
      fun _ => isSome_update hth, fun _ => le_rfl, ?_, ?_, by simp, by simp⟩
    · intro h
      exact absurd List.mem_cons_self (h index s.next).1
    · intro checks hc
      simp only [List.mem_cons, reduceCtorEq, Event.execChecked.injEq, true_and, List.not_mem_nil,
        or_false, false_or] at hc
      subst hc
      exact ⟨rfl, hi, th, hth, rfl⟩
    · intro i child hc
      simp only [List.mem_cons, reduceCtorEq, Event.slotTaken.injEq, true_and, List.not_mem_nil,
        or_false] at hc
      obtain ⟨rfl, rfl⟩ := hc
      have hi0 : i ≠ 0 := by
        rintro rfl
        have hclear := (Bitmap.mem_clearList.mp (hfree ▸ List.mem_cons_self)).2
        rw [ht.bits 0 (by decide), ht.main] at hclear
        cases hclear
      refine ⟨by rw [← ht.clearList_eq, hfree]; rfl, rfl, th, _, hth,
        State.live_eq_some_iff.mpr ⟨Function.update_self .., rfl⟩, if_neg hi0, rfl⟩
  | execLock call index child hpc pcb hl sem pc hturn =>
    exact ⟨[], .of_plain hth rfl (by simp) rfl rfl rfl le_rfl (by simp)⟩
  | execFork call index child tail hpc pcb hl =>
    obtain ⟨-, hnone, -⟩ := ht.creating t th index child hth (by rw [hpc]; rfl)
    refine ⟨[.forked t child], rfl, by simp [Event.actor], fun _ => ⟨rfl, rfl⟩, ?_,
      fun _ => le_rfl, by simp, by simp, ?_, by simp⟩
    · intro h
      exact absurd List.mem_cons_self (h child)
    · intro child' hc
      simp only [List.mem_cons, Event.forked.injEq, true_and, List.not_mem_nil, or_false] at hc
      subst hc
      refine ⟨hnone, fun u => ?_⟩
      have htc : t ≠ child' := by
        rintro rfl
        rw [hnone] at hth
        cases hth
      have hkept : Function.update s.thread child' (some (State.newThread call index tail)) t =
          some th := (Function.update_of_ne htc _ _).trans hth
      refine (isSome_update hkept u).trans ?_
      by_cases hu : u = child'
      · subst hu
        simp
      · simp [hu]
  | execUnlock call index child hpc pcb hl =>
    exact ⟨[], .of_plain hth rfl (by simp) rfl rfl rfl le_rfl (by simp)⟩
  | execLeave call index child value hpc hvalue =>
    exact ⟨[.bmsemReleased t], rfl, by simp [Event.actor], fun _ => ⟨rfl, rfl⟩,
      fun _ => isSome_update hth, by simp, by simp, by simp, by simp, fun _ => rfl⟩
  | execReturn value hpc =>
    exact ⟨[_], .of_plain hth rfl (by simp [Event.actor]) rfl rfl rfl le_rfl (by simp)⟩
  | joinRefuse pid hpc =>
    exact ⟨[_], .of_plain hth rfl (by simp [Event.actor]) rfl rfl rfl le_rfl (by simp)⟩
  | joinPass pid hpc hi child he pcb hl hp parent hparent ppcb hpl sem pc hturn =>
    exact ⟨[_], .of_plain hth rfl (by simp [Event.actor]) rfl rfl rfl le_rfl (by simp)⟩
  | joinLock pid parent hpc pcb hl sem pc hturn =>
    exact ⟨[], .of_plain hth rfl (by simp) rfl rfl rfl le_rfl (by simp)⟩
  | joinInc pid parent hpc pcb hl =>
    exact ⟨[], .of_plain hth rfl (by simp) rfl rfl rfl le_rfl (by simp)⟩
  | joinWait pid child hpc pcb hl sem pc hturn =>
    exact ⟨[], .of_plain hth rfl (by simp) rfl rfl rfl le_rfl (by simp)⟩
  | joinRead pid hpc child he pcb hl =>
    exact ⟨[_], .of_plain hth rfl (by simp [Event.actor]) rfl rfl rfl le_rfl (by simp)⟩
  | joinReturn value hpc =>
    exact ⟨[_], .of_plain hth rfl (by simp [Event.actor]) rfl rfl rfl le_rfl (by simp)⟩
  | exitCall exitCode hpc hid self he pcb hl parent hparent ppcb hpl sem pc hturn =>
    exact ⟨[_], .of_plain hth rfl (by simp [Event.actor]) rfl rfl rfl le_rfl (by simp)⟩
  | exitLock parent hpc pcb hl sem pc hturn =>
    exact ⟨[], .of_plain hth rfl (by simp) rfl rfl rfl le_rfl (by simp)⟩
  | exitDec parent hpc pcb hl =>
    exact ⟨[], .of_plain hth rfl (by simp) rfl rfl rfl le_rfl (by simp)⟩
  | exitRelease hpc self he pcb hl =>
    exact ⟨[], .of_plain hth rfl (by simp) rfl rfl rfl le_rfl (by simp)⟩
  | exitWait self hpc pcb hl sem pc hturn =>
    exact ⟨[], .of_plain hth rfl (by simp) rfl rfl rfl le_rfl (by simp)⟩
  | remove hpc bm hbm self he pcb hl hthread =>
    refine ⟨[.threadFinished t, .removed t th.processID.toNat self], rfl, by simp [Event.actor], ?_,
      fun _ => isSome_update hth, fun _ => le_rfl, by simp, by simp, by simp, by simp⟩
    intro h
    exact absurd (List.mem_cons_of_mem _ List.mem_cons_self) (h th.processID.toNat self).2
  | removeStray hpc s' hstray => exact (ht.not_stray hth hpc hstray).elim

/-- The bitmap and the entries agree, every PCB in the table carries its slot, and slot 0 is
occupied. -/
structure Consistent (s : State) : Prop where
  bit : ∀ i : ℕ, i < MAX_PROCESS → s.bm.test i = some (s.pcb i).isSome
  processID : ∀ i o, s.pcb i = some o → i < MAX_PROCESS ∧
    ∃ pcb, s.live o = some pcb ∧ pcb.processID = i
  slotZero : (s.pcb 0).isSome = true

theorem TableInv.consistent (h : TableInv s) : Consistent s := by
  refine ⟨?_, ?_, by rw [h.main]; rfl⟩
  · intro i hi
    rw [Bitmap.test_of_lt s.bm hi, h.bits i hi]
  · intro i o hi
    obtain ⟨pcb, hp, hid, hd⟩ := h.object i o hi
    exact ⟨h.range i o hi, pcb, State.live_eq_some_iff.mpr ⟨hp, hd⟩, hid⟩

/-- In every reachable state the table is consistent, every call of `ExecUpdate` or `ExecV`
that has returned did so with one of the two outcomes, and the events of each further step
account for what it does. -/
theorem exec_atomic {s₀ s : State} (h₀ : initial = some s₀)
    (h : Runs.Reach step (fun _ _ => True) s₀ s) :
    Consistent s ∧
    (∀ t value es, .execReturned t value :: es <:+ s.trace →
      ExecOutcome t (ownSince Event.isExecCall t es) value) ∧
    ∀ l s', step s l = some s' → ∃ es, Traced s l.thread l.input s' es := by
  have ht := tableInv_reach h₀ h
  refine ⟨ht.consistent, (execInv_reach h₀ h).returned, ?_⟩
  intro l s' hs
  obtain ⟨th, -, hth, hm⟩ := step_move hs
  exact hm.traced ht hth

end

/-- The main thread starts a program named "a" and gets slot 1. -/
def execOnce : List Label := execSteps 0 .update nameA

theorem exec_atomic_execOnce : ∃ s₀ s, initial = some s₀ ∧
    Runs.Reach step (fun _ _ => True) s₀ s ∧ Consistent s ∧ s.pcb 1 = some 1 ∧
    ∃ es, .execReturned 0 1 :: es <:+ s.trace ∧
      ExecOutcome 0 (ownSince Event.isExecCall 0 es) 1 := by
  have hrun : (initial.bind fun s₀ => (Runs.exec step s₀ execOnce).map fun s =>
      decide (s.pcb 1 = some 1 ∧ s.trace.head? = some (.execReturned 0 1))) = some true := by
    decide +kernel
  obtain ⟨s₀, h₀, hrun⟩ := Option.bind_eq_some_iff.mp hrun
  obtain ⟨s, hs, hd⟩ := Option.map_eq_some_iff.mp hrun
  obtain ⟨hslot, hhead⟩ := of_decide_eq_true hd
  have hr := Runs.reach_of_exec hs
  obtain ⟨hc, hret, -⟩ := exec_atomic h₀ hr
  obtain ⟨es, hes⟩ := List.head?_eq_some_iff.mp hhead
  exact ⟨s₀, s, h₀, hr, hc, hslot, es, hes ▸ List.suffix_rfl, hret _ _ _ (hes ▸ List.suffix_rfl)⟩

end Nachos.PTable

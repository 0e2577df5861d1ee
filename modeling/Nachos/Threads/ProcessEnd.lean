import Nachos.Threads.PTableInvariants

/-! How processes end. `StartProcess_2` has early returns, and what follows the return of a
start routine is `Thread::Finish`, with the PCB still in the table. Every other end of a
process goes through `ExitUpdate`. -/
namespace Nachos.PTable

/-- The step is no start of `StartProcess_2` that returns early. -/
def StartsThrough (s : State) (l : Label) : Prop :=
  ∀ th argv env, s.thread l.thread = some th → th.pc = .start2 argv → l.input = .start env →
    ¬ ReturnsEarly env argv

/-- The condition as a test. -/
def startReturns (s : State) (l : Label) : Bool :=
  match (s.thread l.thread).map Thread.pc, l.input with
  | some (.start2 argv), .start env =>
    match startProcess2 env argv with
    | .returned => true
    | _ => false
  | _, _ => false

theorem startReturns_eq_false_iff (s : State) (l : Label) :
    startReturns s l = false ↔ StartsThrough s l := by
  unfold startReturns StartsThrough
  split
  · next argv env hpc hi =>
    obtain ⟨th, hth, hpc⟩ := Option.map_eq_some_iff.mp hpc
    have hiff : StartsThrough s l ↔ ¬ ReturnsEarly env argv := by
      constructor
      · intro h
        exact h th argv env hth hpc hi
      · intro h th' argv' env' hth' hpc' hi'
        obtain rfl := Option.some.inj (hth.symm.trans hth')
        cases hpc.symm.trans hpc'
        cases hi.symm.trans hi'
        exact h
    refine Iff.trans ?_ hiff.symm
    rw [← startProcess2_returned_iff]
    cases startProcess2 env argv <;> simp
  · next hno =>
    simp only [true_iff]
    intro th argv env hth hpc hi
    exact absurd hi (hno argv env (by rw [hth, Option.map_some, hpc]))

instance (s : State) (l : Label) : Decidable (StartsThrough s l) :=
  decidable_of_iff _ (startReturns_eq_false_iff s l)

/-- A thread that has finished called `ExitUpdate`, removed its PCB and is not in the table. -/
def LeavesThroughExit (s : State) : Prop :=
  ∀ t th, s.thread t = some th → th.pc = .finished →
    (∃ exitCode, .exitCalled t exitCode ∈ s.trace) ∧ (∃ i, .removed t i t ∈ s.trace) ∧
      ∀ i, s.pcb i ≠ some t

structure EndInv (s : State) : Prop where
  exiting : ∀ t th, s.thread t = some th → th.pc.exiting = true →
    ∃ exitCode, .exitCalled t exitCode ∈ s.trace
  finished : LeavesThroughExit s

section

variable {s s' : State} {t : ThreadId} {th : Thread}

/-- A step that adds events and moves threads keeps the invariant when the threads it moves
end up as they should. -/
theorem EndInv.advance (h : EndInv s) (es : List Event) (htrace : s'.trace = es ++ s.trace)
    (hpcb : ∀ i o, s'.pcb i = some o → s.pcb i = some o ∨ s.next ≤ o)
    (hfresh : ∀ u uh, s.thread u = some uh → u < s.next)
    (hthread : ∀ u uh, s'.thread u = some uh → s.thread u = some uh ∨
      ((uh.pc.exiting = true → ∃ exitCode, .exitCalled u exitCode ∈ s'.trace) ∧
        uh.pc ≠ .finished)) : EndInv s' := by
  have hmem {e : Event} (he : e ∈ s.trace) : e ∈ s'.trace := by
    rw [htrace]
    exact List.mem_append_right es he
  constructor
  · intro u uh hu hexit
    rcases hthread u uh hu with hold | hnew
    · obtain ⟨exitCode, hcalled⟩ := h.exiting u uh hold hexit
      exact ⟨exitCode, hmem hcalled⟩
    · exact hnew.1 hexit
  · intro u uh hu hfin
    rcases hthread u uh hu with hold | hnew
    · obtain ⟨⟨exitCode, hcalled⟩, ⟨i, hremoved⟩, hnone⟩ := h.finished u uh hold hfin
      refine ⟨⟨exitCode, hmem hcalled⟩, ⟨i, hmem hremoved⟩, ?_⟩
      intro j hj
      rcases hpcb j u hj with hj | hge
      · exact hnone j hj
      · exact absurd (hfresh u uh hold) (not_lt.mpr hge)
    · exact absurd hfin hnew.2

theorem EndInv.quiet (h : EndInv s) (ht : TableInv s) {l : Label}
    (hth : s.thread l.thread = some th) (hallow : StartsThrough s l) {pc : Pc}
    (hq : Quiet s s' l.thread th l.input pc) : EndInv s' := by
  obtain ⟨es, htrace, -⟩ := hq.trace
  refine h.advance es htrace (fun i o hi => .inl (hq.pcb ▸ hi)) (fun u uh => ht.thread_lt) ?_
  intro u uh hu
  rw [hq.thread] at hu
  rcases update_some_cases hu with ⟨rfl, rfl⟩ | ⟨-, hu⟩
  · refine .inr ⟨?_, ?_⟩
    · intro hexit
      rcases hq.exiting hexit with hold | ⟨-, hcalled⟩
      · obtain ⟨exitCode, hcalled⟩ := h.exiting l.thread th hth hold
        exact ⟨exitCode, htrace ▸ List.mem_append_right es hcalled⟩
      · exact hcalled
    · intro hfin
      obtain ⟨argv, env, hpc, hi, hr⟩ := hq.finished hfin
      exact hallow th argv env hth hpc hi ((startProcess2_returned_iff env argv).mp hr)
  · exact .inl hu

theorem EndInv.remove (h : EndInv s) (ht : TableInv s) {bm : Bitmap MAX_PROCESS}
    {heap : ProcessNumber → Option PCB} (hth : s.thread t = some th) (hpc : th.pc = .exitRemove) :
    EndInv ({ s with
      bm
      pcb := Function.update s.pcb th.processID.toNat none
      heap
      trace := .threadFinished t :: .removed t th.processID.toNat t :: s.trace }.setPc t th
        .finished) := by
  have hmem {e : Event} (he : e ∈ s.trace) :
      e ∈ Event.threadFinished t :: .removed t th.processID.toNat t :: s.trace :=
    List.mem_cons_of_mem _ (List.mem_cons_of_mem _ he)
  obtain ⟨own, -, hown, hslot⟩ := ht.own_entry hth (by simp [hpc])
  constructor
  · intro u uh hu hexit
    rcases update_some_cases hu with ⟨rfl, rfl⟩ | ⟨-, hu⟩
    · cases hexit
    · obtain ⟨exitCode, hcalled⟩ := h.exiting u uh hu hexit
      exact ⟨exitCode, hmem hcalled⟩
  · intro u uh hu hfin
    rcases update_some_cases hu with ⟨rfl, rfl⟩ | ⟨-, hu⟩
    · obtain ⟨exitCode, hcalled⟩ := h.exiting u th hth (by rw [hpc]; rfl)
      refine ⟨⟨exitCode, hmem hcalled⟩, ⟨th.processID.toNat, by simp⟩, ?_⟩
      intro i hi
      obtain ⟨hne, hi⟩ := update_none_cases hi
      exact hne (by rw [ht.slot_unique hi hslot]; omega)
    · obtain ⟨⟨exitCode, hcalled⟩, ⟨i, hremoved⟩, hnone⟩ := h.finished u uh hu hfin
      exact ⟨⟨exitCode, hmem hcalled⟩, ⟨i, hmem hremoved⟩,
        fun j hj => hnone j (update_none_cases hj).2⟩

theorem EndInv.move (h : EndInv s) (ht : TableInv s) {l : Label}
    (hth : s.thread l.thread = some th) (hallow : StartsThrough s l)
    (hm : TableMove s l.thread th l.input s') : EndInv s' := by
  cases hm with
  | stop status _ => exact ⟨h.exiting, h.finished⟩
  | quiet s' pc hq => exact h.quiet ht hth hallow hq
  | allocate call index rest multex checks hpc hfree =>
    refine h.advance [_, _] rfl ?_ (fun u uh => ht.thread_lt) ?_
    · intro i o hi
      rcases update_some_cases hi with ⟨-, rfl⟩ | ⟨-, hi⟩
      · exact .inr le_rfl
      · exact .inl hi
    · intro u uh hu
      rcases update_some_cases hu with ⟨rfl, rfl⟩ | ⟨-, hu⟩
      · exact .inr ⟨by simp [Pc.exiting], by simp⟩
      · exact .inl hu
  | fork call index child tail hpc pcb hl =>
    refine h.advance [_] rfl (fun i o hi => .inl hi) (fun u uh => ht.thread_lt) ?_
    intro u uh hu
    rcases update_some_cases hu with ⟨rfl, rfl⟩ | ⟨-, hu⟩
    · exact .inr ⟨by simp [Pc.exiting], by simp⟩
    · rcases update_some_cases hu with ⟨rfl, rfl⟩ | ⟨-, hu⟩
      · refine .inr ?_
        unfold State.newThread
        cases call.kind <;> simp [Pc.exiting]
      · exact .inl hu
  | remove hpc bm hbm self he pcb hl =>
    obtain rfl := ht.removed_self hth hpc he
    exact h.remove ht hth hpc
  | stray s' hpc hstray => exact (ht.not_stray hth hpc hstray).elim

theorem Initial.endInv (h : Initial s) : EndInv s := by
  have hmain {t : ThreadId} {th : Thread} (hth : s.thread t = some th) : th = mainThread := by
    rw [h.thread] at hth
    rcases update_some_cases hth with ⟨-, hth⟩ | ⟨-, hth⟩
    · exact hth
    · cases hth
  constructor
  · intro t th hth hexit
    rw [hmain hth] at hexit
    cases hexit
  · intro t th hth hfin
    rw [hmain hth] at hfin
    cases hfin

theorem endInv_reach {s₀ : State} (h₀ : initial = some s₀)
    (h : Runs.Reach step StartsThrough s₀ s) : EndInv s := by
  have hboth : TableInv s ∧ EndInv s := by
    refine h.invariant (P := fun s => TableInv s ∧ EndInv s)
      ⟨(initial_spec h₀).tableInv, (initial_spec h₀).endInv⟩ ?_
    intro s l s' hi hallow hs
    obtain ⟨th, -, hth, hm⟩ := step_move hs
    exact ⟨hi.1.move hth hm.table, hi.2.move hi.1 hth hallow hm.table⟩
  exact hboth.2

/-- A start routine that returns early finishes its thread and leaves its PCB behind. -/
theorem not_leavesThroughExit (ht : TableInv s) {l : Label} (hs : step s l = some s')
    (hallow : ¬ StartsThrough s l) : ¬ LeavesThroughExit s' := by
  unfold StartsThrough at hallow
  push Not at hallow
  obtain ⟨th, argv, env, hth, hpc, hi, hearly⟩ := hallow
  obtain ⟨-, hrun, -⟩ := step_move hs
  obtain ⟨own, -, -, hslot⟩ := ht.own_entry hth (by simp [hpc])
  have hs' : s' = (s.log (.threadFinished l.thread)).setPc l.thread th .finished := by
    unfold step at hs
    rw [if_pos hrun, hth, Option.bind_eq_bind, Option.bind_some, hpc, hi] at hs
    simp only [perform, (startProcess2_returned_iff env argv).mpr hearly, State.started,
      Option.some.injEq] at hs
    exact hs.symm
  subst hs'
  intro hleaves
  exact (hleaves l.thread { th with pc := .finished } (Function.update_self ..) rfl).2.2 own hslot

/-- As long as no start routine returns early, every finished process has left through
`ExitUpdate`, and the next step keeps it so exactly if it is no early return either. -/
theorem leaves_through_exit_iff {s₀ : State} (h₀ : initial = some s₀)
    (h : Runs.Reach step StartsThrough s₀ s) :
    LeavesThroughExit s ∧
      ∀ l s', step s l = some s' → (LeavesThroughExit s' ↔ StartsThrough s l) := by
  refine ⟨(endInv_reach h₀ h).finished, ?_⟩
  intro l s' hs
  constructor
  · intro hleaves
    by_contra hallow
    exact not_leavesThroughExit (tableInv_reach h₀ h) hs hallow hleaves
  · intro hallow
    exact (endInv_reach h₀ (h.tail hallow hs)).finished

end

/-- The main thread starts "a" with the argument "b"; it exits, is joined and removed. -/
def argumentRun : List Label :=
  execSteps 0 (.v [nameB]) nameA ++ [⟨1, .start sampleEnv⟩, ⟨1, .exit 5⟩] ++ goSteps 1 3 ++
    [⟨0, .join 1⟩] ++ goSteps 0 4 ++ goSteps 1 2

theorem leaves_through_exit_argumentRun : ∃ s₀ s th, initial = some s₀ ∧
    Runs.Reach step StartsThrough s₀ s ∧ s.thread 1 = some th ∧ th.pc = .finished ∧
    LeavesThroughExit s := by
  have hrun : (initial.bind fun s₀ => (Runs.execIf step StartsThrough s₀ argumentRun).bind fun s =>
      (s.thread 1).map fun th => decide (th.pc = .finished)) = some true := by
    decide +kernel
  obtain ⟨s₀, h₀, hrun⟩ := Option.bind_eq_some_iff.mp hrun
  obtain ⟨s, hs, hrun⟩ := Option.bind_eq_some_iff.mp hrun
  obtain ⟨th, hth, hd⟩ := Option.map_eq_some_iff.mp hrun
  have hr := Runs.reach_of_execIf hs
  exact ⟨s₀, s, th, h₀, hr, hth, of_decide_eq_true hd, (leaves_through_exit_iff h₀ hr).1⟩

/-- The main thread starts "a" with an empty argument. -/
def emptyArgumentRun : List Label :=
  execSteps 0 (.v [emptyString]) nameA ++ [⟨1, .start sampleEnv⟩]

/-- The thread of process 1 has finished, and slot 1 still holds its PCB. -/
theorem emptyArgumentRun_leaks : ∃ s₀ s, initial = some s₀ ∧
    Runs.Reach step (fun _ _ => True) s₀ s ∧ .threadFinished 1 ∈ s.trace ∧ s.pcb 1 = some 1 ∧
    ¬ LeavesThroughExit s := by
  have hrun : (initial.bind fun s₀ => (Runs.exec step s₀ emptyArgumentRun).bind fun s =>
      (s.thread 1).map fun th => decide (th.pc = .finished ∧ .threadFinished 1 ∈ s.trace ∧
        s.pcb 1 = some 1)) = some true := by
    decide +kernel
  obtain ⟨s₀, h₀, hrun⟩ := Option.bind_eq_some_iff.mp hrun
  obtain ⟨s, hs, hrun⟩ := Option.bind_eq_some_iff.mp hrun
  obtain ⟨th, hth, hd⟩ := Option.map_eq_some_iff.mp hrun
  obtain ⟨hfin, htrace, hslot⟩ := of_decide_eq_true hd
  refine ⟨s₀, s, h₀, Runs.reach_of_exec hs, htrace, hslot, ?_⟩
  intro hleaves
  exact (hleaves 1 th hth hfin).2.2 1 hslot

end Nachos.PTable

import Nachos.Threads.Dispatch

/-! No thread is lost or duplicated by the scheduler, whatever the threads and the interrupt
handlers do. -/
namespace Nachos.Dispatch

open IntStatus (IntOff IntOn)

variable {k : ℕ} {s s' : State k} {t : ThreadId} {i : Fin k} {frames rest : List (Frame k)}

theorem Plain.tail (h : Plain frames) : Plain frames.tail :=
  fun f hf => h f (List.mem_of_mem_tail hf)

theorem State.occupied_eq {q : ℕ} {destroyed : Option ThreadId} {current : ThreadId}
    (hq : s.queued t = q) (hd : s.toBeDestroyed = destroyed) (hc : s.currentThread = current)
    (hf : s.stack s.currentThread = frames) :
    s.occupied t = q + (if destroyed = some t then 1 else 0) +
      if t = current ∧ ¬ Asleep frames then 1 else 0 := by
  subst hq hd hc hf
  rfl

theorem Inv.queued_le (h : Inv s) (t : ThreadId) : s.queued t ≤ 1 := by
  have ht := h.occupied t
  unfold State.occupied at ht
  split_ifs at ht <;> omega

/-- A thread that has not just been dispatched has seen the finished one deleted. -/
theorem Inv.toBeDestroyed (h : Inv s) (hs : ¬ Suspended (s.stack s.currentThread)) :
    s.toBeDestroyed = none := by
  by_contra hne
  exact hs (h.destroy hne)

/-- A running thread that is not asleep is in no queue. -/
theorem Inv.queued_current (h : Inv s) (ha : ¬ Asleep (s.stack s.currentThread)) :
    s.queued s.currentThread = 0 := by
  have ht := h.occupied s.currentThread
  unfold State.occupied at ht
  simp only [ha, h.current, not_false_eq_true, and_self, ↓reduceIte] at ht
  omega

/-- A queued thread exists, and it is suspended unless it is the running one. -/
theorem Inv.mem_of_queued (h : Inv s) (ht : 0 < s.queued t) : t ∈ s.threads := by
  have ho := h.occupied t
  unfold State.occupied at ho
  by_contra hmem
  rw [if_neg hmem] at ho
  omega

/-- The running thread goes on, after some threads may have been made ready. -/
theorem Inv.goto {u : State k} {l : IntStatus} {f : List (Frame k)} (h : Inv s) (hq : Quiet s u)
    (hs : ¬ Suspended (s.stack s.currentThread)) (ha : ¬ Asleep (s.stack s.currentThread))
    (ha' : ¬ Asleep f) (hw : WellFormed l f) :
    Inv ({ u with level := l }.goto f) := by
  have hnone := h.toBeDestroyed hs
  have hcurrent : (Function.update u.stack u.currentThread f) u.currentThread = f :=
    Function.update_self ..
  refine ⟨hq.failed.trans h.running, ?_, ?_, ?_, ?_, ?_, ?_, ?_, ?_⟩
  · show u.currentThread ∈ u.threads
    rw [hq.currentThread, hq.threads]
    exact h.current
  · show u.threads.Nodup
    rw [hq.threads]
    exact h.nodup
  · show ∀ t ∈ u.threads, t < u.next
    rw [hq.threads, hq.next]
    exact h.fresh
  · intro t
    have ht := h.occupied t
    unfold State.occupied at ht
    refine (State.occupied_eq (s := { u with level := l }.goto f) (hq.queued t)
      hq.toBeDestroyed hq.currentThread hcurrent).trans ?_
    show _ = if t ∈ u.threads then 1 else 0
    rw [hq.threads, ← ht]
    simp only [ha, ha', not_false_eq_true, and_true]
  · show WellFormed l (Function.update u.stack u.currentThread f u.currentThread)
    rw [hcurrent]
    exact hw
  · intro t ht hne _
    replace hne : t ≠ u.currentThread := hne
    have hne' : t ≠ s.currentThread := hq.currentThread ▸ hne
    show Suspended (Function.update u.stack u.currentThread f t) ∧
      WellFormed IntOff (Function.update u.stack u.currentThread f t)
    rw [Function.update_of_ne hne, hq.stack]
    refine h.others t ?_ hne' ?_
    · rw [← hq.threads]
      exact ht
    · rw [hnone]
      simp
  · intro hne
    exact absurd (hq.toBeDestroyed.trans hnone) hne
  · show ∀ level ∈ u.switchLevels, level = IntOff
    rw [hq.switchLevels]
    exact h.switches

theorem not_asleep_of_suspended (h : Suspended frames) : ¬ Asleep frames := by
  intro ha
  cases frames with
  | nil => exact h
  | cons f rest => cases f <;> first | exact h | exact ha

/-- A dispatch: the head of the ready list gets the processor, and the old thread is queued,
asleep or to be destroyed. -/
theorem Inv.switch {next : ThreadId} {list : List ThreadId} {d : Option ThreadId}
    {f : List (Frame k)}
    (h : Inv s) (hready : s.readyList = next :: list) (hs : ¬ Suspended (s.stack s.currentThread))
    (hlevel : s'.level = IntOff) (hcurrent : s'.currentThread = next)
    (hstack : s'.stack = Function.update s.stack s.currentThread f)
    (hself : d ≠ some s.currentThread → Suspended f ∧ WellFormed IntOff f)
    (hthreads : s'.threads = s.threads) (hnext : s'.next = s.next)
    (hdestroyed : s'.toBeDestroyed = d)
    (hswitches : s'.switchLevels = s.switchLevels ++ [IntOff]) (hfailed : s'.failed = false)
    (hne : d ≠ none → d = some s.currentThread ∧ next ≠ s.currentThread)
    (hqueued : ∀ t, s'.queued t + (if d = some t then 1 else 0) +
        (if t = next then 1 else 0) =
      s.queued t + if t = s.currentThread ∧ ¬ Asleep (s.stack s.currentThread) then 1 else 0) :
    Inv s' := by
  have hnone := h.toBeDestroyed hs
  have hmem : next ∈ s.threads := by
    apply h.mem_of_queued
    unfold State.queued
    rw [hready, List.count_cons_self]
    omega
  have hsuspended {u : ThreadId} (hu : u ∈ s.threads) (hd : d ≠ some u) :
      Suspended (s'.stack u) ∧ WellFormed IntOff (s'.stack u) := by
    rw [hstack]
    by_cases hc : u = s.currentThread
    · rw [hc, Function.update_self]
      exact hself (hc ▸ hd)
    · rw [Function.update_of_ne hc]
      refine h.others u hu hc ?_
      rw [hnone]
      simp
  have hdnext : d ≠ some next := by
    intro hd
    obtain ⟨hd', hn⟩ := hne (by rw [hd]; simp)
    cases hd.symm.trans hd'
    exact hn rfl
  obtain ⟨hsus, hwf⟩ := hsuspended hmem hdnext
  refine ⟨hfailed, ?_, ?_, ?_, ?_, ?_, ?_, ?_, ?_⟩
  · rw [hcurrent, hthreads]
    exact hmem
  · rw [hthreads]
    exact h.nodup
  · rw [hthreads, hnext]
    exact h.fresh
  · intro t
    have ht := h.occupied t
    unfold State.occupied at ht ⊢
    rw [hnone, if_neg (by simp), Nat.add_zero, ← hqueued t] at ht
    rw [hcurrent, hdestroyed, hthreads, ← ht]
    simp only [not_asleep_of_suspended hsus, not_false_eq_true, and_true]
  · rw [hcurrent, hlevel]
    exact hwf
  · intro u hu _ hd
    rw [hthreads] at hu
    rw [hdestroyed] at hd
    exact hsuspended hu hd
  · intro _
    rw [hcurrent]
    exact hsus
  · rw [hswitches]
    intro level hl
    rcases List.mem_append.mp hl with hl | hl
    · exact h.switches level hl
    · exact List.mem_singleton.mp hl

/-- `CheckToBeDestroyed` by the thread that has just got the processor. -/
theorem Inv.destroyed (h : Inv s) (hlevel : s.level = IntOff) (ha : ¬ Asleep frames)
    (hsus : Suspended (s.stack s.currentThread)) (hw : WellFormed IntOff frames) :
    Inv (s.checkToBeDestroyed.goto frames) := by
  -- the finished thread is not the running one
  have hother {u : ThreadId} (hu : s.toBeDestroyed = some u) : u ≠ s.currentThread := by
    rintro rfl
    have ho := h.occupied s.currentThread
    unfold State.occupied at ho
    simp only [hu, h.current, not_asleep_of_suspended hsus, not_false_eq_true, and_self,
      ↓reduceIte] at ho
    omega
  have hgoto (threads : List ThreadId) (hmem : s.currentThread ∈ threads)
      (hnodup : threads.Nodup) (hthreads : ∀ t, t ∈ threads ↔ t ∈ s.threads ∧
        s.toBeDestroyed ≠ some t) :
      Inv ({ s with threads := threads, toBeDestroyed := none }.goto frames) := by
    refine ⟨h.running, hmem, hnodup, ?_, ?_, ?_, ?_, ?_, h.switches⟩
    · intro t ht
      exact h.fresh t ((hthreads t).mp ht).1
    · intro t
      have ho := h.occupied t
      unfold State.occupied at ho
      refine (State.occupied_eq rfl rfl rfl (Function.update_self ..)).trans ?_
      show s.queued t + (if none = some t then 1 else 0) +
        (if t = s.currentThread ∧ ¬ Asleep frames then 1 else 0) = if t ∈ threads then 1 else 0
      simp only [not_asleep_of_suspended hsus, ha, not_false_eq_true, and_true, reduceCtorEq,
        ↓reduceIte, hthreads t] at ho ⊢
      by_cases hd : s.toBeDestroyed = some t
      · have hc : t ≠ s.currentThread := hother hd
        simp only [hd, hc, ↓reduceIte, ne_eq, not_true_eq_false, and_false] at ho ⊢
        split_ifs at ho
        omega
      · simpa only [hd, ↓reduceIte, ne_eq, not_false_eq_true, and_true] using ho
    · show WellFormed s.level (Function.update s.stack s.currentThread frames s.currentThread)
      rw [Function.update_self, hlevel]
      exact hw
    · intro t ht hne _
      replace hne : t ≠ s.currentThread := hne
      show Suspended (Function.update s.stack s.currentThread frames t) ∧
        WellFormed IntOff (Function.update s.stack s.currentThread frames t)
      rw [Function.update_of_ne hne]
      exact h.others t ((hthreads t).mp ht).1 hne ((hthreads t).mp ht).2
    · intro hne
      exact (hne rfl).elim
  cases hd : s.toBeDestroyed with
  | none =>
    have heq : s.checkToBeDestroyed = { s with threads := s.threads, toBeDestroyed := none } := by
      unfold State.checkToBeDestroyed
      rw [hd]
      show s = { s with toBeDestroyed := none }
      rw [← hd]
    rw [heq]
    apply hgoto _ h.current h.nodup
    intro t
    simp [hd]
  | some u =>
    have heq : s.checkToBeDestroyed =
        { s with threads := s.threads.erase u, toBeDestroyed := none } := by
      unfold State.checkToBeDestroyed
      rw [hd]
      show { s.check (u ≠ s.currentThread) with
        threads := s.threads.erase u, toBeDestroyed := none } = _
      rw [check_of (hother hd)]
    rw [heq]
    apply hgoto _ _ (h.nodup.erase u)
    · intro t
      rw [h.nodup.mem_erase_iff, hd, and_comm]
      simp [eq_comm]
    · rw [h.nodup.mem_erase_iff]
      exact ⟨(hother hd).symm, h.current⟩

/-- A thread is forked. -/
theorem Inv.forked (h : Inv s) (hstack : s.stack s.currentThread = []) : Inv (s.enter .Fork) := by
  have hne : s.next ≠ s.currentThread := fun he => lt_irrefl _ (he ▸ h.fresh _ h.current)
  have hnew : s.next ∉ s.threads := fun hmem => lt_irrefl _ (h.fresh _ hmem)
  have hnone := h.toBeDestroyed (by rw [hstack]; exact id)
  have hready : s.next ∉ s.readyList := by
    apply List.count_eq_zero.mp
    have ho := h.occupied s.next
    unfold State.occupied State.queued at ho
    rw [if_neg hnew] at ho
    omega
  have hcurrent := Function.update_self (f := Function.update s.stack s.next [.threadBegin])
    s.currentThread [.setLevel s.level, .returns .Fork s.level]
  have heq := readyToRun_eq (s := { s with
    threads := s.threads ++ [s.next], next := s.next + 1, level := IntOff,
    stack := Function.update (Function.update s.stack s.next [.threadBegin]) s.currentThread
      [.setLevel s.level, .returns .Fork s.level] }) rfl hready
  unfold State.enter
  dsimp only
  rw [heq]
  refine ⟨h.running, List.mem_append_left _ h.current, ?_, ?_, ?_, ?_, ?_, ?_, h.switches⟩
  · rw [List.nodup_append]
    refine ⟨h.nodup, List.nodup_singleton _, ?_⟩
    intro u hu v hv huv
    cases List.mem_singleton.mp hv
    exact hnew (huv ▸ hu)
  · intro u hu
    rcases List.mem_append.mp hu with hu | hu
    · exact (h.fresh u hu).trans (Nat.lt_succ_self _)
    · cases List.mem_singleton.mp hu
      exact Nat.lt_succ_self _
  · intro u
    have ho := h.occupied u
    unfold State.occupied State.queued at ho
    refine (State.occupied_eq rfl rfl rfl hcurrent).trans ?_
    show (s.readyList ++ [s.next]).count u + (∑ j, (s.semaphore j).queue.count u) +
      (if s.toBeDestroyed = some u then 1 else 0) + (if u = s.currentThread ∧
        ¬ Asleep [Frame.setLevel s.level, .returns (k := k) .Fork s.level] then 1 else 0) =
          if u ∈ s.threads ++ [s.next] then 1 else 0
    rw [List.count_append, List.count_singleton]
    have ha : ¬ Asleep [Frame.setLevel s.level, .returns (k := k) .Fork s.level] := id
    have ha' : ¬ Asleep (s.stack s.currentThread) := by rw [hstack]; exact id
    simp only [ha, ha', not_false_eq_true, and_true, List.mem_append, List.mem_singleton,
      beq_iff_eq] at ho ⊢
    by_cases hu : u = s.next
    · subst hu
      simp only [hnew, hne, ↓reduceIte, or_true] at ho ⊢
      omega
    · simp only [hu, Ne.symm hu, or_false, ↓reduceIte] at ho ⊢
      omega
  · dsimp only
    rw [hcurrent]
    exact ⟨⟨rfl, trivial⟩, by simp [Plain, Frame.first]⟩
  · intro u hu huc _
    dsimp only
    rw [Function.update_of_ne huc]
    by_cases hun : u = s.next
    · rw [hun, Function.update_self]
      exact ⟨trivial, ⟨⟨rfl, trivial⟩, List.forall_mem_nil _⟩⟩
    · rw [Function.update_of_ne hun]
      refine h.others u ?_ huc ?_
      · exact (List.mem_append.mp hu).resolve_right fun hu => hun (List.mem_singleton.mp hu)
      · rw [hnone]
        simp
  · intro hd
    exact (hd hnone).elim

/-- Interrupts while the running thread waits for somebody to be ready. -/
theorem Inv.quiet (h : Inv s) (hq : Quiet s s') : Inv s' := by
  refine ⟨hq.failed.trans h.running, ?_, ?_, ?_, ?_, ?_, ?_, ?_, ?_⟩
  · rw [hq.currentThread, hq.threads]
    exact h.current
  · rw [hq.threads]
    exact h.nodup
  · rw [hq.threads, hq.next]
    exact h.fresh
  · intro t
    unfold State.occupied
    rw [hq.queued, hq.toBeDestroyed, hq.currentThread, hq.stack, hq.threads]
    exact h.occupied t
  · rw [hq.level, hq.stack, hq.currentThread]
    exact h.wellFormed
  · rw [hq.threads, hq.currentThread, hq.toBeDestroyed, hq.stack]
    exact h.others
  · rw [hq.toBeDestroyed, hq.stack, hq.currentThread]
    exact h.destroy
  · rw [hq.switchLevels]
    exact h.switches

/-- The running thread finds the semaphore zero and goes to sleep. -/
theorem Inv.blocked {oldLevel : IntStatus} (h : Inv s)
    (hstack : s.stack s.currentThread = .P i oldLevel :: rest)
    (hvalue : (s.semaphore i).value = 0) : Inv (s.turn i oldLevel rest) := by
  have ha : ¬ Asleep (s.stack s.currentThread) := by rw [hstack]; exact id
  have hnone := h.toBeDestroyed (by rw [hstack]; exact id)
  obtain ⟨⟨hlevel, htyped⟩, hplain⟩ := hstack ▸ h.wellFormed
  have hqueue : s.currentThread ∉ (s.semaphore i).queue := by
    apply List.count_eq_zero.mp
    have hzero := h.queued_current ha
    have hle : (s.semaphore i).queue.count s.currentThread ≤
        ∑ j, (s.semaphore j).queue.count s.currentThread :=
      Finset.single_le_sum (f := fun j => (s.semaphore j).queue.count s.currentThread)
        (fun _ _ => Nat.zero_le _) (Finset.mem_univ i)
    unfold State.queued at hzero
    omega
  unfold State.turn
  rw [if_pos hvalue, LinkedList.append_eq_some hqueue]
  have hsum := sum_setSemaphore s i
    { s.semaphore i with queue := (s.semaphore i).queue ++ [s.currentThread] }
  have hcurrent := Function.update_self (f := s.stack) s.currentThread
    (.sleep false :: .P i oldLevel :: rest)
  refine ⟨h.running, h.current, h.nodup, h.fresh, ?_, ?_, ?_, ?_, h.switches⟩
  · intro t
    have ho := h.occupied t
    have ht := hsum t
    rw [List.count_append, List.count_singleton] at ht
    unfold State.occupied State.queued at ho
    refine (State.occupied_eq rfl rfl rfl hcurrent).trans ?_
    show s.readyList.count t + (∑ j, ((s.setSemaphore i { s.semaphore i with
        queue := (s.semaphore i).queue ++ [s.currentThread] }).semaphore j).queue.count t) +
      (if s.toBeDestroyed = some t then 1 else 0) + (if t = s.currentThread ∧
        ¬ Asleep (.sleep false :: .P i oldLevel :: rest) then 1 else 0) =
          if t ∈ s.threads then 1 else 0
    have ha' : Asleep (.sleep false :: .P i oldLevel :: rest) := trivial
    simp only [ha, ha', not_true_eq_false, not_false_eq_true, and_true, and_false, ↓reduceIte,
      beq_iff_eq, eq_comm (a := s.currentThread)] at ho ht ⊢
    omega
  · show WellFormed s.level (Function.update s.stack s.currentThread
      (.sleep false :: .P i oldLevel :: rest) s.currentThread)
    rw [hcurrent]
    refine ⟨⟨hlevel, fun _ => ⟨rfl, htyped⟩⟩, ?_⟩
    intro f hf
    rcases List.mem_cons.mp hf with rfl | hf
    · rfl
    · exact hplain f hf
  · intro t ht hne _
    replace hne : t ≠ s.currentThread := hne
    show Suspended (Function.update s.stack s.currentThread
        (.sleep false :: .P i oldLevel :: rest) t) ∧
      WellFormed IntOff (Function.update s.stack s.currentThread
        (.sleep false :: .P i oldLevel :: rest) t)
    rw [Function.update_of_ne hne]
    refine h.others t ht hne ?_
    rw [hnone]
    simp
  · intro hd
    exact (hd hnone).elim

/-- `Yield` with interrupts off. -/
theorem Inv.yielded (h : Inv s) (hstack : s.stack s.currentThread = .yield :: rest) :
    Inv (s.disable.yieldTo s.level rest) := by
  have hs : ¬ Suspended (s.stack s.currentThread) := by rw [hstack]; exact id
  have ha : ¬ Asleep (s.stack s.currentThread) := by rw [hstack]; exact id
  obtain ⟨htyped, hplain⟩ := hstack ▸ h.wellFormed
  cases hready : s.readyList with
  | nil =>
    have heq : s.disable.yieldTo s.level rest =
        { s with level := IntOff }.goto (.setLevel s.level :: rest) := by
      simp [State.yieldTo, State.disable, hready]
    rw [heq]
    exact h.goto (.refl s) hs ha id ⟨htyped, hplain⟩
  | cons next list =>
    have hzero := h.queued_current ha
    have hfree : s.currentThread ∉ list := by
      apply List.count_eq_zero.mp
      unfold State.queued at hzero
      rw [hready, List.count_cons] at hzero
      omega
    have hready' := readyToRun_eq (s := ({ s.disable with readyList := list }.goto
      (.switched :: .setLevel s.level :: rest))) (t := s.currentThread) rfl hfree
    have heq : s.disable.yieldTo s.level rest = { s with
        level := IntOff, readyList := list ++ [s.currentThread], currentThread := next,
        stack := Function.update s.stack s.currentThread (.switched :: .setLevel s.level :: rest),
        switchLevels := s.switchLevels ++ [IntOff] } := by
      have hunfold : s.disable.yieldTo s.level rest = (({ s.disable with readyList := list }.goto
          (.switched :: .setLevel s.level :: rest)).readyToRun s.currentThread).runThread next
            false := by
        unfold State.yieldTo
        simp only [State.disable, hready]
      rw [hunfold, hready']
      rfl
    rw [heq]
    refine h.switch (f := .switched :: .setLevel s.level :: rest) (d := none) hready
      hs rfl rfl rfl ?_ rfl rfl (h.toBeDestroyed hs) rfl h.running (absurd rfl) ?_
    · intro _
      refine ⟨trivial, ⟨rfl, htyped⟩, ?_⟩
      intro f hf
      rcases List.mem_cons.mp hf with rfl | hf
      · rfl
      · exact hplain f hf
    · intro t
      show (list ++ [s.currentThread]).count t + (∑ j, (s.semaphore j).queue.count t) +
        (if none = some t then 1 else 0) + (if t = next then 1 else 0) = _
      unfold State.queued
      rw [hready, List.count_append, List.count_singleton, List.count_cons]
      simp only [ha, not_false_eq_true, and_true, beq_iff_eq, reduceCtorEq, ↓reduceIte,
        eq_comm (a := next), eq_comm (a := s.currentThread)]
      omega

/-- The end of `Sleep`: another thread runs, or the same one again. -/
theorem Inv.slept {finishing : Bool} {next : ThreadId} {list : List ThreadId} (h : Inv s)
    (hstack : s.stack s.currentThread = .sleep finishing :: rest)
    (hready : s.readyList = next :: list) :
    Inv ((s.check (s.level = IntOff)).sleepTo finishing next list rest) := by
  have hs : ¬ Suspended (s.stack s.currentThread) := by rw [hstack]; exact id
  obtain ⟨⟨hlevel, htyped⟩, hplain⟩ := hstack ▸ h.wellFormed
  have hnone := h.toBeDestroyed hs
  rw [check_of hlevel]
  cases finishing with
  | false =>
    have ha : Asleep (s.stack s.currentThread) := by rw [hstack]; trivial
    have heq : s.sleepTo false next list rest = { s with
        readyList := list, currentThread := next,
        stack := Function.update s.stack s.currentThread (.switched :: rest),
        switchLevels := s.switchLevels ++ [s.level] } := by
      unfold State.sleepTo State.runThread State.goto
      simp only [check_of hlevel, Bool.false_eq_true, ↓reduceIte]
    rw [heq, hlevel]
    refine h.switch (f := .switched :: rest) (d := none) hready hs rfl rfl rfl ?_
      rfl rfl hnone rfl h.running (absurd rfl) ?_
    · intro _
      exact ⟨trivial, ⟨rfl, htyped rfl⟩, hplain⟩
    · intro t
      show list.count t + (∑ j, (s.semaphore j).queue.count t) +
        (if none = some t then 1 else 0) + (if t = next then 1 else 0) = _
      unfold State.queued
      rw [hready, List.count_cons]
      simp only [ha, not_true_eq_false, and_false, beq_iff_eq, reduceCtorEq, ↓reduceIte,
        eq_comm (a := next)]
      omega
  | true =>
    have ha : ¬ Asleep (s.stack s.currentThread) := by rw [hstack]; exact id
    have hzero := h.queued_current ha
    have hne : next ≠ s.currentThread := by
      rintro rfl
      unfold State.queued at hzero
      rw [hready, List.count_cons_self] at hzero
      omega
    have heq : s.sleepTo true next list rest = { s with
        readyList := list, currentThread := next, toBeDestroyed := some s.currentThread,
        stack := Function.update s.stack s.currentThread (.switched :: rest),
        switchLevels := s.switchLevels ++ [s.level] } := by
      unfold State.sleepTo State.runThread State.goto
      simp only [check_of hlevel, check_of hnone, ↓reduceIte]
    rw [heq, hlevel]
    refine h.switch (f := .switched :: rest) (d := some s.currentThread) hready hs
      rfl rfl rfl (fun hd => (hd rfl).elim) rfl rfl rfl rfl h.running (fun _ => ⟨rfl, hne⟩) ?_
    intro t
    show list.count t + (∑ j, (s.semaphore j).queue.count t) +
      (if some s.currentThread = some t then 1 else 0) + (if t = next then 1 else 0) = _
    unfold State.queued
    rw [hready, List.count_cons]
    simp only [ha, not_false_eq_true, and_true, beq_iff_eq, Option.some.injEq,
      eq_comm (a := next), eq_comm (a := s.currentThread)]
    omega

theorem Quiet.of_disable (h : Quiet s.disable s') : Quiet s { s' with level := s.level } :=
  ⟨h.currentThread, h.toBeDestroyed, rfl, h.stack, h.threads, h.next, h.switchLevels, h.failed,
    h.queued⟩

theorem setSemaphore_quiet {sem : Semaphore} (h : sem.queue = (s.semaphore i).queue) :
    Quiet s (s.setSemaphore i sem) := by
  refine ⟨rfl, rfl, rfl, rfl, rfl, rfl, rfl, rfl, ?_⟩
  intro t
  have ht := sum_setSemaphore s i sem t
  rw [h] at ht
  exact congrArg (s.readyList.count t + ·) (Nat.add_right_cancel ht)

/-- A routine is called. -/
theorem Inv.entered (h : Inv s) (hstack : s.stack s.currentThread = []) (c : Call k)
    (hc : c = .userInstruction → s.level = IntOn) : Inv (s.enter c) := by
  have hs : ¬ Suspended (s.stack s.currentThread) := by rw [hstack]; exact id
  have ha : ¬ Asleep (s.stack s.currentThread) := by rw [hstack]; exact id
  cases c with
  | Fork => exact h.forked hstack
  | Yield =>
    refine h.goto (.refl s) hs ha id ⟨⟨rfl, trivial⟩, ?_⟩
    simp [Plain, Frame.first]
  | P i =>
    refine h.goto (.refl s) hs ha id ⟨⟨rfl, rfl, trivial⟩, ?_⟩
    simp [Plain, Frame.first]
  | V i =>
    have hgoto : Inv (s.disable.goto [.setLevel s.level, .returns .V s.level]) := by
      refine h.goto (.refl s) hs ha id ⟨⟨rfl, trivial⟩, ?_⟩
      simp [Plain, Frame.first]
    exact hgoto.quiet (V_quiet rfl hgoto.queued_le)
  | Finish => exact h.goto (.refl s) hs ha id ⟨⟨rfl, by simp⟩, List.forall_mem_nil _⟩
  | SetLevel now => exact h.goto (.refl s) hs ha id ⟨trivial, List.forall_mem_nil _⟩
  | userInstruction => exact h.goto (.refl s) hs ha id ⟨⟨hc rfl, trivial⟩, List.forall_mem_nil _⟩

/-- The running thread executes its next statement. -/
theorem Inv.step {l : Label k} (h : Inv s) (hs : step s l = some s') : Inv s' := by
  unfold Dispatch.step at hs
  rw [if_neg (by simp [h.running])] at hs
  have hw := h.wellFormed
  have hnot : ∀ f rest, s.stack s.currentThread = f :: rest → f.first = false →
      ¬ Suspended (s.stack s.currentThread) ∧ ¬ Asleep (s.stack s.currentThread) := by
    intro f rest hstack hf
    rw [hstack]
    cases f <;> first | exact ⟨id, id⟩ | cases hf
  cases hstack : s.stack s.currentThread with
  | nil =>
    rw [hstack] at hs
    cases l with
    | call c =>
      cases c with
      | userInstruction =>
        obtain ⟨hlevel, he⟩ := Option.ite_none_right_eq_some.mp hs
        cases he
        exact h.entered hstack _ fun _ => hlevel
      | _ =>
        cases hs
        refine h.entered hstack _ ?_
        simp
    | _ => cases hs
  | cons f rest =>
    rw [hstack] at hs hw
    obtain ⟨htyped, hplain⟩ := hw
    have hmore := hnot f rest hstack
    cases f with
    | setLevel now =>
      obtain ⟨hsus, ha⟩ := hmore rfl
      cases l <;> cases hs
      split_ifs with hon
      · obtain ⟨-, rfl⟩ := hon
        exact h.goto (.refl s) hsus ha id ⟨⟨rfl, htyped⟩, hplain⟩
      · exact h.goto (.refl s) hsus ha (not_asleep_of_plain hplain) ⟨htyped, hplain.tail⟩
    | oneTick =>
      obtain ⟨hsus, ha⟩ := hmore rfl
      cases l with
      | interrupts handlers timer =>
        cases hs
        have hquiet := (handle_quiet (s := s.disable) handlers rfl h.queued_le).of_disable
        split_ifs
        · exact h.goto (u := { s.disable.handle handlers with level := s.level }) (l := IntOn)
            (f := .yield :: rest) hquiet hsus ha id ⟨htyped.2, hplain⟩
        · exact h.goto (u := { s.disable.handle handlers with level := s.level }) (l := IntOn)
            (f := rest) hquiet hsus ha (not_asleep_of_plain hplain) ⟨htyped.2, hplain.tail⟩
      | _ => cases hs
    | yield =>
      cases l <;> cases hs
      exact h.yielded hstack
    | P i oldLevel =>
      obtain ⟨hsus, ha⟩ := hmore rfl
      cases l <;> cases hs
      by_cases hvalue : (s.semaphore i).value = 0
      · exact h.blocked hstack hvalue
      · unfold State.turn
        rw [if_neg hvalue]
        exact h.goto (u := s.setSemaphore i ⟨(s.semaphore i).value - 1, (s.semaphore i).queue⟩)
          (l := s.level) (f := .setLevel oldLevel :: rest) (setSemaphore_quiet rfl) hsus ha id
          ⟨htyped.2, hplain⟩
    | sleep finishing =>
      cases l with
      | run =>
        cases hready : s.readyList with
        | nil =>
          rw [hready] at hs
          cases hs
        | cons next list =>
          rw [hready] at hs
          cases hs
          exact h.slept hstack hready
      | interrupts handlers timer =>
        obtain ⟨-, he⟩ := Option.ite_none_right_eq_some.mp hs
        cases he
        exact h.quiet (handle_quiet handlers htyped.1 h.queued_le)
      | call c => cases hs
    | switched =>
      cases l <;> cases hs
      rw [check_of htyped.1]
      refine h.destroyed htyped.1 (not_asleep_of_plain hplain) ?_ ⟨htyped.2, hplain.tail⟩
      rw [hstack]
      trivial
    | threadBegin =>
      cases l <;> cases hs
      refine h.destroyed htyped.1 id ?_ ⟨htyped.2, hplain⟩
      rw [hstack]
      trivial
    | returns routine entered =>
      obtain ⟨hsus, ha⟩ := hmore rfl
      cases l <;> cases hs
      exact h.goto (.refl s) hsus ha (not_asleep_of_plain hplain)
        ⟨htyped.1 ▸ htyped.2, hplain.tail⟩

theorem inv_start (semaphore : Fin k → ℕ) (level : IntStatus) : Inv (start semaphore level) := by
  refine ⟨rfl, List.mem_singleton_self _, List.nodup_singleton _, ?_, ?_,
    ⟨trivial, List.forall_mem_nil _⟩, ?_, absurd rfl, by simp [start]⟩
  · intro t ht
    cases List.mem_singleton.mp ht
    exact Nat.zero_lt_one
  · intro t
    unfold State.occupied State.queued
    simp [start, Semaphore.new, Asleep]
  · intro t ht hne
    exact (hne (List.mem_singleton.mp ht)).elim

/-- The running thread is inside `Sleep`. -/
def Sleeping : List (Frame k) → Prop
  | .sleep _ :: _ => True
  | _ => False

theorem Inv.places (h : Inv s) (hs : ¬ Sleeping (s.stack s.currentThread)) (ht : t ∈ s.threads) :
    s.places t = 1 := by
  have ha : ¬ Asleep (s.stack s.currentThread) := by
    intro ha
    cases hstack : s.stack s.currentThread with
    | nil =>
      rw [hstack] at ha
      exact ha
    | cons f rest =>
      rw [hstack] at ha hs
      cases f <;> first | exact ha | exact hs trivial
  have ho := h.occupied t
  unfold State.occupied at ho
  unfold State.places
  simp only [ha, ht, not_false_eq_true, and_true, ↓reduceIte, eq_comm (b := t)] at ho ⊢
  omega

/-- Over every run, each thread is in exactly one place whenever the running thread is not inside
`Sleep`, in particular after every dispatch; no assertion fails; interrupts are off at every
switch; and the routines return with the interrupt level they were entered with. -/
theorem scheduler_keeps_threads {semaphore : Fin k → ℕ} {level : IntStatus}
    (hr : Runs.Reach step (fun _ _ => True) (start semaphore level) s) :
    (¬ Sleeping (s.stack s.currentThread) → ∀ t ∈ s.threads, s.places t = 1) ∧
      (Suspended (s.stack s.currentThread) → ∀ t ∈ s.threads, s.places t = 1) ∧
      s.failed = false ∧ (∀ level ∈ s.switchLevels, level = IntOff) ∧
      ∀ routine entered rest, s.stack s.currentThread = .returns routine entered :: rest →
        s.level = entered := by
  have h : Inv s := hr.invariant (inv_start semaphore level) fun _ _ _ h _ hs => h.step hs
  refine ⟨fun hs t ht => h.places hs ht, ?_, h.running, h.switches, ?_⟩
  · intro hs t ht
    refine h.places ?_ ht
    cases hstack : s.stack s.currentThread with
    | nil => exact id
    | cons f rest =>
      rw [hstack] at hs
      cases f <;> first | exact id | exact hs.elim
  · intro routine entered rest hstack
    have htyped := h.wellFormed.typed
    rw [hstack] at htyped
    exact htyped.1

/-- The main thread forks one, sleeps on a semaphore, is woken by an interrupt that also makes
the new thread yield, and finishes. -/
def forkAndFinish : List (Label 1) :=
  [.call .Fork, .run, .interrupts [] false, .run, .call (.P 0), .run, .run,
    .run, .run, .interrupts [0] true, .run, .run, .run, .run, .interrupts [] false, .run,
    .call .Finish, .run]

theorem scheduler_keeps_threads_forkAndFinish :
    ∃ s, Runs.exec step (start (fun _ => 0) IntOn) forkAndFinish = some s ∧
      s.currentThread = 1 ∧ s.toBeDestroyed = some 0 ∧ ∀ t ∈ s.threads, s.places t = 1 := by
  have hview : (Runs.exec step (start (fun _ => 0) IntOn) forkAndFinish).map
      (fun s => (s.currentThread, s.toBeDestroyed, s.stack s.currentThread)) =
      some (1, some 0, [.switched, .setLevel IntOn]) := by
    decide +kernel
  obtain ⟨s, hs, hv⟩ := Option.map_eq_some_iff.mp hview
  obtain ⟨hcurrent, hdestroyed, hstack⟩ := by simpa only [Prod.mk.injEq] using hv
  obtain ⟨-, hdispatched, -⟩ := scheduler_keeps_threads (Runs.reach_of_exec hs)
  refine ⟨s, hs, hcurrent, hdestroyed, hdispatched ?_⟩
  rw [hstack]
  trivial

end Nachos.Dispatch

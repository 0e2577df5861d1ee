import Nachos.Library.Runs
import Nachos.Threads.STable

/-! The named semaphores under every sequence of calls. `Create` and `Signal` run without
losing the processor, and so does `Wait` up to its end or to the switch inside `Sleep`; a
thread that `Signal` has made ready takes its next turn of `P` when it is dispatched. What has
been done with each semaphore is counted on the side. -/
namespace Nachos.STableRuns

/-- The history of one semaphore. -/
structure Account where
  initial : ℤ
  /-- How many calls of `Signal` and of `Wait` on it have completed. -/
  signals : ℕ
  waits : ℕ

/-- What `Signal` has put in and `Wait` has not taken out. -/
def Account.available (a : Account) : ℤ := a.initial + a.signals - a.waits

structure State where
  table : STable
  /-- The threads made ready by `Signal` that are still inside `P`. -/
  woken : Fin MAX_SEMAPHORE → List ThreadId
  account : Fin MAX_SEMAPHORE → Account
  /-- A store has gone outside `semTab`, or an assertion has failed. -/
  crashed : Bool

inductive Label where
  | create (name : Option CString) (init : Word)
  | wait (t : ThreadId) (name : CString)
  /-- A thread returns from `Sleep` inside `P`. -/
  | resume (t : ThreadId) (id : Fin MAX_SEMAPHORE)
  | signal (name : CString)

namespace State

/-- A thread that is not inside `P`. -/
def Outside (s : State) (t : ThreadId) : Prop :=
  ∀ id, t ∉ s.woken id ∧ ∀ sem ∈ s.table.semTab id, t ∉ sem.queue

instance (s : State) (t : ThreadId) : Decidable (s.Outside t) :=
  inferInstanceAs (Decidable (∀ _, _ ∧ ∀ _ ∈ _, _))

def crash (s : State) : State := { s with crashed := true }

/-- After a `Create` that has answered `id`. -/
def created (s : State) (init : Word) (id : ℤ) (table : STable) : State :=
  { s with
    table := table
    account := fun i => if (i : ℤ) = id then ⟨init.toInt, 0, 0⟩ else s.account i }

/-- After a turn of `P` on the semaphore in slot `id`. -/
def turned (s : State) (id : Option (Fin MAX_SEMAPHORE)) (answer : Option ℤ) (table : STable) :
    State :=
  { s with
    table := table
    account := fun i =>
      if id = some i ∧ answer = some 0 then
        { s.account i with waits := (s.account i).waits + 1 }
      else s.account i }

/-- After a `Signal` on the semaphore in slot `id`. -/
def signalled (s : State) (id : Option (Fin MAX_SEMAPHORE)) (woken : Option ThreadId)
    (table : STable) : State :=
  { s with
    table := table
    woken := fun i => if id = some i then s.woken i ++ woken.toList else s.woken i
    account := fun i =>
      if id = some i then { s.account i with signals := (s.account i).signals + 1 }
      else s.account i }

/-- `t` is back from `Sleep`. -/
def dispatched (s : State) (t : ThreadId) (id : Fin MAX_SEMAPHORE) : State :=
  { s with woken := Function.update s.woken id ((s.woken id).erase t) }

/-- The next turn of a woken thread. -/
def retry (s : State) (t : ThreadId) (id : Fin MAX_SEMAPHORE) : State :=
  match (s.table.semTab id).bind fun sem => sem.P t with
  | none => s.crash
  | some (answer, sem) => s.turned (some id) answer (s.table.set id sem)

end State

def step (s : State) (l : Label) : Option State :=
  if s.crashed then none
  else match l with
    | .create name init => some <| match s.table.create name init with
      | none => s.crash
      | some (id, table) => s.created init id table
    | .wait t name =>
      if s.Outside t then some <| match s.table.wait t name with
        | none => s.crash
        | some (answer, table) => s.turned (s.table.find name) answer table
      else none
    | .resume t id => if t ∈ s.woken id then some ((s.dispatched t id).retry t id) else none
    | .signal name => some <| match s.table.signal name with
      | none => s.crash
      | some (_, woken, table) => s.signalled (s.table.find name) woken table

/-- The start, with the table that the constructor has made. -/
def start (table : STable) : State := ⟨table, fun _ => [], fun _ => ⟨0, 0, 0⟩, false⟩

/-- What holds between any two steps, also after a store outside `semTab`. -/
structure Inv (s : State) : Prop where
  map : s.table.IsMap
  /-- No thread is twice inside `P` on one semaphore. -/
  nodup : ∀ id, ∀ sem ∈ s.table.semTab id, (sem.queue ++ s.woken id).Nodup
  unused : ∀ id, s.table.semTab id = none → s.woken id = []

/-- `t` takes a turn of `P` in state `r`, which `s` is or becomes when `t` is dispatched. -/
structure AtTurn (s r : State) (t : ThreadId) (id : Fin MAX_SEMAPHORE) (sem : Sem) :
    Prop where
  inv : Inv r
  table : r.table = s.table
  account : r.account = s.account
  running : r.crashed = s.crashed
  found : r.table.semTab id = some sem
  outside : t ∉ sem.queue ++ r.woken id

/-- What one step can do. -/
inductive Moves (s : State) : Label → State → Prop where
  | refused {name : Option CString} {init : Word} (h : s.table.Refuses name init) :
      Moves s (.create name init) s
  | overfull {name : CString} {init : Word} (hfull : s.table.Full)
      (h : ¬ s.table.Refuses (some name) init) : Moves s (.create (some name) init) s.crash
  | created {name : CString} {init : Word} {id : Fin MAX_SEMAPHORE}
      (hfree : s.table.semTab id = none) (h : ¬ s.table.Refuses (some name) init) :
      Moves s (.create (some name) init) (s.created init id (s.table.added id name init))
  | unnamed {l : Label} : Moves s l s
  | takes {l : Label} {r : State} {t : ThreadId} {id : Fin MAX_SEMAPHORE} {sem : Sem}
      (hturn : AtTurn s r t id sem) (hvalue : sem.value ≠ 0) :
      Moves s l (r.turned (some id) (some 0) (r.table.set id { sem with value := sem.value - 1 }))
  | sleeps {l : Label} {r : State} {t : ThreadId} {id : Fin MAX_SEMAPHORE} {sem : Sem}
      (hturn : AtTurn s r t id sem) :
      Moves s l (r.turned (some id) none (r.table.set id { sem with queue := sem.queue ++ [t] }))
  | signals {name : CString} {id : Fin MAX_SEMAPHORE} {sem : Sem}
      (hfound : s.table.semTab id = some sem) (hname : sem.HasName name) :
      Moves s (.signal name) (s.signalled (some id) sem.V.1 (s.table.set id sem.V.2))

section

variable {s s' : State} {l : Label}

theorem turned_of_unnamed {answer : Option ℤ} : s.turned none answer s.table = s := by
  simp [State.turned]

theorem created_of_refused {init : Word} : s.created init (-1) s.table = s := by
  have hne : ∀ i : Fin MAX_SEMAPHORE, (i : ℤ) ≠ -1 := by omega
  simp [State.created, hne]

theorem signalled_of_unnamed : s.signalled none none s.table = s := by
  simp [State.signalled]

/-- The outcome of a turn. -/
theorem AtTurn.moves {r : State} {t : ThreadId} {id : Fin MAX_SEMAPHORE} {sem : Sem}
    (h : AtTurn s r t id sem) : Moves s l (r.retry t id) := by
  have hout := not_or.mp (List.mem_append.not.mp h.outside)
  unfold State.retry
  rw [h.found, Option.bind_some]
  by_cases hv : sem.value = 0
  · rw [Sem.P_of_zero hv hout.1]
    exact .sleeps h
  · rw [Sem.P_of_pos t hv]
    exact .takes h hv

theorem dispatched_woken_self {t : ThreadId} {id : Fin MAX_SEMAPHORE} :
    (s.dispatched t id).woken id = (s.woken id).erase t := Function.update_self ..

theorem dispatched_woken_ne {t : ThreadId} {i id : Fin MAX_SEMAPHORE} (h : i ≠ id) :
    (s.dispatched t id).woken i = s.woken i := Function.update_of_ne h ..

theorem Inv.dispatched (hi : Inv s) (t : ThreadId) (id : Fin MAX_SEMAPHORE) :
    Inv (s.dispatched t id) := by
  have hsub : ∀ i, ((s.dispatched t id).woken i).Sublist (s.woken i) := by
    intro i
    by_cases h : i = id
    · subst h
      rw [dispatched_woken_self]
      exact List.erase_sublist
    · rw [dispatched_woken_ne h]
  refine ⟨hi.map, ?_, ?_⟩
  · intro i sem hsem
    exact (hi.nodup i sem hsem).sublist (List.Sublist.append_left (hsub i) _)
  · intro i hnone
    have hnil := hi.unused i hnone
    exact List.sublist_nil.mp (hnil ▸ hsub i)

theorem Inv.atTurn_self (hi : Inv s) {t : ThreadId} {id : Fin MAX_SEMAPHORE} {sem : Sem}
    (hout : s.Outside t) (hfound : s.table.semTab id = some sem) : AtTurn s s t id sem := by
  refine ⟨hi, rfl, rfl, rfl, hfound, ?_⟩
  exact List.mem_append.not.mpr (not_or.mpr ⟨(hout id).2 sem hfound, (hout id).1⟩)

theorem Inv.atTurn_dispatched (hi : Inv s) {t : ThreadId} {id : Fin MAX_SEMAPHORE} {sem : Sem}
    (hmem : t ∈ s.woken id) (hfound : s.table.semTab id = some sem) :
    AtTurn s (s.dispatched t id) t id sem := by
  have hdisjoint := List.nodup_append.mp (hi.nodup id sem hfound)
  refine ⟨hi.dispatched t id, rfl, rfl, rfl, hfound, ?_⟩
  rw [List.mem_append, dispatched_woken_self, not_or]
  exact ⟨fun hq => hdisjoint.2.2 t hq t hmem rfl, hdisjoint.2.1.not_mem_erase⟩

/-- Whether a name is in the table. -/
theorem named_or_not (tab : STable) (name : CString) :
    (∀ i, ¬ tab.Named name i) ∨ ∃ id sem, tab.semTab id = some sem ∧ sem.HasName name := by
  by_cases h : ∃ id, tab.Named name id
  · exact .inr h
  · exact .inl (not_exists.mp h)

theorem Inv.wait_moves (hi : Inv s) {t : ThreadId} {name : CString} (hout : s.Outside t)
    (hs : step s (.wait t name) = some s') (hrun : s.crashed = false) :
    Moves s (.wait t name) s' := by
  simp only [step, hrun, Bool.false_eq_true, hout, ↓reduceIte] at hs
  obtain hnone | ⟨id, sem, hfound, hname⟩ := named_or_not s.table name
  · rw [STable.wait_of_unnamed hnone, STable.find_eq_none_iff.mpr hnone] at hs
    cases hs
    show Moves s _ (s.turned none (some (-1)) s.table)
    rw [turned_of_unnamed]
    exact .unnamed
  · have hturn := (hi.atTurn_self hout hfound).moves (l := .wait t name)
    rw [hi.map.wait_of_named hfound hname, hi.map.find_eq_some_iff.mpr ⟨sem, hfound, hname⟩] at hs
    unfold State.retry at hturn
    rw [hfound, Option.bind_some] at hturn
    cases hP : sem.P t with
    | none =>
      rw [hP] at hs hturn
      cases hs
      exact hturn
    | some r =>
      rw [hP] at hs hturn
      cases hs
      exact hturn

theorem Inv.moves (hi : Inv s) (hs : step s l = some s') : Moves s l s' := by
  have hrun : s.crashed = false := by
    by_contra h
    simp [step, h] at hs
  cases l with
  | create name init =>
    simp only [step, hrun, Bool.false_eq_true, ↓reduceIte] at hs
    by_cases href : s.table.Refuses name init
    · rw [STable.create_of_refuses href] at hs
      cases hs
      show Moves s _ (s.created init (-1) s.table)
      rw [created_of_refused]
      exact .refused href
    · obtain ⟨name, rfl⟩ : ∃ n, name = some n := by
        cases name with
        | none => exact absurd STable.refuses_none href
        | some n => exact ⟨n, rfl⟩
      by_cases hfull : s.table.Full
      · rw [hi.map.create_of_full hfull href] at hs
        cases hs
        exact .overfull hfull href
      · obtain ⟨id, hfree, -, hcreate⟩ := hi.map.create_of_free hfull href
        rw [hcreate] at hs
        cases hs
        exact .created hfree href
  | wait t name =>
    have hout : s.Outside t := by
      simp only [step, hrun, Bool.false_eq_true, ↓reduceIte] at hs
      exact (Option.ite_none_right_eq_some.mp hs).1
    exact hi.wait_moves hout hs hrun
  | resume t id =>
    simp only [step, hrun, Bool.false_eq_true, ↓reduceIte] at hs
    obtain ⟨hmem, h⟩ := Option.ite_none_right_eq_some.mp hs
    cases h
    cases hfound : s.table.semTab id with
    | none => simp [hi.unused id hfound] at hmem
    | some sem => exact (hi.atTurn_dispatched hmem hfound).moves
  | signal name =>
    simp only [step, hrun, Bool.false_eq_true, ↓reduceIte] at hs
    obtain hnone | ⟨id, sem, hfound, hname⟩ := named_or_not s.table name
    · rw [STable.signal_of_unnamed hnone, STable.find_eq_none_iff.mpr hnone] at hs
      cases hs
      show Moves s _ (s.signalled none none s.table)
      rw [signalled_of_unnamed]
      exact .unnamed
    · rw [hi.map.signal_of_named hfound hname,
        hi.map.find_eq_some_iff.mpr ⟨sem, hfound, hname⟩] at hs
      cases hs
      exact .signals hfound hname

theorem Inv.turned {r : State} {id : Fin MAX_SEMAPHORE} {sem sem' : Sem} {answer : Option ℤ}
    (hi : Inv r) (hfound : r.table.semTab id = some sem) (hname : sem'.name = sem.name)
    (hnodup : (sem'.queue ++ r.woken id).Nodup) :
    Inv (r.turned (some id) answer (r.table.set id sem')) := by
  refine ⟨hi.map.set hfound hname, ?_, ?_⟩
  · intro i a ha
    by_cases h : i = id
    · subst h
      cases (STable.set_semTab_self sem').symm.trans ha
      exact hnodup
    · exact hi.nodup i a ((STable.set_semTab_ne sem' h).symm.trans ha)
  · intro i hnone
    by_cases h : i = id
    · subst h
      cases (STable.set_semTab_self sem').symm.trans hnone
    · exact hi.unused i ((STable.set_semTab_ne sem' h).symm.trans hnone)

theorem Inv.signalled {id : Fin MAX_SEMAPHORE} {sem : Sem} (hi : Inv s)
    (hfound : s.table.semTab id = some sem) :
    Inv (s.signalled (some id) sem.V.1 (s.table.set id sem.V.2)) := by
  have hself : (s.signalled (some id) sem.V.1 (s.table.set id sem.V.2)).woken id =
      s.woken id ++ sem.queue.head?.toList := if_pos rfl
  have hother : ∀ i, i ≠ id →
      (s.signalled (some id) sem.V.1 (s.table.set id sem.V.2)).woken i = s.woken i := by
    intro i h
    exact if_neg (by simpa using h.symm)
  refine ⟨hi.map.set hfound rfl, ?_, ?_⟩
  · intro i a ha
    by_cases h : i = id
    · subst h
      cases (STable.set_semTab_self sem.V.2).symm.trans ha
      have hnodup := hi.nodup i sem hfound
      rw [hself]
      show (sem.queue.tail ++ (s.woken i ++ sem.queue.head?.toList)).Nodup
      cases hq : sem.queue with
      | nil => simpa [hq] using hnodup
      | cons t queue =>
        rw [hq] at hnodup
        show (queue ++ (s.woken i ++ [t])).Nodup
        rw [← List.append_assoc]
        exact (List.perm_append_singleton t _).nodup_iff.mpr hnodup
    · rw [hother i h]
      exact hi.nodup i a ((STable.set_semTab_ne sem.V.2 h).symm.trans ha)
  · intro i hnone
    by_cases h : i = id
    · subst h
      cases (STable.set_semTab_self sem.V.2).symm.trans hnone
    · rw [hother i h]
      exact hi.unused i ((STable.set_semTab_ne sem.V.2 h).symm.trans hnone)

theorem Inv.created {name : CString} {init : Word} {id : Fin MAX_SEMAPHORE} (hi : Inv s)
    (hfree : s.table.semTab id = none) (h : ¬ s.table.Refuses (some name) init) :
    Inv (s.created init id (s.table.added id name init)) := by
  have hnew : ∀ i, ¬ s.table.Named name i := by
    intro i hi
    apply h
    intro n hn
    cases hn
    exact .inr ⟨i, hi⟩
  refine ⟨hi.map.added hfree hnew, ?_, ?_⟩
  · intro i a ha
    by_cases hid : i = id
    · subst hid
      cases (STable.set_semTab_self (Sem.new name init)).symm.trans ha
      show (s.woken i).Nodup
      rw [hi.unused i hfree]
      exact List.nodup_nil
    · exact hi.nodup i a ((STable.set_semTab_ne (Sem.new name init) hid).symm.trans ha)
  · intro i hnone
    by_cases hid : i = id
    · subst hid
      cases (STable.set_semTab_self (Sem.new name init)).symm.trans hnone
    · exact hi.unused i ((STable.set_semTab_ne (Sem.new name init) hid).symm.trans hnone)

/-- Every step keeps the invariant. -/
theorem Inv.step (hi : Inv s) (hs : step s l = some s') : Inv s' := by
  cases hi.moves hs with
  | refused => exact hi
  | overfull => exact ⟨hi.map, hi.nodup, hi.unused⟩
  | created hfree h => exact hi.created hfree h
  | unnamed => exact hi
  | takes hturn =>
    have hnodup := hturn.inv.nodup _ _ hturn.found
    exact hturn.inv.turned hturn.found (by rfl) hnodup
  | sleeps hturn =>
    refine hturn.inv.turned hturn.found (by rfl) ?_
    rw [List.append_assoc, List.singleton_append, List.nodup_middle]
    exact List.nodup_cons.mpr ⟨hturn.outside, hturn.inv.nodup _ _ hturn.found⟩
  | signals hfound => exact hi.signalled hfound

theorem Inv.start {tab : STable} (h : STable.new = some tab) : Inv (start tab) := by
  obtain ⟨tab', hnew, hmap, hempty⟩ := STable.new_spec
  cases h.symm.trans hnew
  refine ⟨hmap, ?_, fun _ _ => rfl⟩
  intro id sem hsem
  cases (hempty id).symm.trans hsem

/-- A `Create` that passes its checks finds a free slot. -/
def HasRoom (s : State) : Label → Prop
  | .create name init => ¬ (s.table.Full ∧ ¬ s.table.Refuses name init)
  | _ => True

instance (s : State) : ∀ l, Decidable (HasRoom s l)
  | .create _ _ => inferInstanceAs (Decidable (¬ (_ ∧ _)))
  | .wait _ _ | .resume _ _ | .signal _ => isTrue trivial

theorem Inv.step_running (hi : Inv s) (hrun : s.crashed = false) (hroom : HasRoom s l)
    (hs : STableRuns.step s l = some s') : s'.crashed = false := by
  cases hi.moves hs with
  | refused => exact hrun
  | overfull hfull h => exact absurd ⟨hfull, h⟩ hroom
  | created => exact hrun
  | unnamed => exact hrun
  | takes hturn => exact hturn.running.trans hrun
  | sleeps hturn => exact hturn.running.trans hrun
  | signals => exact hrun

/-- `Create` refuses what it should and otherwise takes the least free slot. -/
def CreateAgrees (tab : STable) (name : Option CString) (init : Word) : Prop :=
  (tab.Refuses name init ∨ tab.Full → tab.create name init = some (-1, tab)) ∧
    (¬ (tab.Refuses name init ∨ tab.Full) → ∃ n ∈ name, ∃ id : Fin MAX_SEMAPHORE,
      tab.semTab id = none ∧ (∀ j < id, tab.semTab j ≠ none) ∧
      tab.create name init = some ((id : ℤ), tab.added id n init))

/-- `Wait` by `t` and `Signal` act on the semaphore of that name, or answer -1. -/
def CallsAgree (tab : STable) (t : ThreadId) (name : CString) : Prop :=
  ((∀ i, ¬ tab.Named name i) → tab.wait t name = some (some (-1), tab) ∧
      tab.signal name = some (-1, none, tab)) ∧
    ∀ id sem, tab.semTab id = some sem → sem.HasName name →
      (∀ i, tab.Named name i → i = id) ∧
      (∃ answer sem', sem.P t = some (answer, sem') ∧ answer ≠ some (-1) ∧
        tab.wait t name = some (answer, tab.set id sem')) ∧
      tab.signal name = some (0, sem.V.1, tab.set id sem.V.2)

theorem createAgrees_iff (hm : s.table.IsMap) (name : Option CString) (init : Word) :
    CreateAgrees s.table name init ↔ HasRoom s (.create name init) := by
  constructor
  · rintro ⟨hrefuse, -⟩ ⟨hfull, h⟩
    cases name with
    | none => exact h STable.refuses_none
    | some n =>
      have hcreate := hrefuse (.inr hfull)
      rw [hm.create_of_full hfull h] at hcreate
      cases hcreate
  · intro hroom
    constructor
    · rintro (h | hfull)
      · exact STable.create_of_refuses h
      · exact STable.create_of_refuses (not_not.mp fun h => hroom ⟨hfull, h⟩)
    · intro h
      obtain ⟨href, hfree⟩ := not_or.mp h
      cases name with
      | none => exact absurd STable.refuses_none href
      | some n => exact ⟨n, rfl, hm.create_of_free hfree href⟩

theorem Inv.callsAgree (hi : Inv s) {t : ThreadId} (hout : s.Outside t) (name : CString) :
    CallsAgree s.table t name := by
  refine ⟨fun h => ⟨STable.wait_of_unnamed h t, STable.signal_of_unnamed h⟩, ?_⟩
  intro id sem hfound hname
  refine ⟨?_, ?_, hi.map.signal_of_named hfound hname⟩
  · intro i hi'
    exact hi.map.named_unique hi' ⟨sem, hfound, hname⟩
  · have hP : ∃ r, sem.P t = some r := by
      by_cases hv : sem.value = 0
      · exact ⟨_, Sem.P_of_zero hv ((hout id).2 sem hfound)⟩
      · exact ⟨_, Sem.P_of_pos t hv⟩
    obtain ⟨⟨answer, sem'⟩, hP⟩ := hP
    refine ⟨answer, sem', hP, (Sem.P_spec hP).2, ?_⟩
    rw [hi.map.wait_of_named hfound hname, hP]
    rfl

/-- As long as no `Create` needs a slot that is not there, the table is a map from names to
semaphores, and the calls are the operations of such a map. In each state reached, `Create`
does what it should exactly if it does not need a slot that is not there. -/
theorem bounded_map {tab : STable} (hnew : STable.new = some tab)
    (hr : Runs.Reach step HasRoom (start tab) s) :
    s.crashed = false ∧
    (∀ i j a b, s.table.semTab i = some a → s.table.semTab j = some b →
      strncmp a.name b.name SEMAPHORE_MAX_NAMESIZE = 0 → i = j) ∧
    (∀ id : Fin MAX_SEMAPHORE, s.table.bm.mem id = (s.table.semTab id).isSome) ∧
    (∀ t name, s.Outside t → CallsAgree s.table t name) ∧
    ∀ name init, CreateAgrees s.table name init ↔ HasRoom s (.create name init) := by
  have hi : Inv s ∧ s.crashed = false := by
    refine hr.invariant (P := fun u => Inv u ∧ u.crashed = false) ⟨.start hnew, rfl⟩ ?_
    intro u l v hi hroom hs
    exact ⟨hi.1.step hs, hi.1.step_running hi.2 hroom hs⟩
  exact ⟨hi.2, hi.1.map.distinct, hi.1.map.bitmap, fun t name hout => hi.1.callsAgree hout name,
    createAgrees_iff hi.1.map⟩

end

/-- A name of one character. -/
def letter (c : UInt8) (h : c ≠ 0) : CString := ⟨[c], by simpa using h.symm⟩

/-- Ten semaphores. -/
def tenCreates : List Label :=
  [.create (some (letter 97 (by decide))) 0, .create (some (letter 98 (by decide))) 0,
    .create (some (letter 99 (by decide))) 0, .create (some (letter 100 (by decide))) 0,
    .create (some (letter 101 (by decide))) 0, .create (some (letter 102 (by decide))) 0,
    .create (some (letter 103 (by decide))) 0, .create (some (letter 104 (by decide))) 0,
    .create (some (letter 105 (by decide))) 0, .create (some (letter 106 (by decide))) 0]

theorem bounded_map_wait :
    ∃ tab, ∃ s : State, STable.new = some tab ∧ s.woken 0 = [3] ∧
      s.table.create (some (letter 97 (by decide))) 5 = some (-1, s.table) ∧
      CreateAgrees s.table (some (letter 98 (by decide))) 5 := by
  have hview : (STable.new.bind fun tab => (Runs.execIf step HasRoom (start tab)
      [.create (some (letter 97 (by decide))) 0, .wait 3 (letter 97 (by decide)),
        .signal (letter 97 (by decide))]).map fun s => (tab, s)).map (fun r =>
      (decide (r.2.table.Refuses (some (letter 97 (by decide))) 5), decide r.2.table.Full,
        r.2.woken 0)) = some (true, false, [3]) := by
    decide +kernel
  obtain ⟨⟨tab, s⟩, hrun, hparts⟩ := Option.map_eq_some_iff.mp hview
  obtain ⟨tab', hnew, hexec⟩ := Option.bind_eq_some_iff.mp hrun
  obtain ⟨s', hexec, heq⟩ := Option.map_eq_some_iff.mp hexec
  cases heq
  simp only [Prod.mk.injEq, decide_eq_true_eq, decide_eq_false_iff_not] at hparts
  obtain ⟨-, -, -, -, hcreate⟩ := bounded_map hnew (Runs.reach_of_execIf hexec)
  refine ⟨tab, s, hnew, hparts.2.2, STable.create_of_refuses hparts.1, ?_⟩
  exact (hcreate _ _).mpr fun h => hparts.2.1 h.1

/-- The eleventh name makes `Create` store outside `semTab`. -/
theorem not_createAgrees_eleventh :
    ∃ tab s, STable.new = some tab ∧ Runs.exec step (start tab) tenCreates = some s ∧
      s.table.Full ∧ s.table.create (some (letter 107 (by decide))) 0 = none ∧
      ¬ CreateAgrees s.table (some (letter 107 (by decide))) 0 := by
  have hview : (STable.new.bind fun tab => (Runs.exec step (start tab) tenCreates).map fun s =>
      (tab, s)).map (fun r => (decide r.2.table.Full,
        (r.2.table.create (some (letter 107 (by decide))) 0).isNone)) = some (true, true) := by
    decide +kernel
  obtain ⟨⟨tab, s⟩, hrun, hparts⟩ := Option.map_eq_some_iff.mp hview
  obtain ⟨tab', hnew, hexec⟩ := Option.bind_eq_some_iff.mp hrun
  obtain ⟨s', hexec, heq⟩ := Option.map_eq_some_iff.mp hexec
  cases heq
  simp only [Prod.mk.injEq, decide_eq_true_eq, Option.isNone_iff_eq_none] at hparts
  refine ⟨tab, s, hnew, hexec, hparts.1, hparts.2, ?_⟩
  rintro ⟨hrefuse, -⟩
  have hcreate := hrefuse (.inr hparts.1)
  rw [hparts.2] at hcreate
  cases hcreate

/-- No `Signal` finds the counter at the largest `int`. -/
def BelowMax (s : State) : Label → Prop
  | .signal name => ∀ id, ∀ sem ∈ s.table.semTab id, sem.HasName name → sem.value.toInt < 2 ^ 31 - 1
  | _ => True

instance (s : State) : ∀ l, Decidable (BelowMax s l)
  | .signal _ => inferInstanceAs (Decidable (∀ _, ∀ _ ∈ _, _ → _))
  | .wait _ _ | .resume _ _ | .create _ _ => isTrue trivial

/-- The counter of each semaphore is what its history says, and not negative. -/
def Balanced (s : State) : Prop :=
  ∀ id, ∀ sem ∈ s.table.semTab id,
    0 ≤ sem.value.toInt ∧ sem.value.toInt = (s.account id).available

section

variable {s s' : State} {l : Label}

theorem toInt_pos {v : Word} (h : 0 ≤ v.toInt) (hv : v ≠ 0) : 0 < v.toInt := by
  rcases h.lt_or_eq with h | h
  · exact h
  · exact absurd (BitVec.toInt_inj.mp (h.symm.trans rfl)) hv

theorem toInt_sub_one {v : Word} (h : 0 < v.toInt) : (v - 1).toInt = v.toInt - 1 := by
  have hlt := v.toInt_lt
  have hone : (1 : Word).toInt = 1 := by decide
  rw [BitVec.toInt_sub, hone, Int.bmod_eq_of_le]
  all_goals omega

theorem toInt_add_one {v : Word} (h : 0 ≤ v.toInt) (hmax : v.toInt < 2 ^ 31 - 1) :
    (v + 1).toInt = v.toInt + 1 := by
  have hone : (1 : Word).toInt = 1 := by decide
  rw [BitVec.toInt_add, hone, Int.bmod_eq_of_le]
  all_goals omega

/-- A step on the semaphore in slot `id` leaves the others alone. -/
theorem Balanced.update {id : Fin MAX_SEMAPHORE} {sem : Sem} (hb : Balanced s)
    (hself : s'.table.semTab id = some sem) (hnonneg : 0 ≤ sem.value.toInt)
    (havailable : sem.value.toInt = (s'.account id).available)
    (hother : ∀ i, i ≠ id →
      s'.table.semTab i = s.table.semTab i ∧ s'.account i = s.account i) : Balanced s' := by
  intro i a ha
  by_cases h : i = id
  · subst h
    cases hself.symm.trans ha
    exact ⟨hnonneg, havailable⟩
  · obtain ⟨htable, haccount⟩ := hother i h
    rw [haccount]
    exact hb i a (htable ▸ ha)

theorem Balanced.created {name : CString} {init : Word} {id : Fin MAX_SEMAPHORE} (hb : Balanced s)
    (h : ¬ s.table.Refuses (some name) init) :
    Balanced (s.created init id (s.table.added id name init)) := by
  have hinit : 0 ≤ init.toInt := by
    by_contra hneg
    apply h
    intro n _
    exact .inl (not_le.mp hneg)
  apply hb.update (STable.set_semTab_self (Sem.new name init)) hinit
  · show init.toInt = Account.available (if (id : ℤ) = id then _ else _)
    simp [Account.available]
  · intro i hi
    have hne : ¬ (i : ℤ) = id := by omega
    exact ⟨STable.set_semTab_ne (Sem.new name init) hi, if_neg hne⟩

theorem AtTurn.balance {r : State} {t : ThreadId} {id : Fin MAX_SEMAPHORE} {sem : Sem}
    (h : AtTurn s r t id sem) (hb : Balanced s) :
    Balanced r ∧ 0 ≤ sem.value.toInt ∧ sem.value.toInt = (r.account id).available := by
  have hr : Balanced r := by
    intro i a ha
    rw [h.account]
    exact hb i a (h.table ▸ ha)
  exact ⟨hr, hr id sem h.found⟩

theorem AtTurn.balanced_takes {r : State} {t : ThreadId} {id : Fin MAX_SEMAPHORE} {sem : Sem}
    (h : AtTurn s r t id sem) (hb : Balanced s) (hv : sem.value ≠ 0) :
    Balanced (r.turned (some id) (some 0)
      (r.table.set id { sem with value := sem.value - 1 })) := by
  obtain ⟨hr, hnonneg, heq⟩ := h.balance hb
  have hpos := toInt_pos hnonneg hv
  have hsub := toInt_sub_one hpos
  apply hr.update (STable.set_semTab_self { sem with value := sem.value - 1 })
  · show 0 ≤ (sem.value - 1).toInt
    omega
  · show (sem.value - 1).toInt = Account.available (if some id = some id ∧ _ then _ else _)
    rw [hsub, heq]
    simp only [and_self, ↓reduceIte, Account.available]
    omega
  · intro i hi
    exact ⟨STable.set_semTab_ne _ hi, if_neg fun h => hi (Option.some.inj h.1).symm⟩

theorem AtTurn.balanced_sleeps {r : State} {t : ThreadId} {id : Fin MAX_SEMAPHORE} {sem : Sem}
    (h : AtTurn s r t id sem) (hb : Balanced s) :
    Balanced (r.turned (some id) none
      (r.table.set id { sem with queue := sem.queue ++ [t] })) := by
  obtain ⟨hr, hnonneg, heq⟩ := h.balance hb
  have haccount : ∀ i, (r.turned (some id) none
      (r.table.set id { sem with queue := sem.queue ++ [t] })).account i = r.account i := by
    intro i
    exact if_neg (by simp)
  apply hr.update (STable.set_semTab_self { sem with queue := sem.queue ++ [t] })
  · exact hnonneg
  · rw [haccount]
    exact heq
  · intro i hi
    exact ⟨STable.set_semTab_ne _ hi, haccount i⟩

theorem Balanced.signalled {id : Fin MAX_SEMAPHORE} {sem : Sem} (hb : Balanced s)
    (hfound : s.table.semTab id = some sem) (hmax : sem.value.toInt < 2 ^ 31 - 1) :
    Balanced (s.signalled (some id) sem.V.1 (s.table.set id sem.V.2)) := by
  obtain ⟨hnonneg, heq⟩ := hb id sem hfound
  have hadd := toInt_add_one hnonneg hmax
  apply hb.update (STable.set_semTab_self sem.V.2)
  · show 0 ≤ (sem.value + 1).toInt
    omega
  · show (sem.value + 1).toInt = Account.available (if some id = some id then _ else _)
    rw [hadd, heq]
    simp only [↓reduceIte, Account.available]
    omega
  · intro i hi
    exact ⟨STable.set_semTab_ne _ hi, if_neg fun h => hi (Option.some.inj h).symm⟩

theorem Balanced.step (hb : Balanced s) (hi : Inv s) (hmax : BelowMax s l)
    (hs : STableRuns.step s l = some s') : Balanced s' := by
  cases hi.moves hs with
  | refused => exact hb
  | overfull => exact hb
  | created hfree h => exact hb.created h
  | unnamed => exact hb
  | takes hturn hv => exact hturn.balanced_takes hb hv
  | sleeps hturn => exact hturn.balanced_sleeps hb
  | signals hfound hname => exact hb.signalled hfound (hmax _ _ hfound hname)

end

end Nachos.STableRuns

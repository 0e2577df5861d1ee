import Nachos.Lib.ListSequence
import Nachos.Library.StableSort

/-! `SortedList` of `lib/list.cc` on its pointers, with the comparison function as a parameter. -/
namespace Nachos.PointerList

variable {α : Type}

/-- The loop of `Insert` at `ptr`. It either puts the element in front of the next one and
returns the list, or it comes to the end. -/
def insertLoop (compare : α → α → ℤ) (l : PointerList α) (item : α) (element : ℕ) :
    ℕ → Option ℕ → Option (Option (PointerList α))
  | 0, _ => none
  | turns + 1, ptr => do
    let here ← l.deref ptr
    if here.next = none then some none
    else
      let after ← l.deref here.next
      if compare item after.item < 0 then
        let l ← l.setNext (some element) here.next
        let l ← l.setNext ptr (some element)
        return some { l with numInList := l.numInList + 1 }
      else insertLoop compare l item element turns here.next

/-- The new item is counted, and has to be found. -/
def counted [DecidableEq α] (l : PointerList α) (item : α) : Option (PointerList α) := do
  let l := { l with numInList := l.numInList + 1 }
  if ← l.isInList item then some l else none

/-- `Insert` with its new element. The return from the loop leaves out the last assertion. -/
def insertElement [DecidableEq α] (compare : α → α → ℤ) (l : PointerList α) (item : α)
    (element : ℕ) : Option (PointerList α) := do
  if ← l.isInList item then none
  else if l.isEmpty then counted { l with first := some element, last := some element } item
  else if compare item (← l.deref l.first).item < 0 then
    let l ← l.setNext (some element) l.first
    counted { l with first := some element } item
  else
    match ← insertLoop compare l item element l.turns l.first with
    | some l => return l
    | none =>
      let l ← l.setNext l.last (some element)
      counted { l with last := some element } item

/-- `SortedList::Insert`. -/
def insert [DecidableEq α] (compare : α → α → ℤ) (l : PointerList α) (item : α) :
    Option (PointerList α) :=
  let (element, l) := l.allocate item
  insertElement compare l item element

/-- The loop of `SortedList::SanityCheck`. -/
def sortedLoop (compare : α → α → ℤ) (l : PointerList α) :
    ℕ → (prev ptr : Option ℕ) → Option Unit
  | _, _, none => some ()
  | 0, _, some _ => none
  | turns + 1, prev, some ptr => do
    let element ← l.deref (some ptr)
    if compare (← l.deref prev).item element.item ≤ 0 then
      sortedLoop compare l turns (some ptr) element.next
    else none

/-- `SortedList::SanityCheck`. -/
def sanityCheckSorted (compare : α → α → ℤ) (l : PointerList α) : Option Unit := do
  l.sanityCheck
  if l.first = l.last then some ()
  else sortedLoop compare l l.turns l.first (← l.deref l.first).next

inductive SortedOp (α : Type) where
  | insert (item : α)
  | removeFront
  | remove (item : α)
  deriving DecidableEq

def sortedStep [DecidableEq α] (compare : α → α → ℤ) (l : PointerList α) :
    SortedOp α → Option (Option α × PointerList α)
  | .insert item => (insert compare l item).map (none, ·)
  | .removeFront => l.removeFront.map fun r => (some r.1, r.2)
  | .remove item => (l.remove item).map (none, ·)

/-- The first item does not go behind the second. -/
def AtMost (compare : α → α → ℤ) (x y : α) : Prop := compare x y ≤ 0

instance (compare : α → α → ℤ) : DecidableRel (AtMost compare) :=
  fun x y => Int.decLe (compare x y) 0

/-- The function ranks the items: the sign of its result says which of two goes first. -/
structure Comparison (compare : α → α → ℤ) : Prop where
  swap : ∀ x y, compare x y < 0 ↔ 0 < compare y x
  trans : ∀ x y z, compare x y ≤ 0 → compare y z ≤ 0 → compare x z ≤ 0

/-- The items that have arrived and are still there, as a sorted list hands them out. -/
def sortedItems (compare : α → α → ℤ) (arrivals : List α) : List α :=
  arrivals.insertionSort (AtMost compare)

/-- What the operations do to the items that have arrived. An item goes in only if it is new, and
comes out only if it is there. -/
def arrivalStep [DecidableEq α] (compare : α → α → ℤ) (arrivals : List α) :
    SortedOp α → Option (Option α × List α)
  | .insert item => if item ∈ arrivals then none else some (none, arrivals ++ [item])
  | .removeFront => (sortedItems compare arrivals).head?.map fun item =>
    (some item, arrivals.erase item)
  | .remove item => if item ∈ arrivals then some (none, arrivals.erase item) else none

variable {compare : α → α → ℤ} {l : PointerList α} {before rest back : List (ℕ × α)} {a n : ℕ}
  {item x : α}

/-- The element `n` is linked in behind `a`, as the loop of `Insert` does it. -/
theorem Holds.linkAfter {c : ℕ × α} (h : l.Holds (before ++ (a, x) :: c :: back))
    (hnew : l.elements[n]? = some (some ⟨item, none⟩))
    (hn : n ∉ (before ++ (a, x) :: c :: back).map Prod.fst)
    (hitem : item ∉ (before ++ (a, x) :: c :: back).map Prod.snd) :
    ∃ l', (l.setNext (some n) (some c.1)).bind (·.setNext (some a) (some n)) = some l' ∧
      Holds { l' with numInList := l'.numInList + 1 }
        (before ++ (a, x) :: (n, item) :: c :: back) := by
  obtain ⟨hbefore, next, ha, hrest, hanotbefore, hanotrest⟩ := h.split
  obtain rfl : next = some c.1 := hrest.1
  have hna : n ≠ a := fun heq => hn (by simp [heq])
  have ha' : (l.elements.set n (some ⟨item, some c.1⟩))[a]? = some (some ⟨x, some c.1⟩) :=
    (List.getElem?_set_ne hna).trans ha
  have hnbefore : n ∉ before.map Prod.fst := fun hmem => hn (by simp_all)
  have hnrest : n ∉ (c :: back).map Prod.fst := fun hmem => hn (by simp_all)
  obtain ⟨haddresses, hitems⟩ :=
    h.of_perm (perm_second before (c :: back) (a, x) (n, item)) hn hitem
  rw [setNext_eq hnew, Option.bind_some, setNext_eq ha']
  refine ⟨_, rfl, ?_, ?_, ?_, haddresses, hitems⟩
  · refine segment_append.mpr ⟨_, (hbefore.set hnbefore _).set hanotbefore _, rfl, _,
      List.getElem?_set_self ?_, rfl, _, ?_, (hrest.set hnrest _).set hanotrest _⟩
    · exact (List.getElem?_eq_some_iff.mp ha').1
    · refine (List.getElem?_set_ne hna.symm).trans (List.getElem?_set_self ?_)
      exact (List.getElem?_eq_some_iff.mp hnew).1
  · have hlast := h.last
    simp only [List.getLast?_append, List.getLast?_cons_cons] at hlast ⊢
    exact hlast
  · have hcount := h.count
    simp only [List.length_append, List.length_cons] at hcount ⊢
    omega

/-- The cells in front of which the item goes are found by their items. -/
def CellBefore (compare : α → α → ℤ) (c d : ℕ × α) : Prop := compare c.2 d.2 < 0

instance : DecidableRel (CellBefore compare) := fun c d => Int.decLt (compare c.2 d.2) 0

theorem insertLoop_eq (compare : α → α → ℤ) {turns : ℕ} (h : l.Holds (before ++ (a, x) :: rest))
    (hnew : l.elements[n]? = some (some ⟨item, none⟩))
    (hn : n ∉ (before ++ (a, x) :: rest).map Prod.fst)
    (hitem : item ∉ (before ++ (a, x) :: rest).map Prod.snd) (hturns : rest.length < turns) :
    (insertLoop compare l item n turns (some a) = some none ∧
      rest.orderedInsert (CellBefore compare) (n, item) = rest ++ [(n, item)]) ∨
    ∃ l', insertLoop compare l item n turns (some a) = some (some l') ∧
      l'.Holds (before ++ (a, x) :: rest.orderedInsert (CellBefore compare) (n, item)) := by
  induction rest generalizing before a x turns with
  | nil =>
    obtain ⟨turns, rfl⟩ := Nat.exists_eq_add_one_of_ne_zero hturns.ne'
    obtain ⟨-, next, ha, hrest, -, -⟩ := h.split
    obtain rfl : next = none := hrest
    left
    rw [insertLoop, deref_of_getElem? ha]
    exact ⟨rfl, rfl⟩
  | cons c rest ih =>
    obtain ⟨turns, rfl⟩ := Nat.exists_eq_add_one_of_ne_zero (Nat.zero_lt_of_lt hturns).ne'
    obtain ⟨-, _, ha, ⟨rfl, next, hc, -⟩, -, -⟩ := h.split
    rw [insertLoop, deref_of_getElem? ha]
    simp only [Option.bind_eq_bind, Option.bind_some, reduceCtorEq, if_false,
      deref_of_getElem? hc]
    by_cases hbefore : CellBefore compare (n, item) c
    · right
      obtain ⟨l', hlink, h'⟩ := h.linkAfter hnew hn hitem
      obtain ⟨l₁, hl₁, hl'⟩ := Option.bind_eq_some_iff.mp hlink
      refine ⟨{ l' with numInList := l'.numInList + 1 }, ?_, ?_⟩
      · rw [if_pos (show compare item c.2 < 0 from hbefore), hl₁, Option.bind_some, hl']
        rfl
      · rwa [List.orderedInsert_cons_of_le (CellBefore compare) rest hbefore]
    · rw [if_neg (show ¬compare item c.2 < 0 from hbefore),
        List.orderedInsert_of_not_le (CellBefore compare) rest hbefore]
      have h' : l.Holds ((before ++ [(a, x)]) ++ (c.1, c.2) :: rest) := by
        simpa using h
      have hmoved := ih h' (by simpa using hn) (by simpa using hitem)
        (Nat.lt_of_succ_lt_succ hturns)
      rcases hmoved with ⟨hloop, hend⟩ | ⟨l', hloop, h'⟩
      · exact Or.inl ⟨hloop, by rw [hend, List.cons_append]⟩
      · exact Or.inr ⟨l', hloop, by simpa using h'⟩

section

variable [DecidableEq α]

theorem counted_eq {cells : List (ℕ × α)} (h : Holds { l with numInList := l.numInList + 1 } cells)
    (hmem : item ∈ cells.map Prod.snd) :
    l.counted item = some { l with numInList := l.numInList + 1 } := by
  unfold counted
  simp only [h.isInList, decide_eq_true hmem, Option.bind_eq_bind, Option.bind_some, if_true]

theorem Holds.absent {cells : List (ℕ × α)} (h : l.Holds cells)
    (hitem : item ∉ cells.map Prod.snd) : (l.allocate item).2.isInList item = some false := by
  rw [(h.allocate item).isInList, decide_eq_false hitem]

theorem insert_empty (compare : α → α → ℤ) (h : l.Holds []) (item : α) :
    ∃ l', insert compare l item = some l' ∧ l'.Holds [(l.elements.length, item)] := by
  have hitem : item ∉ ([] : List (ℕ × α)).map Prod.snd := List.not_mem_nil
  obtain ⟨l', hlink, h'⟩ := h.linkLast hitem
  rw [PointerList.linkLast, (h.allocate item).isEmpty, if_pos List.isEmpty_nil] at hlink
  cases hlink
  refine ⟨_, ?_, h'⟩
  change insertElement compare (l.allocate item).2 item l.elements.length = _
  rw [insertElement, h.absent hitem, (h.allocate item).isEmpty]
  simp only [Option.bind_eq_bind, Option.bind_some, Bool.false_eq_true, if_false,
    List.isEmpty_nil, if_true]
  exact counted_eq h' List.mem_cons_self

/-- An item that goes in front of the first. -/
theorem insert_first {c : ℕ × α} (h : l.Holds (c :: rest))
    (hitem : item ∉ (c :: rest).map Prod.snd)
    (hbefore : CellBefore compare (l.elements.length, item) c) :
    ∃ l', insert compare l item = some l' ∧
      l'.Holds ((l.elements.length, item) :: c :: rest) := by
  have hne : ¬(c :: rest).isEmpty = true := by simp
  obtain ⟨hfirst, next, hc, hrest⟩ := (h.allocate item).chain
  obtain ⟨l', hlink, h'⟩ := h.linkFirst hitem
  rw [PointerList.linkFirst, (h.allocate item).isEmpty, if_neg hne] at hlink
  obtain ⟨l₁, hl₁, hl'⟩ := Option.bind_eq_some_iff.mp hlink
  cases hl'
  refine ⟨_, ?_, h'⟩
  change insertElement compare (l.allocate item).2 item l.elements.length = _
  rw [insertElement, h.absent hitem, (h.allocate item).isEmpty]
  rw [hfirst] at hl₁ ⊢
  simp only [Option.bind_eq_bind, Option.bind_some, Bool.false_eq_true, if_false, if_neg hne,
    deref_of_getElem? hc, if_pos (show compare item c.2 < 0 from hbefore), hl₁]
  exact counted_eq h' List.mem_cons_self

/-- Any other item is linked in by the loop, or behind the last. -/
theorem insert_behind {c : ℕ × α} (h : l.Holds (c :: rest))
    (hitem : item ∉ (c :: rest).map Prod.snd)
    (hnot : ¬CellBefore compare (l.elements.length, item) c) :
    ∃ l', insert compare l item = some l' ∧
      l'.Holds (c :: rest.orderedInsert (CellBefore compare) (l.elements.length, item)) := by
  have hne : ¬(c :: rest).isEmpty = true := by simp
  have h₁ := h.allocate item
  have hnew : (l.allocate item).2.elements[l.elements.length]? = some (some ⟨item, none⟩) :=
    List.getElem?_concat_length
  obtain ⟨hfirst, next, hc, hrest⟩ := h₁.chain
  have hcells : (l.allocate item).2.Holds ([] ++ (c.1, c.2) :: rest) := h₁
  have hloop := insertLoop_eq compare hcells hnew h.notMem_length hitem
    (Nat.lt_of_succ_le h₁.length_le)
  change ∃ l', insertElement compare (l.allocate item).2 item l.elements.length = some l' ∧ _
  rw [insertElement, h.absent hitem, h₁.isEmpty, hfirst]
  simp only [Option.bind_eq_bind, Option.bind_some, Bool.false_eq_true, if_false, if_neg hne,
    deref_of_getElem? hc, if_neg (show ¬compare item c.2 < 0 from hnot)]
  rcases hloop with ⟨hloop, hend⟩ | ⟨l', hloop, h'⟩
  · obtain ⟨l', hlink, h'⟩ := h.linkLast hitem
    rw [PointerList.linkLast, h₁.isEmpty, if_neg hne] at hlink
    obtain ⟨l₁, hl₁, hl'⟩ := Option.bind_eq_some_iff.mp hlink
    cases hl'
    rw [hend]
    refine ⟨_, ?_, h'⟩
    simp only [hloop, Option.bind_some, hl₁]
    exact counted_eq h' (by simp)
  · refine ⟨l', ?_, h'⟩
    simp only [hloop, Option.bind_some]
    rfl

theorem insert_holds (compare : α → α → ℤ) {cells : List (ℕ × α)} (h : l.Holds cells)
    (hitem : item ∉ cells.map Prod.snd) :
    ∃ l', insert compare l item = some l' ∧ l'.Holds
      (cells.orderedInsert (CellBefore compare) (l.elements.length, item)) := by
  cases cells with
  | nil => exact insert_empty compare h item
  | cons c rest =>
    by_cases hbefore : CellBefore compare (l.elements.length, item) c
    · rw [List.orderedInsert_cons_of_le (CellBefore compare) rest hbefore]
      exact insert_first h hitem hbefore
    · rw [List.orderedInsert_of_not_le (CellBefore compare) rest hbefore]
      exact insert_behind h hitem hbefore

end

namespace Comparison

theorem totalPreorder (h : Comparison compare) : StableSort.TotalPreorder (AtMost compare) := by
  refine ⟨fun x y => ?_, h.trans⟩
  rcases le_or_gt (compare x y) 0 with hle | hlt
  · exact Or.inl hle
  · exact Or.inr ((h.swap y x).mpr hlt).le

theorem before_iff (h : Comparison compare) (x y : α) :
    compare x y < 0 ↔ ¬AtMost compare y x := by
  rw [h.swap, AtMost, not_le]

theorem ties_eq (h : Comparison compare) (x : α) :
    StableSort.ties (AtMost compare) x = fun y => decide (compare x y = 0) := by
  funext y
  have hxy := h.swap x y
  have hyx := h.swap y x
  unfold StableSort.ties AtMost
  refine decide_eq_decide.mpr ?_
  omega

end Comparison

theorem sortedLoop_eq {ptr : Option ℕ} {turns : ℕ} {next : Option ℕ}
    (ha : l.elements[a]? = some (some ⟨x, next⟩)) (hrest : Segment l.elements ptr rest none)
    (hsorted : (x :: rest.map Prod.snd).Pairwise (AtMost compare)) (hturns : rest.length ≤ turns) :
    sortedLoop compare l turns (some a) ptr = some () := by
  induction rest generalizing a x ptr turns next with
  | nil =>
    obtain rfl : ptr = none := hrest
    cases turns <;> rfl
  | cons c rest ih =>
    obtain ⟨rfl, next', hc, hrest⟩ := hrest
    obtain ⟨hfirst, hsorted⟩ := List.pairwise_cons.mp hsorted
    have hle : compare x c.2 ≤ 0 := hfirst c.2 List.mem_cons_self
    cases turns with
    | zero => cases hturns
    | succ turns =>
      rw [sortedLoop, deref_of_getElem? hc, deref_of_getElem? ha]
      simp only [Option.bind_eq_bind, Option.bind_some, if_pos hle]
      exact ih hc hrest hsorted (Nat.le_of_succ_le_succ hturns)

theorem Holds.sanityCheckSorted {cells : List (ℕ × α)} (h : l.Holds cells)
    (hsorted : (cells.map Prod.snd).Pairwise (AtMost compare)) :
    sanityCheckSorted compare l = some () := by
  unfold PointerList.sanityCheckSorted
  rw [h.sanityCheck, Option.bind_eq_bind, Option.bind_some]
  cases cells with
  | nil =>
    have hfirst : l.first = none := h.chain
    rw [if_pos (hfirst.trans h.last.symm)]
  | cons c rest =>
    split
    · rfl
    · obtain ⟨hfirst, next, hc, hrest⟩ := h.chain
      have hle := h.length_le
      rw [List.length_cons] at hle
      rw [hfirst, deref_of_getElem? hc]
      exact sortedLoop_eq hc hrest hsorted (by omega)

section

variable [DecidableEq α]

omit [DecidableEq α] in
theorem sortedItems_eq (hcompare : Comparison compare) {arrivals items : List α}
    (h : StableSort.IsStableSort (AtMost compare) arrivals items) :
    sortedItems compare arrivals = items :=
  (h.eq_insertionSort hcompare.totalPreorder).symm

/-- The cells hold the stable sort of what has arrived. -/
def RepresentsSorted (compare : α → α → ℤ) (arrivals : List α) (l : PointerList α) : Prop :=
  arrivals.Nodup ∧ ∃ cells, l.Holds cells ∧
    StableSort.IsStableSort (AtMost compare) arrivals (cells.map Prod.snd)

omit [DecidableEq α] in
theorem map_orderedInsert_cells (cells : List (ℕ × α)) :
    (cells.orderedInsert (CellBefore compare) (n, item)).map Prod.snd =
      (cells.map Prod.snd).orderedInsert (fun x y => compare x y < 0) item :=
  List.map_orderedInsert _ _ _ _ _ (fun _ _ => Iff.rfl) fun _ _ => Iff.rfl

theorem simulates_sorted (hcompare : Comparison compare) :
    Simulation.Simulates (arrivalStep compare) (sortedStep compare)
      (RepresentsSorted compare) := by
  rintro arrivals l op answer arrivals' ⟨hnodup, cells, h, hsort⟩ hstep
  have hmem (item : α) : item ∈ cells.map Prod.snd ↔ item ∈ arrivals :=
    (hsort.perm hcompare.totalPreorder).mem_iff
  cases op with
  | insert item =>
    simp only [arrivalStep] at hstep
    split at hstep
    · cases hstep
    · next hitem =>
      cases hstep
      obtain ⟨l', hl', h'⟩ := insert_holds compare h ((hmem item).not.mpr hitem)
      refine ⟨l', by simp only [sortedStep, hl', Option.map_some], ?_, _, h', ?_⟩
      · exact List.nodup_append'.mpr ⟨hnodup, List.nodup_singleton item,
          List.disjoint_singleton.mpr hitem⟩
      · rw [map_orderedInsert_cells]
        exact hsort.orderedInsert hcompare.totalPreorder hcompare.before_iff
  | removeFront =>
    rw [arrivalStep, sortedItems_eq hcompare hsort] at hstep
    cases cells with
    | nil => cases hstep
    | cons c cells =>
      cases hstep
      obtain ⟨l', hl', h'⟩ := removeFront_eq h
      have herase := hsort.erase hnodup hcompare.totalPreorder c.2
      rw [List.map_cons, List.erase_cons_head] at herase
      exact ⟨l', by simp only [sortedStep, hl', Option.map_some], hnodup.erase c.2, cells, h',
        herase⟩
  | remove item =>
    simp only [arrivalStep] at hstep
    split at hstep
    · next hitem =>
      cases hstep
      obtain ⟨l', cells', hl', h', heq⟩ := remove_eq h ((hmem item).mpr hitem)
      exact ⟨l', by simp only [sortedStep, hl', Option.map_some], hnodup.erase item, cells', h',
        heq ▸ hsort.erase hnodup hcompare.totalPreorder item⟩
    · cases hstep

/-- Nothing but `RemoveFront` hands out the stable sort. -/
theorem run_removeFront (hcompare : Comparison compare) {arrivals items : List α}
    (hnodup : arrivals.Nodup)
    (h : StableSort.IsStableSort (AtMost compare) arrivals items) :
    Simulation.run (arrivalStep compare) arrivals
      (List.replicate items.length .removeFront) = some (items.map some, []) := by
  induction items generalizing arrivals with
  | nil =>
    obtain rfl := List.nil_perm.mp (h.perm hcompare.totalPreorder)
    rfl
  | cons x items ih =>
    have herase := h.erase hnodup hcompare.totalPreorder x
    rw [List.erase_cons_head] at herase
    refine Simulation.run_cons.mpr ⟨some x, arrivals.erase x, _, ?_,
      ih (hnodup.erase x) herase, rfl⟩
    rw [arrivalStep, sortedItems_eq hcompare h]
    rfl

/-- Whatever is done with a sorted list, it holds the stable sort of what has arrived and is still
there, and hands it out from the front. -/
theorem sorted_and_stable (hcompare : Comparison compare) {ops : List (SortedOp α)}
    {answers : List (Option α)} {arrivals : List α}
    (h : Simulation.run (arrivalStep compare) [] ops = some (answers, arrivals)) :
    ∃ l cells items, Simulation.run (sortedStep compare) new ops = some (answers, l) ∧
      cells.map Prod.snd = items ∧ items = sortedItems compare arrivals ∧
      items.Perm arrivals ∧ items.Pairwise (fun x y => compare x y ≤ 0) ∧
      (∀ x, items.filter (fun y => compare x y = 0) =
        arrivals.filter (fun y => compare x y = 0)) ∧
      Segment l.elements l.first cells none ∧ l.last = cells.getLast?.map Prod.fst ∧
      l.numInList = arrivals.length ∧ sanityCheckSorted compare l = some () ∧
      ∃ l', Simulation.run (sortedStep compare) l
          (List.replicate arrivals.length .removeFront) = some (items.map some, l') ∧
        l'.isEmpty = true := by
  obtain ⟨l, hrun, hnodup, cells, hl, hsort⟩ := (simulates_sorted hcompare).run
    ⟨List.nodup_nil, [], holds_new, List.Pairwise.nil, fun _ => rfl⟩ h
  have hperm := hsort.perm hcompare.totalPreorder
  have hlength := hperm.length_eq
  obtain ⟨l', hout, -, cells', hl', hsort'⟩ := (simulates_sorted hcompare).run
    ⟨hnodup, cells, hl, hsort⟩ (run_removeFront hcompare hnodup hsort)
  refine ⟨l, cells, _, hrun, rfl, (sortedItems_eq hcompare hsort).symm, hperm, hsort.sorted,
    fun x => ?_, hl.chain, hl.last, ?_, hl.sanityCheckSorted hsort.sorted, l', ?_, ?_⟩
  · have hstable := hsort.stable x
    rwa [hcompare.ties_eq] at hstable
  · rw [hl.count, ← hlength, List.length_map]
  · rwa [← hlength]
  · have hempty := List.length_eq_zero_iff.mp
      ((hsort'.perm hcompare.totalPreorder).length_eq.trans rfl)
    rw [hl'.isEmpty, List.isEmpty_iff]
    exact List.map_eq_nil_iff.mp hempty

end

/-- Items are ranked by their first number, as the interrupts by their time. -/
def byNumber (x y : ℕ × ℕ) : ℤ := (x.1 : ℤ) - y.1

theorem byNumber_comparison : Comparison byNumber :=
  ⟨fun x y => by unfold byNumber; omega, fun x y z => by unfold byNumber; omega⟩

/-- The second and third item tie; the fourth goes in the middle. -/
def tied : List (SortedOp (ℕ × ℕ)) :=
  [.insert (5, 0), .insert (7, 1), .insert (7, 2), .insert (6, 3), .insert (5, 4), .remove (6, 3),
    .removeFront]

theorem sorted_and_stable_tied : ∃ l cells,
    Simulation.run (sortedStep byNumber) new tied =
      some ([none, none, none, none, none, none, some (5, 0)], l) ∧
    cells.map Prod.snd = [(5, 4), (7, 1), (7, 2)] ∧
    Segment l.elements l.first cells none ∧ l.numInList = 3 := by
  have hrun : Simulation.run (arrivalStep byNumber) [] tied =
      some ([none, none, none, none, none, none, some (5, 0)], [(7, 1), (7, 2), (5, 4)]) := by
    decide +kernel
  have hitems : sortedItems byNumber [(7, 1), (7, 2), (5, 4)] = [(5, 4), (7, 1), (7, 2)] := by
    decide +kernel
  obtain ⟨l, cells, items, hl, hcells, rfl, -, -, -, hchain, -, hcount, -⟩ :=
    sorted_and_stable byNumber_comparison hrun
  exact ⟨l, cells, hl, hcells.trans hitems, hchain, hcount⟩

end Nachos.PointerList

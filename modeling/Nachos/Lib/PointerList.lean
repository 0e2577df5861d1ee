import Nachos.Library.Simulation
import Nachos.Lib.List

/-! `lib/list.cc` with its pointers. The elements that a list has allocated are numbered in
order, and `none` is an element that has been deleted. An operation has no result when an
assertion fails, or when `NULL` or a deleted element is followed. A loop over the list gets a
turn for every element there is: one that needs more goes round in a circle. -/
namespace Nachos

structure ListElement (α : Type) where
  item : α
  next : Option ℕ
  deriving DecidableEq

structure PointerList (α : Type) where
  first : Option ℕ
  last : Option ℕ
  numInList : ℤ
  elements : List (Option (ListElement α))
  deriving DecidableEq

namespace PointerList

variable {α : Type}

/-- `List::List`. -/
def new : PointerList α := ⟨none, none, 0, []⟩

/-- What a pointer leads to. -/
def deref (l : PointerList α) (ptr : Option ℕ) : Option (ListElement α) := do
  (← l.elements[← ptr]?)

/-- `new ListElement(item)`: the element and the list that owns it. -/
def allocate (l : PointerList α) (item : α) : ℕ × PointerList α :=
  (l.elements.length, { l with elements := l.elements ++ [some ⟨item, none⟩] })

/-- `ptr->next = next`. -/
def setNext (l : PointerList α) (ptr next : Option ℕ) : Option (PointerList α) := do
  let element ← l.deref ptr
  return { l with elements := l.elements.set (← ptr) (some { element with next }) }

/-- `delete ptr`. -/
def delete (l : PointerList α) (ptr : Option ℕ) : Option (PointerList α) := do
  let _ ← l.deref ptr
  return { l with elements := l.elements.set (← ptr) none }

def isEmpty (l : PointerList α) : Bool := l.numInList = 0

/-- The turns that a loop over the list has at most. -/
def turns (l : PointerList α) : ℕ := l.elements.length

section

variable [DecidableEq α]

/-- The loop of `IsInList` from `ptr` on. -/
def isInListLoop (l : PointerList α) (item : α) : ℕ → Option ℕ → Option Bool
  | _, none => some false
  | 0, some _ => none
  | turns + 1, some ptr => do
    let element ← l.deref (some ptr)
    if item = element.item then some true else isInListLoop l item turns element.next

def isInList (l : PointerList α) (item : α) : Option Bool :=
  l.isInListLoop item l.turns l.first

/-- The new element goes behind the last one. -/
def linkLast (l : PointerList α) (element : ℕ) : Option (PointerList α) :=
  if l.isEmpty then some { l with first := some element, last := some element }
  else do
    let l ← l.setNext l.last (some element)
    return { l with last := some element }

/-- The new element goes before the first one. -/
def linkFirst (l : PointerList α) (element : ℕ) : Option (PointerList α) :=
  if l.isEmpty then some { l with first := some element, last := some element }
  else do
    let l ← l.setNext (some element) l.first
    return { l with first := some element }

/-- What `Append` and `Prepend` share: the item is to be new, and in the list at the end. -/
def insertWith (link : PointerList α → ℕ → Option (PointerList α)) (l : PointerList α)
    (item : α) : Option (PointerList α) := do
  let (element, l) := l.allocate item
  if ← l.isInList item then none
  else
    let l ← link l element
    let l := { l with numInList := l.numInList + 1 }
    if ← l.isInList item then some l else none

def append : PointerList α → α → Option (PointerList α) := insertWith linkLast

def prepend : PointerList α → α → Option (PointerList α) := insertWith linkFirst

def removeFront (l : PointerList α) : Option (α × PointerList α) := do
  let element := l.first
  if l.isEmpty then none
  else
    let thing := (← l.deref l.first).item
    let l ←
      if l.first = l.last then some { l with first := none, last := none }
      else do
        let next := (← l.deref element).next
        some { l with first := next }
    let l ← { l with numInList := l.numInList - 1 }.delete element
    return (thing, l)

/-- The loop of `Remove`, at `ptr` with `prev` before it. -/
def removeLoop (l : PointerList α) (item : α) :
    ℕ → (prev ptr : Option ℕ) → Option (PointerList α)
  | _, _, none => none
  | 0, _, some _ => none
  | turns + 1, prev, some ptr => do
    let element ← l.deref (some ptr)
    if item = element.item then
      let l ← l.setNext prev element.next
      let l := if element.next = none then { l with last := prev } else l
      let l ← l.delete (some ptr)
      return { l with numInList := l.numInList - 1 }
    else removeLoop l item turns (some ptr) element.next

def remove (l : PointerList α) (item : α) : Option (PointerList α) := do
  if ← l.isInList item then
    let front ← l.deref l.first
    let l ←
      if item = front.item then do
        let (removed, l) ← l.removeFront
        if item = removed then some l else none
      else l.removeLoop item l.turns l.first front.next
    if ← l.isInList item then none else some l
  else none

end

/-- The loop of `SanityCheck`; it stops with an assertion if it goes round in a circle. -/
def countLoop (l : PointerList α) : ℕ → (numFound : ℤ) → Option ℕ → Option ℤ
  | 0, _, _ => none
  | turns + 1, numFound, ptr =>
    if ptr = l.last then some numFound
    else do
      let element ← l.deref ptr
      if numFound + 1 ≤ l.numInList then countLoop l turns (numFound + 1) element.next else none

/-- `List::SanityCheck`. -/
def sanityCheck (l : PointerList α) : Option Unit :=
  if l.first = none then
    if l.numInList = 0 ∧ l.last = none then some () else none
  else do
    if l.first = l.last then
      if l.numInList = 1 ∧ (← l.deref l.last).next = none then some () else none
    else
      let numFound ← l.countLoop l.turns 1 l.first
      if numFound = l.numInList ∧ (← l.deref l.last).next = none then some () else none

end PointerList

/-- A `ListIterator` stands on an element. -/
abbrev ListIterator := Option ℕ

namespace ListIterator

variable {α : Type}

def new (l : PointerList α) : ListIterator := l.first

def isDone (current : ListIterator) : Bool := current = none

def item (l : PointerList α) (current : ListIterator) : Option α :=
  if current.isDone then none else (l.deref current).map (·.item)

def next (l : PointerList α) (current : ListIterator) : Option ListIterator :=
  (l.deref current).map (·.next)

/-- The items that the loop over an iterator sees, as long as its turns last. -/
def visited (l : PointerList α) : ℕ → ListIterator → Option (List α)
  | turns, current =>
    if current.isDone then some []
    else match turns with
      | 0 => none
      | turns + 1 => do
        let item ← current.item l
        let rest ← visited l turns (← current.next l)
        return item :: rest

end ListIterator

namespace PointerList

variable {α : Type}

/-- From `ptr` on, the elements at these numbers hold these items, and `stop` comes next. -/
def Segment (elements : List (Option (ListElement α))) (ptr : Option ℕ) :
    List (ℕ × α) → Option ℕ → Prop
  | [], stop => ptr = stop
  | (a, x) :: cells, stop => ptr = some a ∧
    ∃ next, elements[a]? = some (some ⟨x, next⟩) ∧ Segment elements next cells stop

/-- The list consists of these cells: they are reached from `first`, `last` is the last of them,
and `numInList` is their number. -/
structure Holds (l : PointerList α) (cells : List (ℕ × α)) : Prop where
  chain : Segment l.elements l.first cells none
  last : l.last = cells.getLast?.map Prod.fst
  count : l.numInList = cells.length
  addresses : (cells.map Prod.fst).Nodup
  items : (cells.map Prod.snd).Nodup

section

variable {l : PointerList α} {elements elements' : List (Option (ListElement α))}
  {ptr stop : Option ℕ} {cells cells' : List (ℕ × α)} {a : ℕ} {x : α}

theorem deref_of_getElem? {e : ListElement α} (h : l.elements[a]? = some (some e)) :
    l.deref (some a) = some e := by
  simp only [deref, Option.bind_eq_bind, Option.bind_some, h]

theorem segment_append : Segment elements ptr (cells ++ cells') stop ↔
    ∃ mid, Segment elements ptr cells mid ∧ Segment elements mid cells' stop := by
  induction cells generalizing ptr with
  | nil => simp [Segment]
  | cons c cells ih =>
    simp only [List.cons_append, Segment, ih]
    constructor
    · rintro ⟨hptr, next, hnext, mid, h, h'⟩
      exact ⟨mid, ⟨hptr, next, hnext, h⟩, h'⟩
    · rintro ⟨mid, ⟨hptr, next, hnext, h⟩, h'⟩
      exact ⟨hptr, next, hnext, mid, h, h'⟩

theorem Segment.congr (h : Segment elements ptr cells stop)
    (heq : ∀ a ∈ cells.map Prod.fst, elements'[a]? = elements[a]?) :
    Segment elements' ptr cells stop := by
  induction cells generalizing ptr with
  | nil => exact h
  | cons c cells ih =>
    obtain ⟨hptr, next, hnext, hrest⟩ := h
    refine ⟨hptr, next, ?_, ih hrest fun a ha => heq a (List.mem_cons_of_mem _ ha)⟩
    rw [heq c.1 List.mem_cons_self, hnext]

/-- A write elsewhere. -/
theorem Segment.set (h : Segment elements ptr cells stop) (ha : a ∉ cells.map Prod.fst)
    (e : Option (ListElement α)) : Segment (elements.set a e) ptr cells stop :=
  h.congr fun b hb => List.getElem?_set_ne fun heq => ha (by rwa [heq])

theorem Segment.lt_length (h : Segment elements ptr cells stop) (ha : a ∈ cells.map Prod.fst) :
    a < elements.length := by
  induction cells generalizing ptr with
  | nil => cases ha
  | cons c cells ih =>
    obtain ⟨-, next, hnext, hrest⟩ := h
    rcases List.mem_cons.mp ha with rfl | ha
    · exact (List.getElem?_eq_some_iff.mp hnext).1
    · exact ih hrest ha

theorem Segment.allocate (h : Segment elements ptr cells stop) (e : Option (ListElement α)) :
    Segment (elements ++ [e]) ptr cells stop :=
  h.congr fun _ ha => List.getElem?_append_left (h.lt_length ha)

namespace Holds

theorem length_le (h : l.Holds cells) : cells.length ≤ l.turns := by
  have hsub : cells.map Prod.fst ⊆ List.range l.turns := fun a ha =>
    List.mem_range.mpr (h.chain.lt_length ha)
  have hle := (h.addresses.subperm hsub).length_le
  rwa [List.length_map, List.length_range] at hle

theorem isEmpty (h : l.Holds cells) : l.isEmpty = cells.isEmpty := by
  rw [PointerList.isEmpty, h.count]
  cases cells <;> simp
  omega

end Holds

section

variable [DecidableEq α] {item : α}

theorem isInListLoop_eq {turns : ℕ} (h : Segment l.elements ptr cells none)
    (hturns : cells.length ≤ turns) :
    l.isInListLoop item turns ptr = some (decide (item ∈ cells.map Prod.snd)) := by
  induction cells generalizing ptr turns with
  | nil =>
    obtain rfl : ptr = none := h
    cases turns <;> rfl
  | cons c cells ih =>
    obtain ⟨rfl, next, hnext, hrest⟩ := h
    obtain ⟨turns, rfl⟩ := Nat.exists_eq_add_of_lt (Nat.lt_of_lt_of_le (Nat.succ_pos _) hturns)
    rw [Nat.zero_add, isInListLoop, deref_of_getElem? hnext]
    simp only [Option.bind_eq_bind, Option.bind_some, List.map_cons, List.mem_cons]
    split
    · next heq => simp [heq]
    · next hne =>
      rw [List.length_cons] at hturns
      rw [ih hrest (by omega)]
      simp [hne]

/-- `IsInList` is membership. -/
theorem Holds.isInList (h : l.Holds cells) (item : α) :
    l.isInList item = some (decide (item ∈ cells.map Prod.snd)) :=
  isInListLoop_eq h.chain h.length_le

end

theorem countLoop_eq {turns numFound : ℕ} (h : Segment l.elements ptr (cells ++ [(a, x)]) none)
    (hlast : l.last = some a) (hother : a ∉ cells.map Prod.fst)
    (hcount : l.numInList = (numFound + cells.length : ℕ)) (hturns : cells.length < turns) :
    l.countLoop turns numFound ptr = some l.numInList := by
  induction cells generalizing ptr numFound turns with
  | nil =>
    obtain ⟨rfl, -⟩ := h
    cases turns with
    | zero => cases hturns
    | succ turns => rw [countLoop, if_pos hlast.symm, hcount, List.length_nil, Nat.add_zero]
  | cons c cells ih =>
    obtain ⟨rfl, next, hnext, hrest⟩ := h
    obtain ⟨hc, hother⟩ := not_or.mp (List.mem_cons.not.mp hother)
    have hne : some c.1 ≠ l.last := by
      rw [hlast]
      exact fun heq => hc (Option.some.inj heq).symm
    rw [List.length_cons] at hcount hturns
    have hmore : (numFound : ℤ) + 1 ≤ l.numInList := by omega
    have hcount' : l.numInList = (numFound + 1 + cells.length : ℕ) := by omega
    cases turns with
    | zero => cases hturns
    | succ turns =>
      rw [countLoop, if_neg hne, deref_of_getElem? hnext]
      simp only [Option.bind_eq_bind, Option.bind_some, if_pos hmore]
      exact_mod_cast ih hrest hother hcount' (Nat.lt_of_succ_lt_succ hturns)

namespace Holds

theorem last_eq (h : l.Holds (cells ++ [(a, x)])) : l.last = some a := by
  rw [h.last, List.getLast?_concat]
  rfl

theorem deref_last (h : l.Holds (cells ++ [(a, x)])) : l.deref l.last = some ⟨x, none⟩ := by
  obtain ⟨_, -, -, next, hnext, hend⟩ := segment_append.mp h.chain
  obtain rfl : next = none := hend
  rw [h.last_eq, deref_of_getElem? hnext]

/-- The first element is the last one only if it is alone. -/
theorem first_eq_last {c : ℕ × α} (h : l.Holds (c :: cells)) : l.first = l.last ↔ cells = [] := by
  rw [h.chain.1, h.last]
  cases cells with
  | nil => simp
  | cons d cells =>
    have hmem : (List.getLast (d :: cells) (List.cons_ne_nil d cells)).1 ∈
        (d :: cells).map Prod.fst :=
      List.mem_map_of_mem (List.getLast_mem _)
    have hne := (List.nodup_cons.mp h.addresses).1
    rw [List.getLast?_cons_cons, List.getLast?_eq_some_getLast (List.cons_ne_nil d cells)]
    simp only [Option.map_some, Option.some.injEq, reduceCtorEq, iff_false]
    intro heq
    exact hne (heq ▸ hmem)

/-- `SanityCheck` passes. -/
theorem sanityCheck (h : l.Holds cells) : l.sanityCheck = some () := by
  unfold PointerList.sanityCheck
  cases cells with
  | nil =>
    have hfirst : l.first = none := h.chain
    rw [if_pos hfirst, if_pos ⟨h.count, h.last⟩]
  | cons c cells =>
    have hfirst : l.first ≠ none := by
      rw [h.chain.1]
      exact Option.some_ne_none _
    have hcount := h.count
    obtain ⟨before, ⟨a, x⟩, hlast⟩ : ∃ before d, c :: cells = before ++ [d] :=
      ⟨_, _, (List.dropLast_concat_getLast (List.cons_ne_nil c cells)).symm⟩
    have heq := h.first_eq_last
    rw [hlast] at h
    rw [if_neg hfirst, h.deref_last]
    simp only [Option.bind_eq_bind, Option.bind_some]
    split
    · next halone =>
      rw [heq.mp halone] at hcount
      rw [if_pos ⟨hcount, trivial⟩]
    · have hlength := congrArg List.length hlast
      rw [List.length_append, List.length_singleton] at hlength
      have haddresses := h.addresses
      rw [List.map_append, List.nodup_append'] at haddresses
      have hother : a ∉ before.map Prod.fst := fun hmem =>
        haddresses.2.2 hmem (List.mem_singleton.mpr rfl)
      have hle := h.length_le
      rw [List.length_append, List.length_singleton] at hle
      rw [show (1 : ℤ) = (1 : ℕ) from rfl,
        countLoop_eq h.chain h.last_eq hother (by omega) (by omega)]
      simp

end Holds

theorem iterator_item {next : Option ℕ} (h : l.elements[a]? = some (some ⟨x, next⟩)) :
    ListIterator.item l (some a) = some x := by
  rw [ListIterator.item, deref_of_getElem? h]
  rfl

theorem iterator_next {next : Option ℕ} (h : l.elements[a]? = some (some ⟨x, next⟩)) :
    ListIterator.next l (some a) = some next := by
  rw [ListIterator.next, deref_of_getElem? h]
  rfl

theorem visited_eq {turns : ℕ} (h : Segment l.elements ptr cells none)
    (hturns : cells.length ≤ turns) :
    ListIterator.visited l turns ptr = some (cells.map Prod.snd) := by
  induction cells generalizing ptr turns with
  | nil =>
    obtain rfl : ptr = none := h
    cases turns <;> rfl
  | cons c cells ih =>
    obtain ⟨rfl, next, hnext, hrest⟩ := h
    cases turns with
    | zero => cases hturns
    | succ turns =>
      rw [ListIterator.visited, iterator_item hnext, iterator_next hnext]
      simp only [Option.bind_eq_bind, Option.bind_some, ih hrest (Nat.le_of_succ_le_succ hturns)]
      rfl

/-- An iterator visits the items once each, in order. -/
theorem Holds.visited (h : l.Holds cells) :
    ListIterator.visited l l.turns (ListIterator.new l) = some (cells.map Prod.snd) :=
  visited_eq h.chain h.length_le

end

end PointerList

end Nachos

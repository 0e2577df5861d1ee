import Mathlib.Tactic

/-! `lib/list.cc` on Lean lists, first element first. Each operation of the source that asserts
something answers `none` when the assertion fails. -/
namespace Nachos.LinkedList

variable {α : Type*} [DecidableEq α]

/-- `List::Append`, which refuses an item that is already in the list. -/
def append (list : List α) (item : α) : Option (List α) :=
  if item ∈ list then none else some (list ++ [item])

/-- `List::Prepend`, with the same check. -/
def prepend (list : List α) (item : α) : Option (List α) :=
  if item ∈ list then none else some (item :: list)

/-- `List::RemoveFront`, which refuses an empty list. -/
def removeFront : List α → Option (α × List α)
  | [] => none
  | item :: list => some (item, list)

/-- `List::Remove`, which refuses an item that is not in the list. -/
def remove (list : List α) (item : α) : Option (List α) :=
  if item ∈ list then some (list.erase item) else none

/-- `SortedList::Insert`, which puts the item in front of the first one it goes before, and
refuses an item that is already in the list. -/
def insert (before : α → α → Prop) [DecidableRel before] (list : List α) (item : α) :
    Option (List α) :=
  if item ∈ list then none else some (list.orderedInsert before item)

theorem append_eq_some {list : List α} {item : α} (h : item ∉ list) :
    append list item = some (list ++ [item]) := if_neg h

end Nachos.LinkedList

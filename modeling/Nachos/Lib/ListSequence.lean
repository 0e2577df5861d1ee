import Nachos.Lib.PointerList

/-! The operations of `List` on its pointers, and the sequence they stand for. -/
namespace Nachos

inductive ListOp (α : Type) where
  | append (item : α)
  | prepend (item : α)
  | removeFront
  | remove (item : α)
  deriving DecidableEq

/-- The operations on a sequence. An item goes in only if it is new, and comes out only if it is
there. -/
def LinkedList.step {α : Type} [DecidableEq α] (list : List α) :
    ListOp α → Option (Option α × List α)
  | .append item => (append list item).map (none, ·)
  | .prepend item => (prepend list item).map (none, ·)
  | .removeFront => (LinkedList.removeFront list).map fun r => (some r.1, r.2)
  | .remove item => (remove list item).map (none, ·)

namespace PointerList

variable {α : Type} {l l' : PointerList α} {cells cells' before rest : List (ℕ × α)} {a : ℕ}
  {item x : α}

def step [DecidableEq α] (l : PointerList α) : ListOp α → Option (Option α × PointerList α)
  | .append item => (l.append item).map (none, ·)
  | .prepend item => (l.prepend item).map (none, ·)
  | .removeFront => l.removeFront.map fun r => (some r.1, r.2)
  | .remove item => (l.remove item).map (none, ·)

/-- The list stands for these items, in this order. -/
def Represents (items : List α) (l : PointerList α) : Prop :=
  ∃ cells, cells.map Prod.snd = items ∧ l.Holds cells

theorem holds_new : (new : PointerList α).Holds [] :=
  ⟨rfl, rfl, rfl, List.nodup_nil, List.nodup_nil⟩

theorem setNext_eq {e : ListElement α} (h : l.elements[a]? = some (some e)) (next : Option ℕ) :
    l.setNext (some a) next =
      some { l with elements := l.elements.set a (some { e with next }) } := by
  rw [setNext, deref_of_getElem? h]
  rfl

theorem delete_eq {e : ListElement α} (h : l.elements[a]? = some (some e)) :
    l.delete (some a) = some { l with elements := l.elements.set a none } := by
  rw [delete, deref_of_getElem? h]
  rfl

namespace Holds

/-- The new element does not disturb the list. -/
theorem allocate (h : l.Holds cells) (item : α) : (l.allocate item).2.Holds cells :=
  ⟨h.chain.allocate _, h.last, h.count, h.addresses, h.items⟩

theorem notMem_length (h : l.Holds cells) : l.elements.length ∉ cells.map Prod.fst :=
  fun hmem => (h.chain.lt_length hmem).false

/-- The next pointer of a cell in the middle, and the chain around it. -/
theorem split (h : l.Holds (before ++ (a, x) :: rest)) :
    Segment l.elements l.first before (some a) ∧
      ∃ next, l.elements[a]? = some (some ⟨x, next⟩) ∧ Segment l.elements next rest none ∧
        a ∉ before.map Prod.fst ∧ a ∉ rest.map Prod.fst := by
  obtain ⟨mid, hbefore, rfl, next, hnext, hrest⟩ := segment_append.mp h.chain
  have haddresses := h.addresses
  rw [List.map_append, List.nodup_append'] at haddresses
  obtain ⟨-, hcons, hdisjoint⟩ := haddresses
  refine ⟨hbefore, next, hnext, hrest, fun hmem => ?_, (List.nodup_cons.mp hcons).1⟩
  exact hdisjoint hmem List.mem_cons_self

/-- The order of the cells does not matter for their being distinct. -/
theorem of_perm (h : l.Holds cells) (hperm : cells'.Perm ((a, item) :: cells))
    (ha : a ∉ cells.map Prod.fst) (hitem : item ∉ cells.map Prod.snd) :
    (cells'.map Prod.fst).Nodup ∧ (cells'.map Prod.snd).Nodup :=
  ⟨(hperm.map Prod.fst).nodup_iff.mpr (List.nodup_cons.mpr ⟨ha, h.addresses⟩),
    (hperm.map Prod.snd).nodup_iff.mpr (List.nodup_cons.mpr ⟨hitem, h.items⟩)⟩

theorem linkLast (h : l.Holds cells) (hitem : item ∉ cells.map Prod.snd) :
    ∃ l', (l.allocate item).2.linkLast l.elements.length = some l' ∧
      Holds { l' with numInList := l'.numInList + 1 } (cells ++ [(l.elements.length, item)]) := by
  have hnew : (l.allocate item).2.elements[l.elements.length]? = some (some ⟨item, none⟩) :=
    List.getElem?_concat_length
  obtain ⟨haddresses, hitems⟩ := h.of_perm (List.perm_append_singleton _ _) h.notMem_length hitem
  have h₁ := h.allocate item
  unfold PointerList.linkLast
  rw [h₁.isEmpty]
  rcases List.eq_nil_or_concat cells with rfl | ⟨before, ⟨a, x⟩, rfl⟩
  · rw [if_pos List.isEmpty_nil]
    refine ⟨_, rfl, ⟨rfl, none, hnew, rfl⟩, rfl, ?_, haddresses, hitems⟩
    exact congrArg (· + 1) h₁.count
  · rw [List.concat_eq_append] at *
    obtain ⟨hbefore, next, hnext, -, hother, -⟩ := h₁.split
    have hne : l.elements.length ≠ a := fun heq => h.notMem_length (by simp [heq])
    rw [if_neg (by simp), h₁.last_eq, setNext_eq hnext]
    refine ⟨_, rfl, ?_, ?_, ?_, haddresses, hitems⟩
    · refine segment_append.mpr ⟨_, segment_append.mpr
        ⟨_, hbefore.set hother _, rfl, _, List.getElem?_set_self ?_, rfl⟩, rfl, none, ?_, rfl⟩
      · exact (List.getElem?_eq_some_iff.mp hnext).1
      · exact (List.getElem?_set_ne hne.symm).trans hnew
    · rw [List.getLast?_concat]
      rfl
    · rw [List.length_append, Nat.cast_add]
      exact congrArg (· + 1) h₁.count

theorem linkFirst (h : l.Holds cells) (hitem : item ∉ cells.map Prod.snd) :
    ∃ l', (l.allocate item).2.linkFirst l.elements.length = some l' ∧
      Holds { l' with numInList := l'.numInList + 1 } ((l.elements.length, item) :: cells) := by
  have hnew : (l.allocate item).2.elements[l.elements.length]? = some (some ⟨item, none⟩) :=
    List.getElem?_concat_length
  obtain ⟨haddresses, hitems⟩ := h.of_perm (List.Perm.refl _) h.notMem_length hitem
  have h₁ := h.allocate item
  unfold PointerList.linkFirst
  rw [h₁.isEmpty]
  cases cells with
  | nil =>
    rw [if_pos List.isEmpty_nil]
    refine ⟨_, rfl, ⟨rfl, none, hnew, rfl⟩, rfl, ?_, haddresses, hitems⟩
    exact congrArg (· + 1) h₁.count
  | cons c cells =>
    rw [if_neg (by simp), setNext_eq hnew]
    refine ⟨_, rfl, ⟨rfl, _, List.getElem?_set_self ?_, h₁.chain.set h.notMem_length _⟩, ?_, ?_,
      haddresses, hitems⟩
    · exact (List.getElem?_eq_some_iff.mp hnew).1
    · rw [List.getLast?_cons_cons]
      exact h₁.last
    · rw [List.length_cons, Nat.cast_add]
      exact congrArg (· + 1) h₁.count

end Holds

section

variable [DecidableEq α]

/-- A way of linking the new element that puts it among the cells makes the operation pass both
of its assertions. -/
theorem insertWith_eq {link : PointerList α → ℕ → Option (PointerList α)} (h : l.Holds cells)
    (hitem : item ∉ cells.map Prod.snd) (hmem : item ∈ cells'.map Prod.snd)
    (hlink : ∃ l', link (l.allocate item).2 l.elements.length = some l' ∧
      Holds { l' with numInList := l'.numInList + 1 } cells') :
    ∃ l', insertWith link l item = some l' ∧ l'.Holds cells' := by
  obtain ⟨l', hlink, h'⟩ := hlink
  refine ⟨_, ?_, h'⟩
  have habsent : (l.allocate item).2.isInList item = some false := by
    rw [(h.allocate item).isInList, decide_eq_false hitem]
  have hpresent : isInList { l' with numInList := l'.numInList + 1 } item = some true := by
    rw [h'.isInList, decide_eq_true hmem]
  change (do
    if ← (l.allocate item).2.isInList item then none
    else
      let l ← link (l.allocate item).2 l.elements.length
      let l := { l with numInList := l.numInList + 1 }
      if ← l.isInList item then some l else none) = _
  simp only [habsent, hlink, Option.bind_eq_bind, Option.bind_some, hpresent,
    Bool.false_eq_true, if_false, if_true]

theorem append_eq (h : l.Holds cells) (hitem : item ∉ cells.map Prod.snd) :
    ∃ l', l.append item = some l' ∧ l'.Holds (cells ++ [(l.elements.length, item)]) :=
  insertWith_eq h hitem (by simp) (h.linkLast hitem)

theorem prepend_eq (h : l.Holds cells) (hitem : item ∉ cells.map Prod.snd) :
    ∃ l', l.prepend item = some l' ∧ l'.Holds ((l.elements.length, item) :: cells) :=
  insertWith_eq h hitem (by simp) (h.linkFirst hitem)

end

theorem removeFront_eq (h : l.Holds ((a, x) :: rest)) :
    ∃ l', l.removeFront = some (x, l') ∧ l'.Holds rest := by
  obtain ⟨hfirst, next, hnext, hrest⟩ := h.chain
  obtain ⟨haddress, haddresses⟩ := List.nodup_cons.mp h.addresses
  have hitems := (List.nodup_cons.mp h.items).2
  have hcount : l.numInList - 1 = rest.length := by
    have hcount := h.count
    rw [List.length_cons] at hcount
    omega
  have hne : l.isEmpty = false := h.isEmpty
  have hchain := hrest.set haddress none
  unfold removeFront
  rw [hne, if_neg Bool.false_ne_true, hfirst, deref_of_getElem? hnext, ← hfirst]
  by_cases halone : l.first = l.last
  · obtain rfl : rest = [] := h.first_eq_last.mp halone
    refine ⟨⟨none, none, l.numInList - 1, l.elements.set a none⟩, ?_, ?_⟩
    · simp only [Option.bind_eq_bind, Option.bind_some, if_pos halone]
      rw [hfirst, delete_eq (l := ⟨none, none, l.numInList - 1, l.elements⟩) hnext]
      rfl
    · exact ⟨rfl, rfl, hcount, haddresses, hitems⟩
  · refine ⟨⟨next, l.last, l.numInList - 1, l.elements.set a none⟩, ?_, ?_⟩
    · simp only [Option.bind_eq_bind, Option.bind_some, if_neg halone]
      rw [hfirst, delete_eq (l := ⟨next, l.last, l.numInList - 1, l.elements⟩) hnext]
      rfl
    · refine ⟨hchain, ?_, hcount, haddresses, hitems⟩
      cases rest with
      | nil => exact absurd (h.first_eq_last.mpr rfl) halone
      | cons c rest => exact h.last.trans (congrArg _ List.getLast?_cons_cons)

theorem perm_second {β : Type} (before rest : List β) (c d : β) :
    (before ++ c :: d :: rest).Perm (d :: (before ++ c :: rest)) := by
  have hmid : (before ++ [c] ++ d :: rest).Perm (d :: (before ++ [c] ++ rest)) := List.perm_middle
  simpa using hmid

/-- The cell behind `a` is taken out, as the loop of `Remove` does it. -/
theorem Holds.unlink {b : ℕ} (h : l.Holds (before ++ (a, x) :: (b, item) :: rest)) :
    ∃ next, l.elements[b]? = some (some ⟨item, next⟩) ∧
      Holds ⟨l.first, if next = none then some a else l.last, l.numInList - 1,
        (l.elements.set a (some ⟨x, next⟩)).set b none⟩ (before ++ (a, x) :: rest) := by
  obtain ⟨hbefore, _, ha, ⟨rfl, next, hb, hrest⟩, hanotbefore, hanotrest⟩ := h.split
  have hsub : (before ++ (a, x) :: rest).Sublist (before ++ (a, x) :: (b, item) :: rest) :=
    ((List.sublist_cons_self _ _).cons_cons _).append_left _
  have hother : b ∉ (before ++ (a, x) :: rest).map Prod.fst := by
    have hperm := (perm_second before rest (a, x) (b, item)).map Prod.fst
    exact (List.nodup_cons.mp (hperm.nodup_iff.mp h.addresses)).1
  have hchain : Segment (l.elements.set a (some ⟨x, next⟩)) l.first
      (before ++ (a, x) :: rest) none := by
    refine segment_append.mpr ⟨_, hbefore.set hanotbefore _, rfl, next, ?_, hrest.set ?_ _⟩
    · exact List.getElem?_set_self (List.getElem?_eq_some_iff.mp ha).1
    · exact fun hmem => hanotrest (List.mem_cons_of_mem _ hmem)
  refine ⟨next, hb, hchain.set hother none, ?_, ?_, h.addresses.sublist (hsub.map _),
    h.items.sublist (hsub.map _)⟩
  · have hlast := h.last
    cases rest with
    | nil =>
      obtain rfl : next = none := hrest
      simp
    | cons c rest =>
      obtain ⟨rfl, -⟩ := hrest
      simpa using hlast
  · have hcount := h.count
    simp only [List.length_append, List.length_cons] at hcount ⊢
    omega

section

variable [DecidableEq α]

/-- The loop of `Remove`, with the cell at `prev` behind it and the item before it. -/
theorem removeLoop_eq {mid back : List (ℕ × α)} {b turns : ℕ} {ptr : Option ℕ}
    (h : l.Holds (before ++ (a, x) :: (mid ++ (b, item) :: back)))
    (hptr : Segment l.elements ptr (mid ++ (b, item) :: back) none)
    (habsent : item ∉ mid.map Prod.snd) (hturns : mid.length < turns) :
    ∃ l', l.removeLoop item turns (some a) ptr = some l' ∧
      l'.Holds (before ++ (a, x) :: (mid ++ back)) := by
  induction mid generalizing before a x ptr turns with
  | nil =>
    obtain ⟨rfl, -⟩ := hptr
    obtain ⟨turns, rfl⟩ := Nat.exists_eq_add_one_of_ne_zero hturns.ne'
    obtain ⟨next, hb, h'⟩ := h.unlink
    obtain ⟨-, _, ha, -, -, hother⟩ := h.split
    have hne : a ≠ b := fun heq => hother (by simp [heq])
    have hb' : (l.elements.set a (some ⟨x, next⟩))[b]? = some (some ⟨item, next⟩) :=
      (List.getElem?_set_ne hne).trans hb
    refine ⟨_, ?_, h'⟩
    rw [removeLoop, deref_of_getElem? hb]
    simp only [Option.bind_eq_bind, Option.bind_some, setNext_eq ha, if_true]
    split <;> rw [delete_eq hb'] <;> rfl
  | cons c mid ih =>
    obtain ⟨rfl, next, hc, hrest⟩ := hptr
    obtain ⟨hne, habsent⟩ := not_or.mp (List.mem_cons.not.mp habsent)
    obtain ⟨turns, rfl⟩ := Nat.exists_eq_add_one_of_ne_zero (Nat.zero_lt_of_lt hturns).ne'
    rw [removeLoop, deref_of_getElem? hc]
    simp only [Option.bind_eq_bind, Option.bind_some, if_neg hne]
    have h' : l.Holds ((before ++ [(a, x)]) ++ c :: (mid ++ (b, item) :: back)) := by
      simpa using h
    have hmoved := ih h' hrest habsent (Nat.lt_of_succ_lt_succ hturns)
    simpa using hmoved

/-- The two ways that `Remove` takes: the item is in front, or the loop finds it. -/
theorem remove_split {b : ℕ} {front back : List (ℕ × α)}
    (h : l.Holds (front ++ (b, item) :: back)) (hfront : item ∉ front.map Prod.snd)
    (hback : item ∉ back.map Prod.snd) :
    ∃ l', l.remove item = some l' ∧ l'.Holds (front ++ back) := by
  have hpresent : l.isInList item = some true := by
    rw [h.isInList, decide_eq_true (by simp)]
  have habsent (l' : PointerList α) (h' : l'.Holds (front ++ back)) :
      l'.isInList item = some false := by
    rw [h'.isInList, decide_eq_false]
    rw [List.map_append, List.mem_append]
    exact not_or.mpr ⟨hfront, hback⟩
  unfold remove
  rw [hpresent]
  cases front with
  | nil =>
    obtain ⟨hfirst, next, hnext, -⟩ := h.chain
    obtain ⟨l', hremoved, h'⟩ := removeFront_eq h
    refine ⟨l', ?_, h'⟩
    rw [hfirst, deref_of_getElem? hnext]
    simp only [Option.bind_eq_bind, Option.bind_some, if_true, hremoved, habsent l' h',
      Bool.false_eq_true, if_false]
  | cons c mid =>
    obtain ⟨hfirst, next, hnext, hrest⟩ := h.chain
    obtain ⟨hne, hmid⟩ := not_or.mp (List.mem_cons.not.mp hfront)
    have hle := h.length_le
    simp only [List.cons_append, List.length_cons, List.length_append] at hle
    have hturns : mid.length < l.turns := by omega
    have hcells : l.Holds ([] ++ c :: (mid ++ (b, item) :: back)) := h
    obtain ⟨l', hremoved, h'⟩ := removeLoop_eq hcells hrest hmid hturns
    refine ⟨l', ?_, h'⟩
    rw [hfirst, deref_of_getElem? hnext]
    simp only [Option.bind_eq_bind, Option.bind_some, if_true, if_neg hne, hremoved,
      habsent l' h', Bool.false_eq_true, if_false]

theorem remove_eq (h : l.Holds cells) (hitem : item ∈ cells.map Prod.snd) :
    ∃ l' cells', l.remove item = some l' ∧ l'.Holds cells' ∧
      cells'.map Prod.snd = (cells.map Prod.snd).erase item := by
  obtain ⟨⟨b, _⟩, hmem, rfl⟩ := List.mem_map.mp hitem
  obtain ⟨front, back, rfl⟩ := List.append_of_mem hmem
  have hitems := h.items
  rw [List.map_append, List.nodup_append'] at hitems
  obtain ⟨-, hcons, hdisjoint⟩ := hitems
  have hfront := fun hmem => hdisjoint hmem List.mem_cons_self
  have hback := (List.nodup_cons.mp hcons).1
  obtain ⟨l', hremoved, h'⟩ := remove_split h hfront hback
  refine ⟨l', _, hremoved, h', ?_⟩
  rw [List.map_append, List.map_append, List.map_cons, List.erase_append_right _ hfront,
    List.erase_cons_head]

namespace Represents

variable {items : List α}

theorem append (h : Represents items l) (hitem : item ∉ items) :
    ∃ l', l.append item = some l' ∧ Represents (items ++ [item]) l' := by
  obtain ⟨cells, rfl, h⟩ := h
  obtain ⟨l', hl', h'⟩ := append_eq h hitem
  exact ⟨l', hl', _, by simp, h'⟩

theorem prepend (h : Represents items l) (hitem : item ∉ items) :
    ∃ l', l.prepend item = some l' ∧ Represents (item :: items) l' := by
  obtain ⟨cells, rfl, h⟩ := h
  obtain ⟨l', hl', h'⟩ := prepend_eq h hitem
  exact ⟨l', hl', _, by simp, h'⟩

omit [DecidableEq α] in
theorem removeFront (h : Represents (item :: items) l) :
    ∃ l', l.removeFront = some (item, l') ∧ Represents items l' := by
  obtain ⟨cells, hcells, h⟩ := h
  cases cells with
  | nil => cases hcells
  | cons c cells =>
    obtain ⟨rfl, rfl⟩ := List.cons.inj hcells
    obtain ⟨l', hl', h'⟩ := removeFront_eq h
    exact ⟨l', hl', cells, rfl, h'⟩

theorem remove (h : Represents items l) (hitem : item ∈ items) :
    ∃ l', l.remove item = some l' ∧ Represents (items.erase item) l' := by
  obtain ⟨cells, rfl, h⟩ := h
  obtain ⟨l', cells', hl', h', heq⟩ := remove_eq h hitem
  exact ⟨l', hl', cells', heq, h'⟩

end Represents

theorem simulates : Simulation.Simulates LinkedList.step (step (α := α)) Represents := by
  intro items l op answer items' h hstep
  cases op with
  | append item =>
    obtain ⟨list, happend, heq⟩ := Option.map_eq_some_iff.mp hstep
    cases heq
    rw [LinkedList.append] at happend
    split at happend
    · cases happend
    · next hitem =>
      cases happend
      obtain ⟨l', hl', h'⟩ := h.append hitem
      exact ⟨l', by simp only [step, hl', Option.map_some], h'⟩
  | prepend item =>
    obtain ⟨list, hprepend, heq⟩ := Option.map_eq_some_iff.mp hstep
    cases heq
    rw [LinkedList.prepend] at hprepend
    split at hprepend
    · cases hprepend
    · next hitem =>
      cases hprepend
      obtain ⟨l', hl', h'⟩ := h.prepend hitem
      exact ⟨l', by simp only [step, hl', Option.map_some], h'⟩
  | removeFront =>
    cases items with
    | nil => cases hstep
    | cons item items =>
      cases hstep
      obtain ⟨l', hl', h'⟩ := h.removeFront
      exact ⟨l', by simp only [step, hl', Option.map_some], h'⟩
  | remove item =>
    obtain ⟨list, hremove, heq⟩ := Option.map_eq_some_iff.mp hstep
    cases heq
    rw [LinkedList.remove] at hremove
    split at hremove
    · next hitem =>
      cases hremove
      obtain ⟨l', hl', h'⟩ := h.remove hitem
      exact ⟨l', by simp only [step, hl', Option.map_some], h'⟩
    · cases hremove

/-- Whatever is done with a list, its pointers stand for the sequence. -/
theorem represents_sequence {ops : List (ListOp α)} {answers : List (Option α)} {items : List α}
    (h : Simulation.run LinkedList.step [] ops = some (answers, items)) :
    items.Nodup ∧ ∃ l cells, Simulation.run step new ops = some (answers, l) ∧
      cells.map Prod.snd = items ∧ Segment l.elements l.first cells none ∧
      l.last = cells.getLast?.map Prod.fst ∧
      (l.deref l.last).map (·.next) = cells.getLast?.map (fun _ => none) ∧
      l.numInList = items.length ∧ l.isEmpty = items.isEmpty ∧ l.sanityCheck = some () ∧
      (∀ item, l.isInList item = some (decide (item ∈ items))) ∧
      ListIterator.visited l l.turns (ListIterator.new l) = some items := by
  obtain ⟨l, hrun, cells, rfl, hl⟩ := simulates.run ⟨[], rfl, holds_new⟩ h
  refine ⟨hl.items, l, cells, hrun, rfl, hl.chain, hl.last, ?_, ?_, ?_, hl.sanityCheck,
    hl.isInList, hl.visited⟩
  · rcases List.eq_nil_or_concat cells with rfl | ⟨before, ⟨a, x⟩, rfl⟩
    · rw [hl.last]
      rfl
    · rw [List.concat_eq_append] at *
      rw [hl.deref_last, List.getLast?_concat]
      rfl
  · rw [hl.count, List.length_map]
  · rw [hl.isEmpty, List.isEmpty_map]

end

/-- A cell is taken out at the end, and the next one goes behind the new last one. -/
def lastRemoved : List (ListOp ℕ) :=
  [.append 1, .prepend 2, .append 3, .remove 3, .append 4, .removeFront]

theorem represents_sequence_lastRemoved : ∃ l, Simulation.run step new lastRemoved =
      some ([none, none, none, none, none, some 2], l) ∧ l.numInList = 2 ∧
    l.sanityCheck = some () ∧
    ListIterator.visited l l.turns (ListIterator.new l) = some [1, 4] := by
  have hrun : Simulation.run LinkedList.step [] lastRemoved =
      some ([none, none, none, none, none, some 2], [1, 4]) := by
    decide +kernel
  obtain ⟨-, l, cells, hl, -, -, -, -, hcount, -, hsane, -, hvisited⟩ := represents_sequence hrun
  exact ⟨l, hl, hcount, hsane, hvisited⟩

end PointerList

end Nachos

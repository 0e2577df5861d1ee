import Nachos.Lib.ListSequence
import Nachos.Lib.Hash

/-! The hash table as a finite map from keys to items, across its resizing. -/
namespace Nachos

namespace HashTable

open PointerList (Represents Segment)

variable {α κ : Type} {getKey : α → κ} {hash : κ → BitVec 32} {table : HashTable α}
  {bs : List (List α)} {items : List α} {item : α} {key : κ}

/-- The bucket of a key in a table of `n` buckets. -/
def index (hash : κ → BitVec 32) (n : ℕ) (key : κ) : ℕ := (hash key).toNat % n

/-- The buckets stand for these, and every item is in the bucket of its key. -/
structure Filled (getKey : α → κ) (hash : κ → BitVec 32) (table : HashTable α)
    (bs : List (List α)) : Prop where
  buckets : List.Forall₂ Represents bs table.buckets
  nonempty : 0 < bs.length
  placed : Buckets.Placed (fun x => index hash bs.length (getKey x)) bs
  keys : (bs.flatten.map getKey).Nodup

namespace Filled

theorem numBuckets (h : Filled getKey hash table bs) : table.numBuckets = bs.length :=
  h.buckets.length_eq.symm

theorem hashValue (h : Filled getKey hash table bs) (key : κ) :
    table.hashValue hash key = some (index hash bs.length key) := by
  rw [HashTable.hashValue, h.numBuckets]
  exact if_pos (Nat.mod_lt _ h.nonempty)

/-- The bucket of a key, and the list that stands for it. -/
theorem bucket (h : Filled getKey hash table bs) (key : κ) :
    ∃ b list, bs[index hash bs.length key]? = some b ∧
      table.buckets[index hash bs.length key]? = some list ∧ Represents b list := by
  have hb := List.getElem?_eq_getElem (l := bs) (Nat.mod_lt (hash key).toNat h.nonempty)
  obtain ⟨list, hlist, hR⟩ := Buckets.exists_of_getElem? h.buckets hb
  exact ⟨_, list, hb, hlist, hR⟩

end Filled

/-- The buckets are filled, and their items are counted. -/
structure Holds (getKey : α → κ) (hash : κ → BitVec 32) (table : HashTable α)
    (bs : List (List α)) : Prop extends Filled getKey hash table bs where
  count : table.numItems = bs.flatten.length

theorem checkLoop_eq {bucket : ℕ} {list : PointerList α} {ptr : Option ℕ}
    {cells : List (ℕ × α)} {turns : ℕ} (h : Segment list.elements ptr cells none)
    (hash_eq : ∀ x ∈ cells.map Prod.snd, table.hashValue hash (getKey x) = some bucket)
    (hturns : cells.length ≤ turns) :
    table.checkLoop getKey hash bucket list turns ptr = some () := by
  induction cells generalizing ptr turns with
  | nil =>
    obtain rfl : ptr = none := h
    cases turns <;> rfl
  | cons c cells ih =>
    obtain ⟨rfl, next, hnext, hrest⟩ := h
    cases turns with
    | zero => cases hturns
    | succ turns =>
      rw [checkLoop, PointerList.iterator_item hnext, PointerList.iterator_next hnext]
      simp only [ListIterator.isDone, reduceCtorEq, decide_false, Bool.false_eq_true, if_false,
        Option.bind_eq_bind, Option.bind_some, hash_eq c.2 (by simp), if_true]
      exact ih hrest (fun x hx => hash_eq x (List.mem_cons_of_mem _ hx))
        (Nat.le_of_succ_le_succ hturns)

theorem checkBuckets_eq {lists : List (PointerList α)} {olds : List (List α)} {bucket : ℕ}
    {numFound : ℤ} (hR : List.Forall₂ Represents olds lists)
    (hplaced : ∀ i b, olds[i]? = some b → ∀ x ∈ b,
      table.hashValue hash (getKey x) = some (bucket + i)) :
    table.checkBuckets getKey hash lists bucket numFound =
      some (numFound + olds.flatten.length) := by
  induction hR generalizing bucket numFound with
  | nil => simp [checkBuckets]
  | @cons old list olds lists hold _ ih =>
    obtain ⟨cells, rfl, hl⟩ := hold
    have hfirst : ∀ x ∈ cells.map Prod.snd, table.hashValue hash (getKey x) = some bucket :=
      hplaced 0 _ rfl
    rw [checkBuckets, hl.sanityCheck, Option.bind_eq_bind, Option.bind_some,
      ListIterator.new, checkLoop_eq hl.chain hfirst hl.length_le, Option.bind_some,
      ih fun i b hb x hx => ?_, hl.count]
    · rw [List.flatten_cons, List.length_append, List.length_map, Nat.cast_add, add_assoc]
    · rw [hplaced (i + 1) b hb x hx]
      congr 1
      omega

theorem Holds.sanityCheck (h : Holds getKey hash table bs) :
    table.sanityCheck getKey hash = some () := by
  have hchecked : table.checkBuckets getKey hash table.buckets 0 0 =
      some (0 + (bs.flatten.length : ℤ)) := by
    refine checkBuckets_eq h.buckets fun i b hb x hx => ?_
    rw [h.hashValue, Nat.zero_add]
    exact congrArg some (h.placed i b hb x hx)
  rw [HashTable.sanityCheck, hchecked, Option.bind_eq_bind, Option.bind_some, zero_add,
    if_pos h.count]

theorem filled_initBuckets {sz : ℕ} (hsz : 0 < sz) (numItems : ℤ) :
    Filled getKey hash ⟨initBuckets sz, numItems⟩ (List.replicate sz []) := by
  refine ⟨?_, ?_, Buckets.placed_replicate sz, ?_⟩
  · change List.Forall₂ Represents (List.replicate sz []) (List.replicate sz PointerList.new)
    clear hsz
    induction sz with
    | zero => exact List.Forall₂.nil
    | succ sz ih => exact List.Forall₂.cons ⟨[], rfl, PointerList.holds_new⟩ ih
  · rwa [List.length_replicate]
  · simp

section

variable [DecidableEq κ]

theorem findLoop_eq {list : PointerList α} {ptr : Option ℕ} {cells : List (ℕ × α)} {turns : ℕ}
    (h : Segment list.elements ptr cells none) (hturns : cells.length ≤ turns) :
    findLoop getKey list key turns ptr =
      some ((cells.map Prod.snd).find? fun x => key = getKey x) := by
  induction cells generalizing ptr turns with
  | nil =>
    obtain rfl : ptr = none := h
    cases turns <;> rfl
  | cons c cells ih =>
    obtain ⟨rfl, next, hnext, hrest⟩ := h
    cases turns with
    | zero => cases hturns
    | succ turns =>
      rw [findLoop, PointerList.iterator_item hnext, PointerList.iterator_next hnext]
      simp only [ListIterator.isDone, reduceCtorEq, decide_false, Bool.false_eq_true, if_false,
        Option.bind_eq_bind, Option.bind_some, List.map_cons]
      split
      · next heq => rw [List.find?_cons_of_pos (by simpa using heq)]
      · next hne =>
        rw [List.find?_cons_of_neg (by simpa using hne)]
        exact ih hrest (Nat.le_of_succ_le_succ hturns)

/-- `Find` looks the key up among all the items. -/
theorem Filled.find (h : Filled getKey hash table bs) (key : κ) :
    table.find getKey hash key = some (bs.flatten.find? fun x => key = getKey x) := by
  obtain ⟨_, list, hb, hlist, cells, rfl, hcells⟩ := h.bucket key
  rw [HashTable.find, h.hashValue, Option.bind_eq_bind, Option.bind_some, findInBucket, hlist,
    Option.bind_eq_bind, Option.bind_some]
  rw [← h.placed.find?_eq h.keys hb]
  exact findLoop_eq hcells.chain hcells.length_le

theorem Filled.isInTable (h : Filled getKey hash table bs) (key : κ) :
    table.isInTable getKey hash key = some (decide (key ∈ bs.flatten.map getKey)) := by
  rw [HashTable.isInTable, h.find, Option.map_some]
  congr 1
  rw [Bool.eq_iff_iff, List.find?_isSome]
  simp only [List.mem_map, decide_eq_true_eq, eq_comm (a := key)]

end

section

variable [DecidableEq α]

/-- An item with a new key goes to the end of its bucket. -/
theorem Filled.appendItem (h : Filled getKey hash table bs)
    (hnew : getKey item ∉ bs.flatten.map getKey) :
    ∃ table' bs', table.appendItem getKey hash item = some table' ∧
      Filled getKey hash table' bs' ∧ bs'.length = bs.length ∧
      bs'.flatten.Perm (item :: bs.flatten) ∧ table'.numItems = table.numItems := by
  obtain ⟨b, list, hb, hlist, hR⟩ := h.bucket (getKey item)
  have hitem : item ∉ b := fun hmem =>
    hnew (List.mem_map_of_mem (List.mem_flatten.mpr ⟨b, List.mem_of_getElem? hb, hmem⟩))
  obtain ⟨list', hlist', hR'⟩ := hR.append hitem
  have hperm := Buckets.perm_set hb (List.perm_append_singleton item b)
  have hlength : (bs.set (index hash bs.length (getKey item)) (b ++ [item])).length = bs.length :=
    List.length_set
  refine ⟨⟨table.buckets.set (index hash bs.length (getKey item)) list', table.numItems⟩,
    bs.set (index hash bs.length (getKey item)) (b ++ [item]), ?_, ⟨?_, ?_, ?_, ?_⟩, hlength, hperm,
    rfl⟩
  · rw [HashTable.appendItem, h.hashValue]
    simp only [Option.bind_eq_bind, Option.bind_some, hlist, hlist', Option.pure_def]
  · exact Buckets.forall₂_set h.buckets hR'
  · rw [hlength]
    exact h.nonempty
  · rw [hlength]
    refine h.placed.set fun x hx => ?_
    rcases List.mem_append.mp hx with hx | hx
    · exact h.placed _ b hb x hx
    · rw [List.mem_singleton.mp hx]
  · exact (hperm.map getKey).nodup_iff.mpr (List.nodup_cons.mpr ⟨hnew, h.keys⟩)

theorem Filled.moveItems {list : PointerList α} {turns : ℕ} (h : Filled getKey hash table bs)
    (hR : Represents items list) (hkeys : ((items ++ bs.flatten).map getKey).Nodup)
    (hturns : items.length ≤ turns) :
    ∃ table' bs', moveItems getKey hash turns list table = some table' ∧
      Filled getKey hash table' bs' ∧ bs'.flatten.Perm (items ++ bs.flatten) ∧
      table'.numItems = table.numItems := by
  induction items generalizing list turns table bs with
  | nil =>
    obtain ⟨cells, hcells, hl⟩ := hR
    obtain rfl := List.map_eq_nil_iff.mp hcells
    refine ⟨table, bs, ?_, h, List.Perm.refl _, rfl⟩
    unfold HashTable.moveItems
    rw [hl.isEmpty, if_pos List.isEmpty_nil]
  | cons item items ih =>
    obtain ⟨list', hfront, hR'⟩ := hR.removeFront
    have hmoved : (items ++ item :: bs.flatten).Perm (item :: items ++ bs.flatten) :=
      List.perm_middle
    have hnew : getKey item ∉ (items ++ bs.flatten).map getKey := (List.nodup_cons.mp hkeys).1
    obtain ⟨table₁, bs₁, happend, h₁, -, hperm₁, hcount₁⟩ := h.appendItem fun hmem =>
      hnew (by rw [List.map_append]; exact List.mem_append_right _ hmem)
    have hperm₂ := hperm₁.append_left items
    have hkeys₁ := (((hperm₂.trans hmoved).map getKey).nodup_iff).mpr hkeys
    have hne : ¬list.isEmpty = true := by
      obtain ⟨cells, hcells, hl⟩ := hR
      rw [hl.isEmpty, List.isEmpty_iff]
      rintro rfl
      cases hcells
    cases turns with
    | zero => cases hturns
    | succ turns =>
      obtain ⟨table', bs', hmove, h', hperm', hcount'⟩ :=
        ih h₁ hR' hkeys₁ (Nat.le_of_succ_le_succ hturns)
      refine ⟨table', bs', ?_, h', hperm'.trans (hperm₂.trans hmoved), hcount'.trans hcount₁⟩
      unfold HashTable.moveItems
      rw [if_neg hne, hfront]
      simp only [Option.bind_eq_bind, Option.bind_some, happend, hmove]

theorem Filled.moveBuckets {lists : List (PointerList α)} {olds : List (List α)}
    (h : Filled getKey hash table bs) (hR : List.Forall₂ Represents olds lists)
    (hkeys : ((olds.flatten ++ bs.flatten).map getKey).Nodup) :
    ∃ table' bs', moveBuckets getKey hash lists table = some table' ∧
      Filled getKey hash table' bs' ∧ bs'.flatten.Perm (olds.flatten ++ bs.flatten) ∧
      table'.numItems = table.numItems := by
  induction hR generalizing table bs with
  | nil => exact ⟨table, bs, rfl, h, List.Perm.refl _, rfl⟩
  | @cons old list olds lists hold _ ih =>
    rw [List.flatten_cons, List.append_assoc] at hkeys
    have hswap : (old ++ (olds.flatten ++ bs.flatten)).Perm
        (olds.flatten ++ (old ++ bs.flatten)) := by
      rw [← List.append_assoc, ← List.append_assoc]
      exact List.perm_append_comm.append_right _
    have hkeys₁ : ((old ++ bs.flatten).map getKey).Nodup :=
      hkeys.sublist (((List.sublist_append_right _ _).append_left old).map getKey)
    have hturns : old.length ≤ list.turns := by
      obtain ⟨cells, rfl, hl⟩ := hold
      rw [List.length_map]
      exact hl.length_le
    obtain ⟨table₁, bs₁, hmove, h₁, hperm₁, hcount₁⟩ := h.moveItems hold hkeys₁ hturns
    have hperm₂ := (hperm₁.append_left olds.flatten).trans hswap.symm
    obtain ⟨table', bs', hrest, h', hperm', hcount'⟩ :=
      ih h₁ ((hperm₂.map getKey).nodup_iff.mpr hkeys)
    refine ⟨table', bs', ?_, h', ?_, hcount'.trans hcount₁⟩
    · rw [HashTable.moveBuckets, hmove]
      exact hrest
    · rw [List.flatten_cons, List.append_assoc]
      exact hperm'.trans hperm₂

/-- `ReHash` keeps the items. -/
theorem Holds.reHash (h : Holds getKey hash table bs) :
    ∃ table' bs', table.reHash getKey hash = some table' ∧ Holds getKey hash table' bs' ∧
      bs'.flatten.Perm bs.flatten := by
  have hsz : 0 < table.numBuckets * IncreaseSizeBy := by
    rw [h.numBuckets]
    exact Nat.mul_pos h.nonempty (by decide)
  have hempty :
      (List.replicate (table.numBuckets * IncreaseSizeBy) ([] : List α)).flatten = [] := by
    simp
  obtain ⟨table', bs', hmove, h', hperm, hcount⟩ :=
    (filled_initBuckets hsz table.numItems).moveBuckets h.buckets (by
      rw [hempty, List.append_nil]
      exact h.keys)
  rw [hempty, List.append_nil] at hperm
  have hholds : Holds getKey hash table' bs' :=
    ⟨h', hcount.trans (h.count.trans (congrArg _ hperm.length_eq.symm))⟩
  refine ⟨table', bs', ?_, hholds, hperm⟩
  unfold HashTable.reHash
  simp only [h.sanityCheck, Option.bind_eq_bind, Option.bind_some, hmove, hholds.sanityCheck,
    Option.pure_def]

theorem Holds.grow (h : Holds getKey hash table bs) :
    ∃ table' bs', table.grow getKey hash = some table' ∧ Holds getKey hash table' bs' ∧
      bs'.flatten.Perm bs.flatten := by
  unfold HashTable.grow
  split
  · exact h.reHash
  · exact ⟨table, bs, rfl, h, List.Perm.refl _⟩

end

section

variable [DecidableEq α] [DecidableEq κ]

/-- An item with a new key is one item more, and the table may have grown before. -/
theorem Holds.insert (h : Holds getKey hash table bs)
    (hnew : getKey item ∉ bs.flatten.map getKey) :
    ∃ table' bs', table.insert getKey hash item = some table' ∧ Holds getKey hash table' bs' ∧
      bs'.flatten.Perm (item :: bs.flatten) := by
  obtain ⟨table₁, bs₁, hgrow, h₁, hperm₁⟩ := h.grow
  have hnew₁ : getKey item ∉ bs₁.flatten.map getKey := (hperm₁.map getKey).mem_iff.not.mpr hnew
  obtain ⟨table₂, bs₂, happend, h₂, -, hperm₂, hcount₂⟩ := h₁.appendItem hnew₁
  have h' : Holds getKey hash { table₂ with numItems := table₂.numItems + 1 } bs₂ := by
    refine ⟨⟨h₂.buckets, h₂.nonempty, h₂.placed, h₂.keys⟩, ?_⟩
    rw [hcount₂, h₁.count, hperm₂.length_eq, List.length_cons, Nat.cast_add_one]
  refine ⟨_, bs₂, ?_, h', hperm₂.trans (hperm₁.cons item)⟩
  have hpresent : getKey item ∈ bs₂.flatten.map getKey :=
    List.mem_map_of_mem (hperm₂.mem_iff.mpr List.mem_cons_self)
  unfold HashTable.insert
  simp only [h.isInTable, decide_eq_false hnew, Option.bind_eq_bind, Option.bind_some,
    Bool.false_eq_true, if_false, hgrow, happend, h'.isInTable, decide_eq_true hpresent, if_true]

theorem Holds.remove (h : Holds getKey hash table bs) (hitem : item ∈ bs.flatten) :
    ∃ table' bs', table.remove getKey hash (getKey item) = some (item, table') ∧
      Holds getKey hash table' bs' ∧ bs.flatten.Perm (item :: bs'.flatten) := by
  obtain ⟨b, list, hb, hlist, hR⟩ := h.bucket (getKey item)
  have hmem : item ∈ b := (h.placed.mem_iff hb).mpr ⟨hitem, rfl⟩
  obtain ⟨list', hlist', hR'⟩ := hR.remove hmem
  have hlength : (bs.set (index hash bs.length (getKey item)) (b.erase item)).length = bs.length :=
    List.length_set
  have hperm := Buckets.perm_of_set hb (List.perm_cons_erase hmem)
  obtain ⟨hgone, hkeys⟩ := List.nodup_cons.mp ((hperm.map getKey).nodup_iff.mp h.keys)
  have h' : Holds getKey hash ⟨table.buckets.set (index hash bs.length (getKey item)) list',
      table.numItems - 1⟩ (bs.set (index hash bs.length (getKey item)) (b.erase item)) := by
    refine ⟨⟨Buckets.forall₂_set h.buckets hR', ?_, ?_, hkeys⟩, ?_⟩
    · rw [hlength]
      exact h.nonempty
    · rw [hlength]
      exact h.placed.set fun x hx => h.placed _ b hb x (List.mem_of_mem_erase hx)
    · have hcount := h.count
      rw [hperm.length_eq, List.length_cons] at hcount
      simp only
      omega
  refine ⟨_, _, ?_, h', hperm⟩
  have hfound : table.findInBucket getKey (index hash bs.length (getKey item)) (getKey item) =
      some (some item) := by
    have hfind := h.find (getKey item)
    rw [HashTable.find, h.hashValue, Option.bind_eq_bind, Option.bind_some] at hfind
    rw [hfind, (Buckets.find?_eq_some_iff h.keys).mpr ⟨hitem, rfl⟩]
  unfold HashTable.remove
  simp only [h.hashValue, hfound, hlist, hlist', Option.bind_eq_bind, Option.bind_some,
    h'.isInTable, decide_eq_false hgone, Bool.false_eq_true, if_false]

end

end HashTable

namespace HashIterator

open PointerList (Represents Segment)

variable {α : Type} {table : HashTable α} {bs : List (List α)} {bucket : ℕ}

theorem item_eq {list : PointerList α} {a : ℕ} {x : α} {next : Option ℕ}
    (hlist : table.buckets[bucket]? = some list)
    (ha : list.elements[a]? = some (some ⟨x, next⟩)) :
    item table ⟨bucket, some (some a)⟩ = some x := by
  have hlt : bucket < table.buckets.length := (List.getElem?_eq_some_iff.mp hlist).1
  have hnot : isDone table ⟨bucket, some (some a)⟩ = false := decide_eq_false hlt.ne
  unfold item
  rw [hnot, if_neg Bool.false_ne_true]
  simp only [Option.bind_eq_bind, Option.bind_some, hlist]
  exact PointerList.iterator_item ha

theorem next_eq {list : PointerList α} {a : ℕ} {x : α} {next : Option ℕ}
    (hlist : table.buckets[bucket]? = some list)
    (ha : list.elements[a]? = some (some ⟨x, next⟩)) :
    HashIterator.next table ⟨bucket, some (some a)⟩ =
      some (if next = none then startFrom table (bucket + 1) else ⟨bucket, some next⟩) := by
  unfold HashIterator.next
  simp only [Option.bind_eq_bind, Option.bind_some, hlist, PointerList.iterator_next ha]
  cases next <;> rfl

/-- From an element on, the iterator sees the rest of its bucket and then the next ones. -/
theorem visited_cells {list : PointerList α} {ptr : ℕ}
    {cells : List (ℕ × α)} {after : List α} {turns : ℕ}
    (hlist : table.buckets[bucket]? = some list)
    (h : Segment list.elements (some ptr) cells none)
    (hafter : ∀ turns ≥ after.length,
      visited table turns (startFrom table (bucket + 1)) = some after)
    (hturns : (cells.map Prod.snd ++ after).length ≤ turns) :
    visited table turns ⟨bucket, some (some ptr)⟩ = some (cells.map Prod.snd ++ after) := by
  induction cells generalizing ptr turns with
  | nil => cases h
  | cons c cells ih =>
    obtain ⟨hptr, next, hnext, hrest⟩ := h
    obtain rfl : ptr = c.1 := Option.some.inj hptr
    have hlt : bucket < table.buckets.length := (List.getElem?_eq_some_iff.mp hlist).1
    have hnot : isDone table ⟨bucket, some (some c.1)⟩ = false := decide_eq_false hlt.ne
    cases turns with
    | zero => cases hturns
    | succ turns =>
      have hturns := Nat.le_of_succ_le_succ hturns
      rw [visited, hnot, if_neg Bool.false_ne_true]
      simp only [item_eq hlist hnext, next_eq hlist hnext, Option.bind_eq_bind, Option.bind_some]
      cases next with
      | none =>
        obtain rfl : cells = [] := by
          cases cells with
          | nil => rfl
          | cons d cells => cases hrest.1
        rw [if_pos rfl, hafter turns hturns]
        rfl
      | some next =>
        rw [if_neg (Option.some_ne_none next), ih hrest hturns]
        rfl

theorem findNextFullBucket_eq {list : PointerList α} (hlist : table.buckets[bucket]? = some list) :
    table.findNextFullBucket bucket =
      if list.isEmpty then table.findNextFullBucket (bucket + 1) else bucket := by
  obtain ⟨hlt, rfl⟩ := List.getElem?_eq_some_iff.mp hlist
  rw [HashTable.findNextFullBucket, List.drop_eq_getElem_cons hlt, HashTable.nextFullBucket]
  rfl

/-- From the start of a bucket on, the iterator sees what is in it and in the next ones. -/
theorem visited_startFrom (h : List.Forall₂ Represents bs (table.buckets.drop bucket))
    (hbucket : bucket ≤ table.numBuckets) {turns : ℕ} (hturns : bs.flatten.length ≤ turns) :
    visited table turns (startFrom table bucket) = some bs.flatten := by
  induction bs generalizing bucket turns with
  | nil =>
    have hend := List.drop_eq_nil_iff.mp (List.forall₂_nil_left_iff.mp h)
    have hstart : table.findNextFullBucket bucket = bucket := by
      rw [HashTable.findNextFullBucket, List.drop_eq_nil_iff.mpr hend]
      rfl
    have hdone : isDone table (startFrom table bucket) = true := by
      refine decide_eq_true ?_
      exact hstart.trans (le_antisymm hbucket hend)
    unfold visited
    rw [if_pos hdone]
    rfl
  | cons b bs ih =>
    obtain ⟨list, lists, hR, hrest, hdrop⟩ := List.forall₂_cons_left_iff.mp h
    have hlt : bucket < table.buckets.length := by
      by_contra hge
      rw [List.drop_eq_nil_iff.mpr (not_lt.mp hge)] at hdrop
      cases hdrop
    rw [List.drop_eq_getElem_cons hlt] at hdrop
    obtain ⟨rfl, rfl⟩ := List.cons.inj hdrop
    have hlist := List.getElem?_eq_getElem hlt
    have hafter (turns : ℕ) (hturns : turns ≥ bs.flatten.length) :=
      ih hrest (Nat.succ_le_of_lt hlt) hturns
    obtain ⟨cells, rfl, hl⟩ := hR
    have hstart := findNextFullBucket_eq hlist
    rw [hl.isEmpty] at hstart
    rw [List.flatten_cons] at hturns ⊢
    cases cells with
    | nil =>
      rw [List.isEmpty_nil, if_pos rfl] at hstart
      have hsame : startFrom table bucket = startFrom table (bucket + 1) := by
        rw [startFrom, hstart]
        rfl
      rw [hsame]
      exact hafter turns hturns
    | cons c cells =>
      rw [if_neg (by simp)] at hstart
      have hsame : startFrom table bucket = ⟨bucket, some (some c.1)⟩ := by
        rw [startFrom, hstart, hlist, Option.map_some, ListIterator.new, hl.chain.1]
      rw [hsame]
      exact visited_cells hlist (hl.chain.1 ▸ hl.chain) hafter hturns

end HashIterator

namespace HashTable

/-- An iterator sees every item once, and is done then. -/
theorem Filled.visited {α κ : Type} {getKey : α → κ} {hash : κ → BitVec 32} {table : HashTable α}
    {bs : List (List α)} (h : Filled getKey hash table bs) :
    HashIterator.visited table bs.flatten.length (HashIterator.new table) = some bs.flatten :=
  HashIterator.visited_startFrom h.buckets (Nat.zero_le _) le_rfl

end HashTable

inductive HashOp (α κ : Type) where
  | insert (item : α)
  | remove (key : κ)
  deriving DecidableEq

section

variable {α κ : Type} [DecidableEq α] [DecidableEq κ] (getKey : α → κ) (hash : κ → BitVec 32)

/-- The operations on the items of a finite map. An item goes in only if its key is absent, and
comes out only if its key is there. -/
def mapStep (items : List α) : HashOp α κ → Option (Option α × List α)
  | .insert item =>
    if getKey item ∈ items.map getKey then none else some (none, items ++ [item])
  | .remove key => (items.find? fun x => key = getKey x).map fun item =>
    (some item, items.erase item)

namespace HashTable

def step (table : HashTable α) : HashOp α κ → Option (Option α × HashTable α)
  | .insert item => (table.insert getKey hash item).map (none, ·)
  | .remove key => (table.remove getKey hash key).map fun r => (some r.1, r.2)

end HashTable

end

namespace HashTable

variable {α κ : Type} {getKey : α → κ} {hash : κ → BitVec 32}

/-- The table has these items. -/
def IsMap (getKey : α → κ) (hash : κ → BitVec 32) (items : List α) (table : HashTable α) : Prop :=
  ∃ bs, Holds getKey hash table bs ∧ bs.flatten.Perm items

theorem isMap_new : IsMap getKey hash [] new := by
  refine ⟨_, ⟨filled_initBuckets (by decide) 0, ?_⟩, ?_⟩
  · rw [List.flatten_replicate_nil]
    rfl
  · rw [List.flatten_replicate_nil]

section

variable [DecidableEq α] [DecidableEq κ]

theorem simulates (getKey : α → κ) (hash : κ → BitVec 32) :
    Simulation.Simulates (mapStep getKey) (step getKey hash) (IsMap getKey hash) := by
  rintro items table op answer items' ⟨bs, h, hperm⟩ hstep
  cases op with
  | insert item =>
    simp only [mapStep] at hstep
    split at hstep
    · cases hstep
    · next hnew =>
      cases hstep
      obtain ⟨table', bs', hinsert, h', hperm'⟩ :=
        h.insert ((hperm.map getKey).mem_iff.not.mpr hnew)
      refine ⟨table', by simp only [step, hinsert, Option.map_some], bs', h', ?_⟩
      exact (hperm'.trans (hperm.cons item)).trans (List.perm_append_singleton item items).symm
  | remove key =>
    obtain ⟨item, hfind, heq⟩ := Option.map_eq_some_iff.mp hstep
    cases heq
    have hkeys := (hperm.map getKey).nodup_iff.mp h.keys
    obtain ⟨hitem, rfl⟩ := (Buckets.find?_eq_some_iff hkeys).mp hfind
    obtain ⟨table', bs', hremove, h', hperm'⟩ := h.remove (hperm.mem_iff.mpr hitem)
    refine ⟨table', by simp only [step, hremove, Option.map_some], bs', h', ?_⟩
    have herase := (hperm'.symm.trans hperm).erase item
    rwa [List.erase_cons_head] at herase

namespace IsMap

variable {items : List α} {table : HashTable α}

omit [DecidableEq α] in
theorem find (h : IsMap getKey hash items table) (key : κ) :
    table.find getKey hash key = some (items.find? fun x => key = getKey x) := by
  obtain ⟨bs, h, hperm⟩ := h
  have hkeys := (hperm.map getKey).nodup_iff.mp h.keys
  rw [h.toFilled.find]
  refine congrArg some (Option.ext fun x => ?_)
  rw [Buckets.find?_eq_some_iff h.keys, Buckets.find?_eq_some_iff hkeys, hperm.mem_iff]

omit [DecidableEq α] [DecidableEq κ] in
theorem visited (h : IsMap getKey hash items table) :
    ∃ seen, HashIterator.visited table items.length (HashIterator.new table) = some seen ∧
      seen.Perm items := by
  obtain ⟨bs, h, hperm⟩ := h
  exact ⟨bs.flatten, hperm.length_eq ▸ h.toFilled.visited, hperm⟩

omit [DecidableEq κ] in
theorem inBucket (h : IsMap getKey hash items table) {bucket : ℕ} {list : PointerList α}
    (hlist : table.buckets[bucket]? = some list) (item : α) :
    list.isInList item = some true ↔
      item ∈ items ∧ table.hashValue hash (getKey item) = some bucket := by
  obtain ⟨bs, h, hperm⟩ := h
  have hlt : bucket < bs.length := by
    rw [h.buckets.length_eq]
    exact (List.getElem?_eq_some_iff.mp hlist).1
  obtain ⟨list', hlist', cells, hcells, hl⟩ :=
    Buckets.exists_of_getElem? h.buckets (List.getElem?_eq_getElem hlt)
  obtain rfl := Option.some.inj (hlist.symm.trans hlist')
  have hmem := h.placed.mem_iff (x := item) (List.getElem?_eq_getElem hlt)
  rw [hl.isInList, hcells, h.hashValue, Option.some.injEq, Option.some.injEq, decide_eq_true_iff,
    hmem, hperm.mem_iff]

end IsMap

/-- Whatever is put into a table and taken out of it, the table is the finite map of what is
there, and growing does not change it. -/
theorem finite_map (getKey : α → κ) (hash : κ → BitVec 32) {ops : List (HashOp α κ)}
    {answers : List (Option α)} {items : List α}
    (h : Simulation.run (mapStep getKey) [] ops = some (answers, items)) :
    (items.map getKey).Nodup ∧ ∃ table,
      Simulation.run (step getKey hash) new ops = some (answers, table) ∧
      (∀ item ∈ items, table.find getKey hash (getKey item) = some (some item)) ∧
      (∀ key, key ∉ items.map getKey → table.find getKey hash key = some none) ∧
      table.numItems = items.length ∧ table.sanityCheck getKey hash = some () ∧
      (∀ bucket list item, table.buckets[bucket]? = some list →
        (list.isInList item = some true ↔
          item ∈ items ∧ table.hashValue hash (getKey item) = some bucket)) ∧
      (∃ seen, HashIterator.visited table items.length (HashIterator.new table) = some seen ∧
        seen.Perm items) ∧
      ∃ grown, table.reHash getKey hash = some grown ∧ grown.numItems = table.numItems ∧
        (∀ key, grown.find getKey hash key = table.find getKey hash key) ∧
        ∃ seen, HashIterator.visited grown items.length (HashIterator.new grown) = some seen ∧
          seen.Perm items := by
  obtain ⟨table, hrun, hmap⟩ := (simulates getKey hash).run isMap_new h
  obtain ⟨bs, hbs, hperm⟩ := hmap
  have hkeys := (hperm.map getKey).nodup_iff.mp hbs.keys
  obtain ⟨grown, bs', hgrown, hbs', hperm'⟩ := hbs.reHash
  have hmap : IsMap getKey hash items table := ⟨bs, hbs, hperm⟩
  have hmap' : IsMap getKey hash items grown := ⟨bs', hbs', hperm'.trans hperm⟩
  refine ⟨hkeys, table, hrun, fun item hitem => ?_, fun key hkey => ?_, ?_, hbs.sanityCheck,
    fun bucket list item hlist => hmap.inBucket hlist item, hmap.visited, grown, hgrown, ?_,
    fun key => ?_, hmap'.visited⟩
  · rw [hmap.find]
    exact congrArg some ((Buckets.find?_eq_some_iff hkeys).mpr ⟨hitem, rfl⟩)
  · rw [hmap.find]
    refine congrArg some (List.find?_eq_none.mpr fun item hitem heq => hkey ?_)
    exact List.mem_map.mpr ⟨item, hitem, (of_decide_eq_true heq).symm⟩
  · rw [hbs.count, hperm.length_eq]
  · rw [hbs'.count, hbs.count, hperm'.length_eq]
  · rw [hmap'.find, hmap.find]

end

/-- Keys are hashed to themselves, as in the self test. -/
def hashInt (key : ℤ) : BitVec 32 := BitVec.ofInt 32 key

/-- The thirteenth item makes the table grow. -/
def grows : List (HashOp ℤ ℤ) :=
  ((List.range 13).map fun i => .insert (i : ℤ)) ++ [.remove 4, .insert (-4)]

def grown : List ℤ := [0, 1, 2, 3, 5, 6, 7, 8, 9, 10, 11, 12, -4]

theorem finite_map_grows : ∃ table,
    Simulation.run (step id hashInt) new grows =
      some (List.replicate 13 none ++ [some 4, none], table) ∧
    table.find id hashInt (-4) = some (some (-4)) ∧ table.find id hashInt 4 = some none ∧
    table.numItems = 13 := by
  have hrun : Simulation.run (mapStep (α := ℤ) id) [] grows =
      some (List.replicate 13 none ++ [some 4, none], grown) := by
    decide +kernel
  obtain ⟨-, table, hrun, hfind, hnone, hcount, -⟩ := finite_map id hashInt hrun
  exact ⟨table, hrun, hfind (-4) (by decide), hnone 4 (by decide), hcount⟩

end HashTable

end Nachos

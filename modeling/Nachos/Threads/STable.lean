import Nachos.Lib.Bitmap
import Nachos.Lib.List
import Nachos.Threads.StartProcess
import Nachos.Threads.Synch

/-! The table of named semaphores (`threads/stable.cc`, `threads/sem.cc`). A store outside
`semTab` and a failed assertion have no result here (`none`); `new` always finds memory. -/
namespace Nachos

abbrev MAX_SEMAPHORE : ℕ := 10

abbrev SEMAPHORE_MAX_NAMESIZE : ℕ := 49

/-- The loop of `strncmp`. -/
def compareChars : List UInt8 → List UInt8 → ℕ → ℤ
  | _, _, 0 => 0
  | [], [], _ + 1 => 0
  | [], d :: _, _ + 1 => -(d.toNat : ℤ)
  | c :: _, [], _ + 1 => c.toNat
  | c :: a, d :: b, n + 1 => if c = d then compareChars a b n else (c.toNat : ℤ) - d.toNat

def strncmp (a b : CString) (n : ℕ) : ℤ := compareChars a.val b.val n

private theorem toNat_ne_zero {c : UInt8} (h : c ≠ 0) : (c.toNat : ℤ) ≠ 0 := by
  intro hc
  apply h
  apply UInt8.toNat_inj.mp
  rw [Int.natCast_eq_zero.mp hc]
  rfl

private theorem compareChars_eq_zero_iff {a b : List UInt8} (ha : 0 ∉ a) (hb : 0 ∉ b) (n : ℕ) :
    compareChars a b n = 0 ↔ a.take n = b.take n := by
  induction n generalizing a b with
  | zero => simp [compareChars]
  | succ n ih =>
    cases a with
    | nil =>
      cases b with
      | nil => simp [compareChars]
      | cons d b =>
        have hd := toNat_ne_zero (List.ne_of_not_mem_cons hb).symm
        simpa [compareChars] using hd
    | cons c a =>
      have hc := toNat_ne_zero (List.ne_of_not_mem_cons ha).symm
      cases b with
      | nil => simpa [compareChars] using hc
      | cons d b =>
        rw [compareChars, List.take_succ_cons, List.take_succ_cons, List.cons_eq_cons]
        split_ifs with hcd
        · rw [ih (List.not_mem_of_not_mem_cons ha) (List.not_mem_of_not_mem_cons hb)]
          simp [hcd]
        · have hne : (c.toNat : ℤ) ≠ d.toNat := by
            intro h
            exact hcd (UInt8.toNat_inj.mp (Int.natCast_inj.mp h))
          simp [hcd, sub_eq_zero, hne]

/-- `strncmp` finds no difference exactly when the first `n` characters agree. -/
theorem strncmp_eq_zero_iff {a b : CString} {n : ℕ} :
    strncmp a b n = 0 ↔ a.val.take n = b.val.take n :=
  compareChars_eq_zero_iff a.property b.property n

/-- `class Sem`, with the `value` and the `queue` of its semaphore. Of `name` only the first
`SEMAPHORE_MAX_NAMESIZE` characters are ever read. -/
structure Sem where
  name : CString
  value : Word
  queue : List ThreadId
  deriving DecidableEq

namespace Sem

/-- What `strncpy(this->name, name, SEMAPHORE_MAX_NAMESIZE)` copies. -/
def copiedName (name : CString) : CString :=
  ⟨name.val.take SEMAPHORE_MAX_NAMESIZE, fun h => name.property (List.mem_of_mem_take h)⟩

/-- `Sem::Sem`. -/
def new (name : CString) (i : Word) : Sem := ⟨copiedName name, i, []⟩

/-- The test that `STable` makes on a semaphore. -/
def HasName (s : Sem) (name : CString) : Prop := strncmp s.name name SEMAPHORE_MAX_NAMESIZE = 0

instance (s : Sem) (name : CString) : Decidable (s.HasName name) :=
  inferInstanceAs (Decidable (_ = _))

/-- One turn of the loop in `Semaphore::P` by `t`: the answer 0 of `STable::Wait` when the
value could be taken, nothing when `t` has gone to sleep. -/
def P (s : Sem) (t : ThreadId) : Option (Option ℤ × Sem) :=
  if s.value = 0 then
    (LinkedList.append s.queue t).map fun queue => (none, { s with queue := queue })
  else some (some 0, { s with value := s.value - 1 })

/-- `Semaphore::V`, with the thread it moves to the ready list. -/
def V (s : Sem) : Option ThreadId × Sem :=
  (s.queue.head?, { s with value := s.value + 1, queue := s.queue.tail })

theorem hasName_new (name : CString) (i : Word) : (new name i).HasName name := by
  apply strncmp_eq_zero_iff.mpr
  show (name.val.take SEMAPHORE_MAX_NAMESIZE).take SEMAPHORE_MAX_NAMESIZE = _
  rw [List.take_take, min_self]

theorem P_of_pos {s : Sem} (t : ThreadId) (h : s.value ≠ 0) :
    s.P t = some (some 0, { s with value := s.value - 1 }) := if_neg h

theorem P_of_zero {s : Sem} {t : ThreadId} (h : s.value = 0) (ht : t ∉ s.queue) :
    s.P t = some (none, { s with queue := s.queue ++ [t] }) := by
  rw [P, if_pos h, LinkedList.append_eq_some ht]
  rfl

/-- A turn of `P` keeps the name and never answers -1. -/
theorem P_spec {s s' : Sem} {t : ThreadId} {answer : Option ℤ} (h : s.P t = some (answer, s')) :
    s'.name = s.name ∧ answer ≠ some (-1) := by
  unfold P at h
  split_ifs at h
  · obtain ⟨queue, -, heq⟩ := Option.map_eq_some_iff.mp h
    cases heq
    exact ⟨rfl, by decide⟩
  · cases h
    exact ⟨rfl, by decide⟩

end Sem

structure STable where
  bm : Bitmap MAX_SEMAPHORE
  semTab : Fin MAX_SEMAPHORE → Option Sem

namespace STable

/-- `STable::STable`. -/
def new : Option STable := do return ⟨← Bitmap.new MAX_SEMAPHORE, fun _ => none⟩

/-- The search that `Create`, `Wait` and `Signal` begin with. -/
def find (tab : STable) (name : CString) : Option (Fin MAX_SEMAPHORE) :=
  (List.finRange MAX_SEMAPHORE).find? fun id => (tab.semTab id).any fun s => s.HasName name

/-- `STable::FindFreeSlot`. -/
def findFreeSlot (tab : STable) : Option (ℤ × STable) := do
  let (id, bm) ← tab.bm.findAndSet
  return (id, { tab with bm := bm })

/-- `semTab[id] = s`. -/
def store (tab : STable) (id : ℤ) (s : Sem) : Option STable :=
  if h : id.toNat < MAX_SEMAPHORE ∧ 0 ≤ id then
    some { tab with semTab := Function.update tab.semTab ⟨id.toNat, h.1⟩ (some s) }
  else none

/-- `STable::Create`; there is no name when the pointer is NULL. What `FindFreeSlot` answers is
used as an index without a test. -/
def create (tab : STable) (name : Option CString) (init : Word) : Option (ℤ × STable) :=
  match name with
  | none => some (-1, tab)
  | some name =>
    if init.toInt < 0 then some (-1, tab)
    else if (tab.find name).isSome then some (-1, tab)
    else do
      let (id, tab) ← tab.findFreeSlot
      return (id, ← tab.store id (Sem.new name init))

/-- The table after an operation on the semaphore in slot `id`. -/
def set (tab : STable) (id : Fin MAX_SEMAPHORE) (s : Sem) : STable :=
  { tab with semTab := Function.update tab.semTab id (some s) }

/-- `STable::Wait` by thread `t`, up to its return or to its going to sleep. -/
def wait (tab : STable) (t : ThreadId) (name : CString) : Option (Option ℤ × STable) :=
  match tab.find name with
  | none => some (some (-1), tab)
  | some id => do
    let (answer, s) ← (← tab.semTab id).P t
    return (answer, tab.set id s)

/-- `STable::Signal`, with the thread it wakes. -/
def signal (tab : STable) (name : CString) : Option (ℤ × Option ThreadId × STable) :=
  match tab.find name with
  | none => some (-1, none, tab)
  | some id => do
    let (woken, s) := (← tab.semTab id).V
    return (0, woken, tab.set id s)

/-- Slot `id` holds a semaphore of that name. -/
def Named (tab : STable) (name : CString) (id : Fin MAX_SEMAPHORE) : Prop :=
  ∃ s, tab.semTab id = some s ∧ s.HasName name

instance (tab : STable) (name : CString) (id : Fin MAX_SEMAPHORE) : Decidable (tab.Named name id) :=
  inferInstanceAs (Decidable (∃ s ∈ tab.semTab id, s.HasName name))

/-- `Create` turns the request down before it looks for a slot. -/
def Refuses (tab : STable) (name : Option CString) (init : Word) : Prop :=
  ∀ n ∈ name, init.toInt < 0 ∨ ∃ i, tab.Named n i

instance (tab : STable) (name : Option CString) (init : Word) : Decidable (tab.Refuses name init) :=
  inferInstanceAs (Decidable (∀ _ ∈ name, _ ∨ ∃ _, _))

/-- All slots are taken. -/
def Full (tab : STable) : Prop := ∀ i, tab.semTab i ≠ none

instance (tab : STable) : Decidable tab.Full := inferInstanceAs (Decidable (∀ _, _ ≠ _))

/-- The two representations agree, and a name is in one slot at most. -/
structure IsMap (tab : STable) : Prop where
  bitmap : ∀ id : Fin MAX_SEMAPHORE, tab.bm.mem id = (tab.semTab id).isSome
  distinct : ∀ i j a b, tab.semTab i = some a → tab.semTab j = some b →
    strncmp a.name b.name SEMAPHORE_MAX_NAMESIZE = 0 → i = j

section

variable {tab : STable} {name : CString} {id : Fin MAX_SEMAPHORE}

private theorem any_hasName {i : Fin MAX_SEMAPHORE} :
    (tab.semTab i).any (fun s => s.HasName name) = true ↔ tab.Named name i := by
  unfold Named
  cases tab.semTab i with
  | none => simp
  | some s => simp

theorem find_eq_none_iff : tab.find name = none ↔ ∀ i, ¬ tab.Named name i := by
  unfold find
  rw [List.find?_eq_none]
  constructor
  · intro h i hi
    exact h i (List.mem_finRange i) (any_hasName.mpr hi)
  · intro h i _ hany
    exact h i (any_hasName.mp hany)

theorem named_of_find (h : tab.find name = some id) : tab.Named name id := by
  unfold find at h
  have hany := List.find?_some h
  exact any_hasName.mp hany

theorem IsMap.named_unique (hm : tab.IsMap) {i j : Fin MAX_SEMAPHORE} (hi : tab.Named name i)
    (hj : tab.Named name j) : i = j := by
  obtain ⟨a, ha, hna⟩ := hi
  obtain ⟨b, hb, hnb⟩ := hj
  apply hm.distinct i j a b ha hb
  have hna := strncmp_eq_zero_iff.mp hna
  have hnb := strncmp_eq_zero_iff.mp hnb
  exact strncmp_eq_zero_iff.mpr (hna.trans hnb.symm)

/-- In a map the search finds the one slot with the name. -/
theorem IsMap.find_eq_some_iff (hm : tab.IsMap) : tab.find name = some id ↔ tab.Named name id := by
  refine ⟨named_of_find, fun h => ?_⟩
  cases hf : tab.find name with
  | none => exact absurd h (find_eq_none_iff.mp hf id)
  | some j => rw [hm.named_unique h (named_of_find hf)]

theorem set_semTab_self (s : Sem) : (tab.set id s).semTab id = some s := by
  simp [set]

theorem set_semTab_ne {j : Fin MAX_SEMAPHORE} (s : Sem) (h : j ≠ id) :
    (tab.set id s).semTab j = tab.semTab j := by
  simp [set, h]

/-- An operation that keeps the name of its semaphore keeps the map. -/
theorem IsMap.set (hm : tab.IsMap) {s s' : Sem} (hs : tab.semTab id = some s)
    (hname : s'.name = s.name) : (tab.set id s').IsMap := by
  have hback : ∀ i a, (tab.set id s').semTab i = some a →
      ∃ b, tab.semTab i = some b ∧ b.name = a.name := by
    intro i a ha
    by_cases hi : i = id
    · subst hi
      rw [set_semTab_self] at ha
      cases ha
      exact ⟨s, hs, hname.symm⟩
    · rw [set_semTab_ne s' hi] at ha
      exact ⟨a, ha, rfl⟩
  constructor
  · intro i
    by_cases hi : i = id
    · subst hi
      rw [set_semTab_self]
      show tab.bm.mem i = _
      rw [hm.bitmap, hs]
      rfl
    · rw [set_semTab_ne s' hi]
      exact hm.bitmap i
  · intro i j a b ha hb hab
    obtain ⟨a', ha', hna⟩ := hback i a ha
    obtain ⟨b', hb', hnb⟩ := hback j b hb
    apply hm.distinct i j a' b' ha' hb'
    rwa [hna, hnb]

/-- `Wait` on a name that is in the table takes a turn of `P` on its semaphore. -/
theorem IsMap.wait_of_named (hm : tab.IsMap) {s : Sem} (hs : tab.semTab id = some s)
    (hn : s.HasName name) (t : ThreadId) :
    tab.wait t name = (s.P t).map fun r => (r.1, tab.set id r.2) := by
  rw [wait, hm.find_eq_some_iff.mpr ⟨s, hs, hn⟩]
  simp only [hs, Option.bind_eq_bind, Option.bind_some]
  cases s.P t with
  | none => rfl
  | some r => rfl

theorem IsMap.signal_of_named (hm : tab.IsMap) {s : Sem} (hs : tab.semTab id = some s)
    (hn : s.HasName name) : tab.signal name = some (0, s.V.1, tab.set id s.V.2) := by
  rw [signal, hm.find_eq_some_iff.mpr ⟨s, hs, hn⟩]
  simp [hs]

theorem wait_of_unnamed (h : ∀ i, ¬ tab.Named name i) (t : ThreadId) :
    tab.wait t name = some (some (-1), tab) := by
  rw [wait, find_eq_none_iff.mpr h]

theorem signal_of_unnamed (h : ∀ i, ¬ tab.Named name i) :
    tab.signal name = some (-1, none, tab) := by
  rw [signal, find_eq_none_iff.mpr h]

theorem refuses_none {init : Word} : tab.Refuses none init := by
  simp [Refuses]

theorem create_of_refuses {name : Option CString} {init : Word} (h : tab.Refuses name init) :
    tab.create name init = some (-1, tab) := by
  cases name with
  | none => rfl
  | some n =>
    rw [create]
    split_ifs with hinit hfound
    · rfl
    · rfl
    · obtain hneg | ⟨i, hi⟩ := h n rfl
      · exact absurd hneg hinit
      · have hnone : tab.find n = none := by simpa using hfound
        exact absurd hi (find_eq_none_iff.mp hnone i)

theorem create_of_not_refuses {init : Word} (h : ¬ tab.Refuses (some name) init) :
    tab.create (some name) init = do
      let (id, tab) ← tab.findFreeSlot
      return (id, ← tab.store id (Sem.new name init)) := by
  have h : 0 ≤ init.toInt ∧ ∀ i, ¬ tab.Named name i := by simpa [Refuses] using h
  rw [create, if_neg (by omega), find_eq_none_iff.mpr h.2]
  rfl

theorem not_full_iff : ¬ tab.Full ↔ ∃ i, tab.semTab i = none := by
  simp [Full]

/-- The free slots, as the bitmap has them. -/
theorem IsMap.mem_clearList (hm : tab.IsMap) {i : ℕ} :
    i ∈ tab.bm.clearList ↔ ∃ h : i < MAX_SEMAPHORE, tab.semTab ⟨i, h⟩ = none := by
  rw [Bitmap.mem_clearList]
  constructor
  · rintro ⟨hi, hclear⟩
    refine ⟨hi, ?_⟩
    have hb := hm.bitmap ⟨i, hi⟩
    rw [hclear] at hb
    exact Option.not_isSome_iff_eq_none.mp (by simp [← hb])
  · rintro ⟨hi, hnone⟩
    refine ⟨hi, ?_⟩
    have hb := hm.bitmap ⟨i, hi⟩
    rwa [hnone] at hb

/-- On a full table the store goes outside `semTab`. -/
theorem IsMap.create_of_full (hm : tab.IsMap) {init : Word} (hfull : tab.Full)
    (h : ¬ tab.Refuses (some name) init) : tab.create (some name) init = none := by
  have hclear : tab.bm.clearList = [] := by
    apply List.eq_nil_iff_forall_not_mem.mpr
    intro i hi
    obtain ⟨hlt, hnone⟩ := hm.mem_clearList.mp hi
    exact hfull _ hnone
  rw [create_of_not_refuses h, findFreeSlot, Bitmap.findAndSet_eq, hclear]
  rfl

/-- The table after a successful `Create` in slot `id`. -/
def added (tab : STable) (id : Fin MAX_SEMAPHORE) (name : CString) (init : Word) : STable :=
  { tab with bm := tab.bm.insert id }.set id (Sem.new name init)

/-- Otherwise the semaphore goes into the least free slot. -/
theorem IsMap.create_of_free (hm : tab.IsMap) {init : Word} (hfree : ¬ tab.Full)
    (h : ¬ tab.Refuses (some name) init) :
    ∃ id : Fin MAX_SEMAPHORE, tab.semTab id = none ∧ (∀ j < id, tab.semTab j ≠ none) ∧
      tab.create (some name) init = some ((id : ℤ), tab.added id name init) := by
  obtain ⟨i, hi⟩ := not_full_iff.mp hfree
  have hmem := hm.mem_clearList.mpr ⟨i.isLt, hi⟩
  obtain ⟨id, rest, hcons⟩ := List.exists_cons_of_ne_nil (List.ne_nil_of_mem hmem)
  obtain ⟨hlt, hnone⟩ := hm.mem_clearList.mp (hcons ▸ List.mem_cons_self)
  refine ⟨⟨id, hlt⟩, hnone, ?_, ?_⟩
  · intro j hj hjnone
    have hjmem := hm.mem_clearList.mpr ⟨j.isLt, hjnone⟩
    have hsorted := hcons ▸ tab.bm.clearList_sortedLT
    rw [hcons, List.mem_cons] at hjmem
    have hjid : (j : ℕ) < id := hj
    rcases hjmem with heq | hrest
    · omega
    · have := List.rel_of_pairwise_cons hsorted hrest
      omega
  · rw [create_of_not_refuses h, findFreeSlot, Bitmap.findAndSet_eq, hcons]
    simp only [List.head?_cons, Option.pure_def, Option.bind_eq_bind, Option.bind_some, store,
      Int.toNat_natCast, hlt, Int.natCast_nonneg, and_self, ↓reduceDIte]
    rfl

theorem IsMap.added (hm : tab.IsMap) {init : Word} (hfree : tab.semTab id = none)
    (hnew : ∀ i, ¬ tab.Named name i) : (tab.added id name init).IsMap := by
  have hother : ∀ i a, i ≠ id → (tab.added id name init).semTab i = some a →
      ¬ a.HasName name ∧ tab.semTab i = some a := by
    intro i a hi ha
    rw [STable.added, set_semTab_ne _ hi] at ha
    exact ⟨fun h => hnew i ⟨a, ha, h⟩, ha⟩
  have hself : ∀ a, (tab.added id name init).semTab id = some a → a = Sem.new name init := by
    intro a ha
    rw [STable.added, set_semTab_self] at ha
    exact (Option.some.inj ha).symm
  have hnamed := strncmp_eq_zero_iff.mp (Sem.hasName_new name init)
  constructor
  · intro i
    show (tab.bm.insert id).mem i = _
    rw [Bitmap.mem_insert _ id.isLt i.isLt]
    by_cases hi : i = id
    · subst hi
      simp [STable.added, set_semTab_self]
    · have hne : (id : ℕ) ≠ i := fun h => hi (Fin.ext h.symm)
      rw [STable.added, set_semTab_ne _ hi, hm.bitmap i]
      simp [hne]
  · intro i j a b ha hb hab
    have hab := strncmp_eq_zero_iff.mp hab
    by_cases hi : i = id
    · by_cases hj : j = id
      · rw [hi, hj]
      · subst hi
        rw [hself a ha] at hab
        exact absurd (strncmp_eq_zero_iff.mpr (hab.symm.trans hnamed)) (hother j b hj hb).1
    · by_cases hj : j = id
      · subst hj
        rw [hself b hb] at hab
        exact absurd (strncmp_eq_zero_iff.mpr (hab.trans hnamed)) (hother i a hi ha).1
      · exact hm.distinct i j a b (hother i a hi ha).2 (hother j b hj hb).2
          (strncmp_eq_zero_iff.mpr hab)

/-- `STable::STable` makes the empty map. -/
theorem new_spec : ∃ tab, new = some tab ∧ tab.IsMap ∧ ∀ i, tab.semTab i = none := by
  obtain ⟨bm, hnew, hclear⟩ := Bitmap.new_spec (n := MAX_SEMAPHORE) (by decide)
  refine ⟨⟨bm, fun _ => none⟩, ?_, ?_, fun _ => rfl⟩
  · rw [new, hnew]
    rfl
  · exact ⟨fun i => hclear i i.isLt, fun i j a b ha => by cases ha⟩

end

end STable
end Nachos

import Nachos.Filesys.Directory
import Nachos.Library.Buckets
import Nachos.Library.Simulation
import Nachos.Library.Slots

/-! The directory in memory as a bounded map from names to sectors. Only the first characters of a
name count. -/
namespace Nachos.Filesys

/-- The bytes up to the first zero, and at most `n`. -/
def charsOf (a : Buffer) : ℕ → List UInt8
  | 0 => []
  | n + 1 => if a 0 = 0 then [] else a 0 :: charsOf (fun k => a (k + 1)) n

theorem strncmp_iff {n : ℕ} :
    ∀ {a b : Buffer}, strncmp a b n = true ↔ charsOf a n = charsOf b n := by
  induction n with
  | zero => exact fun {a b} => ⟨fun _ => rfl, fun _ => rfl⟩
  | succ n ih =>
    intro a b
    rw [strncmp, decide_eq_true_eq, charsOf, charsOf]
    by_cases ha : a 0 = 0
    · rw [if_pos ha]
      by_cases hb : b 0 = 0
      · simp [ha, hb]
      · rw [if_neg hb]
        simp [ha, Ne.symm hb]
    · rw [if_neg ha]
      by_cases hb : b 0 = 0
      · rw [if_pos hb]
        simp [ha, hb]
      · rw [if_neg hb, List.cons.injEq, or_iff_right ha, ih]

theorem charsOf_congr {a b : Buffer} {n : ℕ} (h : ∀ k < n, a k = b k) :
    charsOf a n = charsOf b n := strncmp_iff.mp (strncmp_of_eq h)

/-- What counts of a name. -/
def keyOf (name : CString) : List UInt8 := name.val.take FileNameMaxLen

theorem charsOf_getD {s : List UInt8} (hs : 0 ∉ s) (n : ℕ) :
    charsOf (fun k => s.getD k 0) n = s.take n := by
  induction n generalizing s with
  | zero => rfl
  | succ n ih =>
    cases s with
    | nil => simp [charsOf]
    | cons c s =>
      obtain ⟨hc, hs⟩ := not_or.mp (List.mem_cons.not.mp hs)
      simp only [charsOf, List.getD_cons_zero, List.getD_cons_succ, ih hs, List.take_succ_cons]
      exact if_neg (Ne.symm hc)

theorem charsOf_nameBytes (name : CString) : charsOf (nameBytes name) FileNameMaxLen = keyOf name :=
  charsOf_getD name.property FileNameMaxLen

/-- The characters of an entry. -/
def DirectoryEntry.chars (entry : DirectoryEntry) : Buffer :=
  fun k => if h : k < FileNameMaxLen + 1 then entry.name ⟨k, h⟩ else 0

/-- The name and the sector of an entry that is in use. -/
def DirectoryEntry.slot (entry : DirectoryEntry) : Option (List UInt8 × Word) :=
  if entry.inUse then some (charsOf entry.chars FileNameMaxLen, entry.sector) else none

inductive DirectoryOp where
  | add (name : CString) (newSector : Word)
  | remove (name : CString)
  | find (name : CString)

inductive DirectoryAnswer where
  | done (ok : Bool)
  | sector (n : ℤ)
  deriving DecidableEq

abbrev NameMap := List (List UInt8 × Word)

/-- The sector of a name. -/
def NameMap.lookup (m : NameMap) (key : List UInt8) : Option Word :=
  (m.find? fun x => key = x.1).map Prod.snd

/-- The operations on a map of at most `tableSize` names. -/
def nameStep (tableSize : ℕ) (m : NameMap) : DirectoryOp → Option (DirectoryAnswer × NameMap)
  | .add name newSector =>
    if keyOf name ∈ m.map Prod.fst ∨ m.length = tableSize then some (.done false, m)
    else some (.done true, (keyOf name, newSector) :: m)
  | .remove name =>
    match m.find? fun x => keyOf name = x.1 with
    | none => some (.done false, m)
    | some x => some (.done true, m.erase x)
  | .find name => some (.sector ((m.lookup (keyOf name)).elim (-1) (·.toInt)), m)

/-- The sector that a name has after this history: that of the latest `Add` of a name with the same
first characters, unless that was removed since. -/
def latest (key : List UInt8) (found : Option Word) :
    List (DirectoryOp × DirectoryAnswer) → Option Word
  | [] => found
  | (.add name newSector, .done true) :: history =>
    latest key (if keyOf name = key then some newSector else found) history
  | (.remove name, _) :: history => latest key (if keyOf name = key then none else found) history
  | _ :: history => latest key found history

theorem nameStep_isSome (tableSize : ℕ) (m : NameMap) (op : DirectoryOp) :
    (nameStep tableSize m op).isSome := by
  cases op with
  | add name newSector =>
    simp only [nameStep]
    split <;> rfl
  | remove name =>
    simp only [nameStep]
    split <;> rfl
  | find name => rfl

theorem NameMap.lookup_eq_some_iff {m : NameMap} (h : (m.map Prod.fst).Nodup) {key : List UInt8}
    {sector : Word} : m.lookup key = some sector ↔ (key, sector) ∈ m := by
  rw [lookup, Option.map_eq_some_iff]
  constructor
  · rintro ⟨x, hfind, rfl⟩
    obtain ⟨hx, rfl⟩ := (Buckets.find?_eq_some_iff h).mp hfind
    exact hx
  · exact fun hmem => ⟨(key, sector), (Buckets.find?_eq_some_iff h).mpr ⟨hmem, rfl⟩, rfl⟩

theorem latest_cons (key : List UInt8) (found : Option Word) (e : DirectoryOp × DirectoryAnswer)
    (history : List (DirectoryOp × DirectoryAnswer)) :
    latest key found (e :: history) = latest key (latest key found [e]) history := by
  obtain ⟨op, answer⟩ := e
  cases op with
  | add name newSector =>
    cases answer with
    | done ok => cases ok <;> rfl
    | sector n => rfl
  | remove name => rfl
  | find name => rfl

/-- What one operation does to the sector of a name. -/
theorem lookup_nameStep {tableSize : ℕ} {m m' : NameMap} {op : DirectoryOp}
    {answer : DirectoryAnswer} (h : (m.map Prod.fst).Nodup)
    (hstep : nameStep tableSize m op = some (answer, m')) :
    (m'.map Prod.fst).Nodup ∧
      ∀ key, m'.lookup key = latest key (m.lookup key) [(op, answer)] := by
  cases op with
  | add name newSector =>
    simp only [nameStep] at hstep
    split at hstep
    · cases hstep
      exact ⟨h, fun key => rfl⟩
    · next hroom =>
      cases hstep
      refine ⟨List.nodup_cons.mpr ⟨(not_or.mp hroom).1, h⟩, fun key => ?_⟩
      by_cases hkey : keyOf name = key
      · rw [NameMap.lookup, List.find?_cons_of_pos (by simpa using hkey.symm)]
        exact (if_pos hkey).symm
      · rw [NameMap.lookup, List.find?_cons_of_neg (by simpa using Ne.symm hkey)]
        exact (if_neg hkey).symm
  | remove name =>
    simp only [nameStep] at hstep
    split at hstep
    · next hnone =>
      cases hstep
      refine ⟨h, fun key => ?_⟩
      by_cases hkey : keyOf name = key
      · rw [NameMap.lookup, ← hkey, hnone]
        exact (if_pos rfl).symm
      · exact (if_neg hkey).symm
    · next x hfound =>
      cases hstep
      obtain ⟨hx, hname⟩ := (Buckets.find?_eq_some_iff h).mp hfound
      have hnodup : ((m.erase x).map Prod.fst).Nodup := h.sublist (List.erase_sublist.map Prod.fst)
      have hgone : keyOf name ∉ (m.erase x).map Prod.fst := by
        have hperm := ((List.perm_cons_erase hx).map Prod.fst).nodup_iff.mp h
        exact hname ▸ (List.nodup_cons.mp hperm).1
      refine ⟨hnodup, fun key => Option.ext fun sector => ?_⟩
      rw [NameMap.lookup_eq_some_iff hnodup]
      by_cases hkey : keyOf name = key
      · refine iff_of_false (fun hmem => hgone ?_) ?_
        · rw [hkey]
          exact List.mem_map_of_mem hmem
        · simp [latest, hkey]
      · rw [latest, if_neg hkey]
        refine Iff.trans ?_ (NameMap.lookup_eq_some_iff h).symm
        refine List.mem_erase_of_ne fun heq => hkey ?_
        rw [← hname, ← heq]
  | find name =>
    cases hstep
    exact ⟨h, fun key => rfl⟩

theorem lookup_run {tableSize : ℕ} {m m' : NameMap} {ops : List DirectoryOp}
    {answers : List DirectoryAnswer} (h : (m.map Prod.fst).Nodup)
    (hrun : Simulation.run (nameStep tableSize) m ops = some (answers, m')) (key : List UInt8) :
    m'.lookup key = latest key (m.lookup key) (ops.zip answers) := by
  induction ops generalizing m answers with
  | nil =>
    cases hrun
    rfl
  | cons op ops ih =>
    obtain ⟨answer, m₁, rest, hstep, hrest, rfl⟩ := Simulation.run_cons.mp hrun
    obtain ⟨hnodup, hlookup⟩ := lookup_nameStep h hstep
    rw [ih hnodup hrest, hlookup]
    exact (latest_cons key (m.lookup key) (op, answer) (ops.zip rest)).symm

namespace Directory

variable {tableSize : ℕ} {directory : Directory tableSize} {name : CString} {i : Fin tableSize}

def step (directory : Directory tableSize) :
    DirectoryOp → Option (DirectoryAnswer × Directory tableSize)
  | .add name newSector =>
    let (ok, directory) := directory.add name newSector.toInt
    some (.done ok, directory)
  | .remove name =>
    let (ok, directory) := directory.remove name
    some (.done ok, directory)
  | .find name => some (.sector (directory.find name), directory)

/-- The names and sectors of the entries in use. -/
def contents (directory : Directory tableSize) : NameMap :=
  Slots.contents fun i => (directory.table i).slot

/-- The directory has the names of the map. -/
structure Stands (m : NameMap) (directory : Directory tableSize) : Prop where
  names : (m.map Prod.fst).Nodup
  perm : directory.contents.Perm m

/-- The entry is in use, and has the first characters of the name. -/
def Named (directory : Directory tableSize) (name : CString) (i : Fin tableSize) : Prop :=
  (directory.table i).inUse = true ∧
    strncmp (directory.table i).chars (nameBytes name) FileNameMaxLen = true

theorem named_of_findIndex (h : directory.findIndex name = some i) : directory.Named name i := by
  have hfound := List.find?_some h
  simp only [decide_eq_true_eq] at hfound
  exact hfound

theorem not_named_of_findIndex (h : directory.findIndex name = none) (i : Fin tableSize) :
    ¬directory.Named name i := fun hnamed =>
  List.find?_eq_none.mp h i (List.mem_finRange i) (decide_eq_true hnamed)

theorem Named.chars_eq (h : directory.Named name i) :
    charsOf (directory.table i).chars FileNameMaxLen = keyOf name :=
  (strncmp_iff.mp h.2).trans (charsOf_nameBytes name)

theorem slot_of_findIndex (h : directory.findIndex name = some i) :
    (directory.table i).slot = some (keyOf name, (directory.table i).sector) := by
  have hnamed := named_of_findIndex h
  rw [DirectoryEntry.slot, if_pos hnamed.1, hnamed.chars_eq]

theorem notMem_of_findIndex (h : directory.findIndex name = none) :
    keyOf name ∉ directory.contents.map Prod.fst := by
  intro hmem
  obtain ⟨⟨key, sector⟩, hmem, rfl⟩ := List.mem_map.mp hmem
  obtain ⟨i, hi⟩ := Slots.mem_contents.mp hmem
  rw [DirectoryEntry.slot] at hi
  split at hi
  · next hinUse =>
    have hkey : charsOf (directory.table i).chars FileNameMaxLen = keyOf name :=
      congrArg Prod.fst (Option.some.inj hi)
    have hcmp := strncmp_iff.mpr (hkey.trans (charsOf_nameBytes name).symm)
    exact not_named_of_findIndex h i ⟨hinUse, hcmp⟩
  · cases hi

theorem slot_added (entry : DirectoryEntry) (name : CString) (newSector : Word) :
    (added entry name newSector.toInt).slot = some (keyOf name, newSector) := by
  have hchars : charsOf (added entry name newSector.toInt).chars FileNameMaxLen = keyOf name := by
    refine (charsOf_congr fun k hk => ?_).trans (charsOf_nameBytes name)
    rw [DirectoryEntry.chars, dif_pos (Nat.lt_succ_of_lt hk)]
    exact if_pos hk
  rw [DirectoryEntry.slot, hchars]
  exact congrArg (fun w => some (keyOf name, w)) (BitVec.ofInt_toInt)

theorem slot_isSome (entry : DirectoryEntry) : entry.slot.isSome = entry.inUse := by
  rw [DirectoryEntry.slot]
  cases entry.inUse <;> rfl

namespace Stands

variable {m : NameMap}

theorem find?_eq (h : Stands m directory) (name : CString) :
    (m.find? fun x => keyOf name = x.1) =
      (directory.findIndex name).map fun i => (keyOf name, (directory.table i).sector) := by
  cases hfind : directory.findIndex name with
  | none =>
    refine List.find?_eq_none.mpr fun x hx heq => notMem_of_findIndex hfind ?_
    rw [of_decide_eq_true heq]
    exact List.mem_map_of_mem (h.perm.mem_iff.mpr hx)
  | some i =>
    refine (Buckets.find?_eq_some_iff h.names).mpr ⟨h.perm.mem_iff.mp ?_, rfl⟩
    exact Slots.mem_contents.mpr ⟨i, slot_of_findIndex hfind⟩

theorem find_eq (h : Stands m directory) (name : CString) :
    directory.find name = (m.lookup (keyOf name)).elim (-1) (·.toInt) := by
  rw [Directory.find, NameMap.lookup, h.find?_eq name]
  cases directory.findIndex name <;> rfl

theorem mem_iff (h : Stands m directory) (name : CString) :
    keyOf name ∈ m.map Prod.fst ↔ (directory.findIndex name).isSome := by
  have hfind := congrArg Option.isSome (h.find?_eq name)
  rw [Option.isSome_map] at hfind
  rw [← hfind, List.find?_isSome, List.mem_map]
  simp only [decide_eq_true_eq, eq_comm (a := keyOf name)]

theorem full_iff (h : Stands m directory) :
    m.length = tableSize ↔ ∀ i, (directory.table i).inUse = true := by
  rw [← h.perm.length_eq]
  refine Slots.length_contents_eq_iff.trans (forall_congr' fun i => ?_)
  rw [slot_isSome]

theorem add (h : Stands m directory) {newSector : Word} {j : Fin tableSize}
    (hnew : keyOf name ∉ m.map Prod.fst) (hfree : (directory.table j).inUse = false) :
    Stands ((keyOf name, newSector) :: m) ⟨Function.update directory.table j
      (added (directory.table j) name newSector.toInt)⟩ := by
  refine ⟨List.nodup_cons.mpr ⟨hnew, h.names⟩, ?_⟩
  refine (Slots.contents_fill (i := j) (x := (keyOf name, newSector)) ?_ ?_ ?_).trans
    (h.perm.cons _)
  · rw [DirectoryEntry.slot, hfree]
    rfl
  · simp only [Function.update_self, slot_added]
  · intro k hk
    simp only [Function.update_of_ne hk]

theorem remove (h : Stands m directory) (hi : directory.findIndex name = some i) :
    Stands (m.erase (keyOf name, (directory.table i).sector))
      ⟨Function.update directory.table i { directory.table i with inUse := false }⟩ := by
  have hperm : directory.contents.Perm ((keyOf name, (directory.table i).sector) ::
      Directory.contents ⟨Function.update directory.table i
        { directory.table i with inUse := false }⟩) := by
    refine Slots.contents_fill (i := i) ?_ (slot_of_findIndex hi) ?_
    · simp only [Function.update_self]
      rfl
    · intro k hk
      simp only [Function.update_of_ne hk]
  have herase := (hperm.symm.trans h.perm).erase (keyOf name, (directory.table i).sector)
  rw [List.erase_cons_head] at herase
  exact ⟨h.names.sublist (List.erase_sublist.map Prod.fst), herase⟩

end Stands

theorem simulates (tableSize : ℕ) :
    Simulation.Simulates (nameStep tableSize) (@step tableSize) Stands := by
  intro m directory op answer m' h hstep
  cases op with
  | add name newSector =>
    have hmem := h.mem_iff name
    have hfull := h.full_iff
    simp only [nameStep] at hstep
    cases hfind : directory.findIndex name with
    | some i =>
      rw [hfind] at hmem
      rw [if_pos (Or.inl (hmem.mpr rfl))] at hstep
      cases hstep
      refine ⟨directory, ?_, h⟩
      rw [step, Directory.add, hfind]
      rfl
    | none =>
      have hnew : keyOf name ∉ m.map Prod.fst := by
        rw [hmem, hfind]
        exact Bool.false_ne_true
      rcases add_cases hfind newSector.toInt with ⟨hall, hadd⟩ | ⟨j, hfree, hadd⟩
      · rw [if_pos (Or.inr (hfull.mpr hall))] at hstep
        cases hstep
        exact ⟨directory, by rw [step, hadd], h⟩
      · have hroom : m.length ≠ tableSize := fun hlength => by
          rw [hfull.mp hlength j] at hfree
          cases hfree
        rw [if_neg (not_or.mpr ⟨hnew, hroom⟩)] at hstep
        cases hstep
        exact ⟨_, by rw [step, hadd], h.add hnew hfree⟩
  | remove name =>
    have hfind := h.find?_eq name
    cases hi : directory.findIndex name with
    | none =>
      rw [hi, Option.map_none] at hfind
      simp only [nameStep, hfind] at hstep
      cases hstep
      exact ⟨directory, by rw [step, Directory.remove, hi], h⟩
    | some i =>
      rw [hi, Option.map_some] at hfind
      simp only [nameStep, hfind] at hstep
      cases hstep
      exact ⟨_, by rw [step, Directory.remove, hi], h.remove hi⟩
  | find name =>
    cases hstep
    refine ⟨directory, ?_, h⟩
    rw [step, h.find_eq]

theorem stands_new (table : Fin tableSize → DirectoryEntry) : Stands [] (new table) := by
  refine ⟨List.nodup_nil, List.perm_nil.mpr (List.eq_nil_iff_forall_not_mem.mpr fun x hx => ?_)⟩
  obtain ⟨i, hi⟩ := Slots.mem_contents.mp hx
  cases hi

/-- Two entries in use never have the same first characters. -/
theorem Stands.distinct {m : NameMap} (h : Stands m directory) {i j : Fin tableSize}
    (hi : (directory.table i).inUse = true) (hj : (directory.table j).inUse = true)
    (hsame : strncmp (directory.table i).chars (directory.table j).chars FileNameMaxLen = true) :
    i = j := by
  have hnames := (h.perm.map Prod.fst).nodup_iff.mpr h.names
  refine Slots.eq_of_nodup Prod.fst hnames (if_pos hi) (if_pos hj) ?_
  exact strncmp_iff.mp hsame

theorem Stands.findIndex_eq {m : NameMap} (h : Stands m directory) (hi : directory.Named name i) :
    directory.findIndex name = some i := by
  cases hfind : directory.findIndex name with
  | none => exact absurd hi (not_named_of_findIndex hfind i)
  | some j =>
    have hj := named_of_findIndex hfind
    rw [h.distinct hi.1 hj.1 (strncmp_iff.mpr (hi.chars_eq.trans hj.chars_eq.symm))]

theorem add_eq_false_iff (directory : Directory tableSize) (name : CString) (newSector : ℤ) :
    (directory.add name newSector).1 = false ↔
      (∃ i, directory.Named name i) ∨ ∀ i, (directory.table i).inUse = true := by
  cases hfind : directory.findIndex name with
  | some i =>
    rw [Directory.add, hfind]
    exact iff_of_true rfl (.inl ⟨i, named_of_findIndex hfind⟩)
  | none =>
    have hnone : ¬∃ i, directory.Named name i := fun ⟨i, hi⟩ => not_named_of_findIndex hfind i hi
    rw [or_iff_right hnone]
    rcases add_cases hfind newSector with ⟨hall, hadd⟩ | ⟨j, hfree, hadd⟩
    · exact iff_of_true (congrArg Prod.fst hadd) hall
    · refine iff_of_false (fun hfalse => ?_) fun hall => ?_
      · rw [hadd] at hfalse
        cases hfalse
      · rw [hall j] at hfree
        cases hfree

theorem add_of_false {newSector : ℤ} (h : (directory.add name newSector).1 = false) :
    (directory.add name newSector).2 = directory := by
  cases hfind : directory.findIndex name with
  | some i =>
    rw [Directory.add, hfind]
    rfl
  | none =>
    rcases add_cases hfind newSector with ⟨-, hadd⟩ | ⟨j, -, hadd⟩
    · rw [hadd]
    · rw [hadd] at h
      cases h

/-- Whatever is done with a directory, whatever its entries held before, it is a bounded map from
the first characters of names to sectors. -/
theorem bounded_names (tableSize : ℕ) (garbage : Fin tableSize → DirectoryEntry)
    (ops : List DirectoryOp) :
    ∃ answers m directory, Simulation.run (nameStep tableSize) [] ops = some (answers, m) ∧
      Simulation.run step (new garbage) ops = some (answers, directory) ∧
      (∀ i j, (directory.table i).inUse = true → (directory.table j).inUse = true →
        strncmp (directory.table i).chars (directory.table j).chars FileNameMaxLen = true →
        i = j) ∧
      (∀ name, directory.find name =
        (latest (keyOf name) none (ops.zip answers)).elim (-1) (·.toInt)) ∧
      (∀ name newSector, ((directory.add name newSector).1 = false ↔
          (∃ i, directory.Named name i) ∨ ∀ i, (directory.table i).inUse = true) ∧
        ((directory.add name newSector).1 = false → (directory.add name newSector).2 = directory)) ∧
      ∀ name, (∀ i, directory.Named name i → directory.remove name =
          (true, ⟨Function.update directory.table i { directory.table i with inUse := false }⟩)) ∧
        ((∀ i, ¬directory.Named name i) → directory.remove name = (false, directory)) := by
  obtain ⟨answers, m, hm⟩ := Simulation.exists_run (nameStep_isSome tableSize) [] ops
  obtain ⟨directory, hrun, h⟩ := (simulates tableSize).run (stands_new garbage) hm
  refine ⟨answers, m, directory, hm, hrun, fun i j => h.distinct, fun name => ?_,
    fun name newSector => ⟨add_eq_false_iff directory name newSector, add_of_false⟩,
    fun name => ⟨fun i hi => ?_, fun hnone => ?_⟩⟩
  · have hempty : (([] : NameMap).map Prod.fst).Nodup := List.nodup_nil
    rw [h.find_eq, lookup_run hempty hm]
    rfl
  · rw [Directory.remove, h.findIndex_eq hi]
  · cases hfind : directory.findIndex name with
    | none => rw [Directory.remove, hfind]
    | some i => exact absurd (named_of_findIndex hfind) (hnone i)

end Directory

end Nachos.Filesys

import Mathlib.Tactic
import Nachos.Library.Buckets

/-! A store of named files of fixed sizes, for a program that opens them and reads and writes
through its handles. What a byte is before it has been written is left open. -/
namespace FileStore

universe u

variable {κ β : Type u}

/-- What is known of the bytes of a file. -/
abbrev Data (β : Type u) := List (Option β)

structure Limits where
  files : ℕ
  space : ℕ
  /-- The space that a file of a size takes. -/
  need : ℤ → ℕ
  size : ℤ
  /-- No transfer may end behind it. -/
  reach : ℤ

structure Store (κ β : Type u) where
  files : List (κ × Data β)
  /-- The names of the files that are open, and the positions in them. A file that has been removed
  has no name. -/
  handles : List (Option κ × ℤ)
  distinct : (files.map Prod.fst).Nodup
  linked : ∀ h ∈ handles, ∀ name, h.1 = some name → name ∈ files.map Prod.fst

/-- The bytes of a request that are in the file. -/
def clip (length numBytes position : ℤ) : ℤ := max 0 (min numBytes (length - position))

/-- The requests that may be made. -/
def Limits.Asks (l : Limits) (length numBytes position : ℤ) : Prop :=
  numBytes ≤ 0 ∨ length ≤ position ∨ 0 ≤ position ∧ position + numBytes < l.reach

instance (l : Limits) (length numBytes position : ℤ) :
    Decidable (l.Asks length numBytes position) :=
  inferInstanceAs (Decidable (_ ∨ _))

def slice (data : Data β) (p n : ℕ) : Data β := (data.drop p).take n

/-- The `n` bytes from `p` on become those of `source`. -/
def overwrite (source : ℕ → β) (p n : ℕ) (data : Data β) : Data β :=
  data.mapIdx fun k old => if p ≤ k ∧ k < p + n then some (source (k - p)) else old

inductive Op (κ β : Type u) where
  | create (name : κ) (size : ℤ)
  | remove (name : κ)
  | openFile (name : κ)
  | close (k : ℕ)
  | seek (k : ℕ) (position : ℤ)
  | length (k : ℕ)
  | read (k : ℕ) (numBytes : ℤ)
  | readAt (k : ℕ) (numBytes position : ℤ)
  | write (k : ℕ) (source : ℕ → β) (numBytes : ℤ)
  | writeAt (k : ℕ) (source : ℕ → β) (numBytes position : ℤ)
  /-- The files stay, the handles do not. -/
  | restart

inductive Answer (β : Type u) where
  | done (ok : Bool)
  | number (n : ℤ)
  | moved (n : ℤ) (bytes : List β)
  | nothing

/-- A byte is what is known of it. -/
def Known (o : Option β) (b : β) : Prop := ∀ c, o = some c → b = c

/-- An answer that tells what is known. -/
inductive Answer.Agrees : Answer (Option β) → Answer β → Prop
  | done (ok : Bool) : Agrees (.done ok) (.done ok)
  | number (n : ℤ) : Agrees (.number n) (.number n)
  | moved {data : Data β} {bytes : List β} (n : ℤ) (h : List.Forall₂ Known data bytes) :
      Agrees (.moved n data) (.moved n bytes)
  | nothing : Agrees .nothing .nothing

namespace Store

variable (s : Store κ β)

def names : List κ := s.files.map Prod.fst

def used (l : Limits) : ℕ := (s.files.map fun f => l.need f.2.length).sum

def empty : Store κ β := ⟨[], [], List.nodup_nil, fun h hh => by cases hh⟩

def add (name : κ) (h : name ∉ s.names) (data : Data β) : Store κ β where
  files := (name, data) :: s.files
  handles := s.handles
  distinct := List.nodup_cons.mpr ⟨h, s.distinct⟩
  linked h hh g hg := List.mem_cons_of_mem _ (s.linked h hh g hg)

def attach (name : κ) (h : name ∈ s.names) : Store κ β where
  files := s.files
  handles := s.handles ++ [(some name, 0)]
  distinct := s.distinct
  linked g hg := by
    rcases List.mem_append.mp hg with hg | hg
    · exact s.linked g hg
    · rw [List.mem_singleton.mp hg]
      rintro _ ⟨⟩
      exact h

def detach (k : ℕ) : Store κ β where
  files := s.files
  handles := s.handles.eraseIdx k
  distinct := s.distinct
  linked h hh := s.linked h (List.mem_of_mem_eraseIdx hh)

def detachAll : Store κ β := { s with handles := [], linked := fun h hh => by cases hh }

theorem mem_modify {α : Type*} {f : α → α} {xs : List α} {k : ℕ} {y : α} (h : y ∈ xs.modify k f) :
    ∃ x ∈ xs, y = x ∨ y = f x := by
  obtain ⟨i, hi, rfl⟩ := List.getElem_of_mem h
  rw [List.length_modify] at hi
  refine ⟨xs[i], List.getElem_mem hi, ?_⟩
  rw [List.getElem_modify]
  split
  · exact .inr rfl
  · exact .inl rfl

def move (k : ℕ) (position : ℤ) : Store κ β where
  files := s.files
  handles := s.handles.modify k fun h => (h.1, position)
  distinct := s.distinct
  linked h hh := by
    obtain ⟨g, hg, heq | heq⟩ := mem_modify hh
    · exact heq ▸ s.linked g hg
    · exact heq ▸ s.linked g hg

variable [DecidableEq κ]

def drop (name : κ) : Store κ β where
  files := s.files.filter fun f => f.1 ≠ name
  handles := s.handles.map fun h => if h.1 = some name then (none, h.2) else h
  distinct := s.distinct.sublist (List.filter_sublist.map Prod.fst)
  linked h hh g hg := by
    obtain ⟨h', hh', rfl⟩ := List.mem_map.mp hh
    split at hg
    · cases hg
    · next hne =>
      obtain ⟨f, hf, rfl⟩ := List.mem_map.mp (s.linked h' hh' g hg)
      refine List.mem_map.mpr ⟨f, List.mem_filter.mpr ⟨hf, decide_eq_true ?_⟩, rfl⟩
      rintro rfl
      exact hne hg

theorem map_fst_put (files : List (κ × Data β)) (name : κ) (change : Data β → Data β) :
    (files.map fun f => if f.1 = name then (f.1, change f.2) else f).map Prod.fst =
      files.map Prod.fst := by
  rw [List.map_map]
  refine List.map_congr_left fun f _ => ?_
  rw [Function.comp_apply]
  split <;> rfl

def put (name : κ) (change : Data β → Data β) : Store κ β where
  files := s.files.map fun f => if f.1 = name then (f.1, change f.2) else f
  handles := s.handles
  distinct := (map_fst_put s.files name change).symm ▸ s.distinct
  linked := (map_fst_put s.files name change).symm ▸ s.linked

def data (name : κ) : Option (Data β) := (s.files.find? fun f => name = f.1).map Prod.snd

/-- The name, the position and the file of a handle. -/
def opened (k : ℕ) : Option (κ × ℤ × Data β) := do
  let (name, position) ← s.handles[k]?
  let name ← name
  let data ← s.data name
  return (name, position, data)

/-- There is no room for a file. -/
def Full (l : Limits) (size : ℤ) : Prop :=
  s.files.length = l.files ∨ l.space < s.used l + l.need size

instance (l : Limits) (size : ℤ) : Decidable (s.Full l size) := inferInstanceAs (Decidable (_ ∨ _))

end Store

open Store

/-- There is no answer to what may not be asked. -/
def step [DecidableEq κ] (l : Limits) (s : Store κ β) :
    Op κ β → Option (Answer (Option β) × Store κ β)
  | .create name size =>
    if h : name ∈ s.names ∨ s.Full l size then some (.done false, s)
    else if 0 ≤ size ∧ size ≤ l.size then
      some (.done true, s.add name (fun hname => h (.inl hname)) (List.replicate size.toNat none))
    else none
  | .remove name =>
    if name ∈ s.names then some (.done true, s.drop name) else some (.done false, s)
  | .openFile name =>
    if h : name ∈ s.names then some (.done true, s.attach name h) else some (.done false, s)
  | .close k => s.handles[k]?.map fun _ => (.nothing, s.detach k)
  | .seek k position => (s.opened k).map fun _ => (.nothing, s.move k position)
  | .length k => (s.opened k).map fun (_, _, data) => (.number data.length, s)
  | .read k numBytes => do
    let (_, position, data) ← s.opened k
    if l.Asks data.length numBytes position then
      let n := clip data.length numBytes position
      some (.moved n (slice data position.toNat n.toNat), s.move k (position + n))
    else none
  | .readAt k numBytes position => do
    let (_, _, data) ← s.opened k
    if l.Asks data.length numBytes position then
      let n := clip data.length numBytes position
      some (.moved n (slice data position.toNat n.toNat), s)
    else none
  | .write k source numBytes => do
    let (name, position, data) ← s.opened k
    if l.Asks data.length numBytes position then
      let n := clip data.length numBytes position
      some (.moved n [],
        (s.put name (overwrite source position.toNat n.toNat)).move k (position + n))
    else none
  | .writeAt k source numBytes position => do
    let (name, _, data) ← s.opened k
    if l.Asks data.length numBytes position then
      let n := clip data.length numBytes position
      some (.moved n [], s.put name (overwrite source position.toNat n.toNat))
    else none
  | .restart => some (.nothing, s.detachAll)

/-! The handles, one by one with the files that are open -/

section

variable {α δ : Type*} {R : α → δ → Prop} {as : List α} {bs : List δ} {a : α} {b : δ} {k : ℕ}

theorem forall₂_getElem? (h : List.Forall₂ R as bs) (ha : as[k]? = some a) :
    ∃ b, bs[k]? = some b ∧ R a b := by
  induction h generalizing k with
  | nil => cases ha
  | cons hR _ ih =>
    cases k with
    | zero => exact ⟨_, rfl, Option.some.inj ha ▸ hR⟩
    | succ k => exact ih ha

theorem forall₂_eraseIdx (h : List.Forall₂ R as bs) :
    List.Forall₂ R (as.eraseIdx k) (bs.eraseIdx k) := by
  induction h generalizing k with
  | nil => exact .nil
  | cons hR htail ih =>
    cases k with
    | zero => exact htail
    | succ k => exact .cons hR ih

theorem forall₂_modify (h : List.Forall₂ R as bs) {change : α → α}
    (hchange : ∀ a, as[k]? = some a → R (change a) b) :
    List.Forall₂ R (as.modify k change) (bs.set k b) := by
  induction h generalizing k with
  | nil =>
    rw [List.modify_nil, List.set_nil]
    exact .nil
  | cons hR htail ih =>
    cases k with
    | zero => exact .cons (hchange _ rfl) htail
    | succ k => exact .cons hR (ih hchange)

end

/-! Where the files are: a list of places, one for each file. -/

section

variable {γ : Type*} {P P' : γ → Data β → Prop} {places : List (κ × γ)} {files : List (κ × Data β)}
  {name : κ}

/-- Each file is at its place. -/
def Laid (P : γ → Data β → Prop) (places : List (κ × γ)) (files : List (κ × Data β)) : Prop :=
  List.Forall₂ (fun x f => x.1 = f.1 ∧ P x.2 f.2) places files

namespace Laid

theorem names (h : Laid P places files) : places.map Prod.fst = files.map Prod.fst := by
  induction h with
  | nil => rfl
  | cons hx _ ih => rw [List.map_cons, List.map_cons, hx.1, ih]

theorem mono (h : Laid P places files) (hP : ∀ x ∈ places, ∀ data, P x.2 data → P' x.2 data) :
    Laid P' places files := by
  induction h with
  | nil => exact .nil
  | cons hx _ ih =>
    refine .cons ⟨hx.1, hP _ List.mem_cons_self _ hx.2⟩ (ih fun x hx => hP x ?_)
    exact List.mem_cons_of_mem _ hx

/-- The sizes of the files, at their places. -/
theorem sum_eq (h : Laid P places files) {f : γ → ℕ} {g : Data β → ℕ}
    (hfg : ∀ c data, P c data → f c = g data) :
    (places.map fun x => f x.2).sum = (files.map fun x => g x.2).sum := by
  induction h with
  | nil => rfl
  | cons hx _ ih =>
    rw [List.map_cons, List.map_cons, List.sum_cons, List.sum_cons, hfg _ _ hx.2, ih]

variable [DecidableEq κ]

theorem filter (h : Laid P places files) (name : κ) :
    Laid P (places.filter fun x => x.1 ≠ name) (files.filter fun f => f.1 ≠ name) := by
  induction h with
  | nil => exact .nil
  | @cons x f places files hx _ ih =>
    by_cases hname : x.1 = name
    · have hname' : f.1 = name := hx.1.symm.trans hname
      rw [List.filter_cons_of_neg (by simpa using hname),
        List.filter_cons_of_neg (by simpa using hname')]
      exact ih
    · have hname' : f.1 ≠ name := fun heq => hname (hx.1.trans heq)
      rw [List.filter_cons_of_pos (by simpa using hname),
        List.filter_cons_of_pos (by simpa using hname')]
      exact .cons hx ih

/-- One of the files changes. -/
theorem change (h : Laid P places files) {change : Data β → Data β}
    (hself : ∀ x ∈ places, x.1 = name → ∀ data, P x.2 data → P' x.2 (change data))
    (hother : ∀ x ∈ places, x.1 ≠ name → ∀ data, P x.2 data → P' x.2 data) :
    Laid P' places (files.map fun f => if f.1 = name then (f.1, change f.2) else f) := by
  induction h with
  | nil => exact .nil
  | @cons x f places files hx _ ih =>
    have ih := ih (fun y hy => hself y (List.mem_cons_of_mem x hy))
      fun y hy => hother y (List.mem_cons_of_mem x hy)
    rw [List.map_cons]
    by_cases hname : f.1 = name
    · rw [if_pos hname]
      refine .cons ⟨hx.1, hself x List.mem_cons_self (hx.1.trans hname) _ hx.2⟩ ih
    · rw [if_neg hname]
      refine .cons ⟨hx.1, hother x List.mem_cons_self (fun heq => hname ?_) _ hx.2⟩ ih
      exact hx.1.symm.trans heq

/-- What a place holds is what the store has under the name. -/
theorem data_eq {s : Store κ β} (h : Laid P places s.files) {c : γ} (hc : (name, c) ∈ places) :
    ∃ data, s.data name = some data ∧ P c data := by
  obtain ⟨i, hi, hget⟩ := List.getElem_of_mem hc
  have hi' : i < s.files.length := List.Forall₂.length_eq h ▸ hi
  have hrel := List.Forall₂.get h hi hi'
  rw [List.get_eq_getElem, List.get_eq_getElem, hget] at hrel
  refine ⟨(s.files[i]).2, ?_, hrel.2⟩
  have hfind := (Buckets.find?_eq_some_iff s.distinct).mpr
    ⟨List.getElem_mem hi', hrel.1.symm⟩
  rw [Store.data, hfind]
  rfl

end Laid

end

end FileStore

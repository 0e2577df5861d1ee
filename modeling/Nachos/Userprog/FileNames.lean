import Nachos.Userprog.CallHistory

/-! The names that `Open` and `Remove` take from user memory. `Open` copies 33 characters and
`Remove` copies 32, so a longer name is not the same to both. -/
namespace Nachos

variable {W : Type}

/-- The host, with a list of the files it has unlinked, the last one first. -/
def Host.logging (host : Host W) : Host (W × List CString) where
  openFd w name creating :=
    let (fd, w') := host.openFd w.1 name creating
    (fd, w', w.2)
  close w fd :=
    let (retVal, w') := host.close w.1 fd
    (retVal, w', w.2)
  lseek w fd offset whence :=
    let (retVal, w') := host.lseek w.1 fd offset whence
    (retVal, w', w.2)
  read w fd count :=
    let (answer, w') := host.read w.1 fd count
    (answer, w', w.2)
  write w fd bytes :=
    let (retVal, w') := host.write w.1 fd bytes
    (retVal, w', w.2)
  unlink w name :=
    let (retVal, w') := host.unlink w.1 name
    (retVal, w', if retVal = 0 then name :: w.2 else w.2)
  socket w :=
    let (sockID, w') := host.socket w.1
    (sockID, w', w.2)
  connect w sockID ip port :=
    let (retVal, w') := host.connect w.1 sockID ip port
    (retVal, w', w.2)
  send w sockID bytes :=
    let (retVal, w') := host.send w.1 sockID bytes
    (retVal, w', w.2)
  recv w sockID count :=
    let (answer, w') := host.recv w.1 sockID count
    (answer, w', w.2)
  errno w := host.errno w.1
  getChar w :=
    let (ch, w') := host.getChar w.1
    (ch, w', w.2)
  putChar w ch := (host.putChar w.1 ch, w.2)
  fresh w := host.fresh w.1

namespace Descriptors

open Sys EStateM

/-- What is at the index was put there by a call of `Open` with this string. -/
def OpenedAs (i : Fin 20) (str : List UInt8) (events : List Event) : Prop :=
  ∃ m, OpenedBy i m events ∧ UserString m (m.registers 4) str

/-- A call of `Remove`, made on machine `m` with the string `str`, is in keeping with `Open`. -/
structure NamesAgree (host : Host W) (s : Traced (W × List CString)) (m : Machine)
    (str : List UInt8) : Prop where
  /-- With the file open, it returns -1 and unlinks nothing. -/
  kept : (∃ i, OpenedAs i str s.events ∧ s.table.fileSystem.openf i ≠ none) →
    Ends (scRemove host.logging) (s.table.kernel m)
      (fun _ k' => k'.machine.registers 2 = -1 ∧ k'.host.2 = s.table.host.2) fun _ _ => False
  /-- What it unlinks is what `Open` would open. -/
  same : Ends (scRemove host.logging) (s.table.kernel m)
    (fun _ k' => ∀ name, k'.host.2 = name :: s.table.host.2 →
      fileName host.logging (s.table.kernel m) = some name) fun _ _ => False

/-- `Remove` finds the name in the table, for one of the indices from 2 on. -/
def InTable (fs : FileSystem) (name : CString) : Prop :=
  ∃ i : Fin 20, 2 ≤ (i : ℕ) ∧ fs.tableDescriptor i = some name

instance (fs : FileSystem) (name : CString) : Decidable (InTable fs name) :=
  inferInstanceAs (Decidable (∃ i : Fin 20, 2 ≤ (i : ℕ) ∧ fs.tableDescriptor i = some name))

section

variable {host : Host W} {s : State W} {m : Machine} {str : List UInt8}

theorem fileName_eq {k : Kernel W} (hstr : UserString k.machine (k.machine.registers 4) str) :
    fileName host k = some (nameOf 33 hstr.2.1) := by
  have hlimit : (MaxFileLength + 1 : ℤ) = (33 : ℕ) := rfl
  have hboth := (ends_user2System_string host hlimit hstr (by decide)).and ends_name
  unfold Ends at hboth
  split at hboth
  · obtain ⟨⟨hname, -⟩, -, hfile⟩ := hboth
    rw [hfile, hname]
  · exact hboth.1.elim

theorem fileName_of_string (hstr : UserString m (m.registers 4) str) :
    fileName host (s.kernel m) = some (nameOf 33 hstr.2.1) :=
  fileName_eq (k := s.kernel m) hstr

/-- What `Remove` does, with the string cut to 32 characters. -/
theorem ends_scRemove_string (hstr : UserString m (m.registers 4) str)
    {Q : Unit → Kernel W → Prop}
    (hkept : InTable s.fileSystem (nameOf 32 hstr.2.1) →
      ∀ m' : Machine, Q () ⟨m'.finished (-1), s.fileSystem, s.host⟩)
    (hasked : ¬ InTable s.fileSystem (nameOf 32 hstr.2.1) →
      ∀ m' : Machine, Q () ⟨m'.finished
        (if (host.unlink s.host (nameOf 32 hstr.2.1)).1 = 0 then 0 else -1),
        s.fileSystem, (host.unlink s.host (nameOf 32 hstr.2.1)).2⟩) :
    Ends (scRemove host) (s.kernel m) Q fun _ _ => False := by
  simp only [scRemove, ends_bind, ends_readRegister]
  have hlimit : (MaxFileLength : ℤ) = (32 : ℕ) := rfl
  refine (ends_user2System_string host hlimit hstr (by decide)).mono ?_ fun _ _ h => h
  rintro buffer k₁ ⟨hname, hk₁, -⟩
  have hfs : k₁.fileSystem = s.fileSystem := hk₁.fileSystem
  have hhost : k₁.host = s.host := hk₁.host
  simp only [ends_fileSystem, ends_ite, ends_finish, hname, hfs, hhost]
  change if InTable s.fileSystem (nameOf 32 hstr.2.1) then _ else _
  split
  · next hin => exact hkept hin k₁.machine
  · next hout =>
    have h := hasked hout k₁.machine
    simp only [FileSystem.remove, unlink, ends_bind, ends_ask, ends_pure, hhost, hfs]
    split at h
    · next hzero =>
      rw [if_pos (by simp [hzero])]
      exact h
    · next hnonzero =>
      rw [if_neg (by simpa using hnonzero)]
      exact h

/-- A name that does not differ in its 33rd character does not differ at all. -/
theorem nameOf_eq_iff (hs : 0 ∉ str) : nameOf 32 hs = nameOf 33 hs ↔ str.length ≤ 32 := by
  constructor
  · intro h
    have hlength := congrArg (fun name : CString => name.val.length) h
    simp only [nameOf, List.length_take] at hlength
    omega
  · intro h
    apply Subtype.ext
    show str.take 32 = str.take 33
    rw [List.take_of_length_le h, List.take_of_length_le (by omega)]

end

section

variable {host : Host W} {s : Traced (W × List CString)} {m : Machine} {str : List UInt8}

/-- Next to an open file stands the name that `Open` has read for it. -/
def Named (host : Host W) (fs : FileSystem) (events : List Event) : Prop :=
  ∀ i m, OpenedBy i m events → fs.openf i ≠ none → 2 ≤ (i : ℕ) ∧
    ∃ s : State W, fs.tableDescriptor i = fileName host (s.kernel m)

theorem Named.step {host : Host W} {s s' : State W} {events : List Event} {a : Option Word}
    (h : Named host s.fileSystem events) (hs : Served host s m s' a) :
    Named host s'.fileSystem (⟨m, a⟩ :: events) := by
  intro i m' hopened hfull
  cases hs with
  | other hview hcall =>
    rcases hopened with ⟨⟨hopen, ha⟩, -⟩ | ⟨-, -, -, hopened⟩
    · exact absurd hopen (hcall i ha).1
    · have hname : s'.fileSystem.tableDescriptor = s.fileSystem.tableDescriptor := by
        have hnames := congrArg FileSystem.tableDescriptor hview
        exact hnames
      have hentry : (s'.fileSystem.openf i).map OpenFile.identity =
          (s.fileSystem.openf i).map OpenFile.identity :=
        congrFun (congrArg FileSystem.openf hview) i
      rw [hname]
      refine h i m' hopened fun hnone => hfull ?_
      rw [hnone] at hentry
      exact Option.map_eq_none_iff.mp hentry
  | @opened j name file w hcall hname hfirst hempty =>
    by_cases hij : i = j
    · subst hij
      rcases hopened with ⟨-, rfl⟩ | ⟨hnot, -⟩
      · exact ⟨hfirst, s, (Function.update_self ..).trans hname.symm⟩
      · exact absurd ⟨hcall, rfl⟩ hnot
    · rcases hopened with ⟨⟨-, ha⟩, -⟩ | ⟨-, -, -, hopened⟩
      · exact absurd (ofNat_index_inj (Option.some.inj ha)).symm hij
      · dsimp only at hfull ⊢
        rw [Function.update_of_ne hij] at hfull ⊢
        exact h i m' hopened hfull
  | @closed j w a hcall hj =>
    rcases hopened with ⟨⟨hopen, -⟩, -⟩ | ⟨-, -, hclose, hopened⟩
    · exact absurd (hopen.symm.trans hcall) (by decide)
    · have hij : i ≠ j := by
        rintro rfl
        exact hclose ⟨hcall, hj⟩
      dsimp only at hfull ⊢
      rw [Function.update_of_ne hij] at hfull ⊢
      exact h i m' hopened hfull
  | @socket j f w hcall hempty hf =>
    rcases hopened with ⟨⟨hopen, -⟩, -⟩ | ⟨-, hsocket, -, hopened⟩
    · exact absurd (hopen.symm.trans hcall) (by decide)
    · have hij : i ≠ j := by
        rintro rfl
        exact hsocket ⟨hcall, rfl⟩
      dsimp only at hfull ⊢
      rw [Function.update_of_ne hij] at hfull
      exact h i m' hopened hfull

/-- An open file under this string has its first 33 characters in the table. -/
theorem Named.inTable {host : Host W} {fs : FileSystem} {events : List Event}
    (h : Named host fs events) {i : Fin 20} (hs : 0 ∉ str) (hopened : OpenedAs i str events)
    (hfull : fs.openf i ≠ none) : InTable fs (nameOf 33 hs) := by
  obtain ⟨m, hopened, hstr⟩ := hopened
  obtain ⟨hfirst, s, hname⟩ := h i m hopened hfull
  exact ⟨i, hfirst, hname.trans (fileName_of_string hstr)⟩

theorem ne_cons_self {α : Type*} (a : α) (l : List α) : l ≠ a :: l := fun h => by
  have hlength := congrArg List.length h
  simp at hlength

/-- What is wrong with a longer name shows only when its first 32 characters are the name of a
file that can be unlinked. -/
theorem Named.agree_iff (h : Named host.logging s.table.fileSystem s.events)
    (hstr : UserString m (m.registers 4) str) : NamesAgree host s m str ↔
      str.length ≤ 32 ∨ InTable s.table.fileSystem (nameOf 32 hstr.2.1) ∨
        (host.unlink s.table.host.1 (nameOf 32 hstr.2.1)).1 ≠ 0 := by
  constructor
  · intro hagree
    by_contra hnot
    obtain ⟨hlong, hout, hunlinked⟩ := by simpa only [not_or, not_not] using hnot
    have hlog : Ends (scRemove host.logging) (s.table.kernel m)
        (fun _ k' => k'.host.2 = nameOf 32 hstr.2.1 :: s.table.host.2) fun _ _ => False := by
      refine ends_scRemove_string hstr (fun hin => absurd hin hout) fun _ m' => ?_
      exact if_pos hunlinked
    have hboth := hagree.same.and hlog
    unfold Ends at hboth
    split at hboth
    · have hname := (fileName_of_string hstr).symm.trans (hboth.1 _ hboth.2)
      exact hlong ((nameOf_eq_iff hstr.2.1).mp (Option.some.inj hname).symm)
    · exact hboth.1
  · intro hcond
    refine ⟨?_, ?_⟩
    · rintro ⟨i, hopened, hfull⟩
      refine ends_scRemove_string hstr (fun _ m' => ⟨rfl, rfl⟩) fun hout m' => ?_
      have hrefused : (host.unlink s.table.host.1 (nameOf 32 hstr.2.1)).1 ≠ 0 := by
        rcases hcond with hshort | hin | hrefused
        · have hin := h.inTable hstr.2.1 hopened hfull
          rw [← (nameOf_eq_iff hstr.2.1).mpr hshort] at hin
          exact absurd hin hout
        · exact absurd hin hout
        · exact hrefused
      exact ⟨if_neg hrefused, if_neg hrefused⟩
    · refine ends_scRemove_string hstr (fun _ m' name hlog => ?_) fun hout m' name hlog => ?_
      · exact absurd hlog (ne_cons_self _ _)
      · replace hlog : (if (host.unlink s.table.host.1 (nameOf 32 hstr.2.1)).1 = 0
          then nameOf 32 hstr.2.1 :: s.table.host.2 else s.table.host.2) = _ := hlog
        split at hlog
        · next hunlinked =>
          obtain rfl := (List.cons.inj hlog).1
          have hshort := (hcond.resolve_right fun hcond => ?_)
          · rw [(nameOf_eq_iff hstr.2.1).mpr hshort]
            exact fileName_of_string hstr
          · exact hcond.elim hout fun hrefused => hrefused hunlinked
        · exact absurd hlog (ne_cons_self _ _)

end

/-- Wherever a run has started, a call of `Remove` is in keeping with `Open` exactly if its string
is not longer than 32 characters, or the first 32 are a name in the table, or the host does not
unlink the file that has them as its name. -/
theorem names_agree_iff (host : Host W) {s₀ : State (W × List CString)}
    {s : Traced (W × List CString)} {m : Machine}
    (hr : Runs.Reach (Traced.step host.logging) (fun _ _ => True) ⟨s₀, []⟩ s)
    {str : List UInt8} (hstr : UserString m (m.registers 4) str) : NamesAgree host s m str ↔
      str.length ≤ 32 ∨ InTable s.table.fileSystem (nameOf 32 hstr.2.1) ∨
        (host.unlink s.table.host.1 (nameOf 32 hstr.2.1)).1 ≠ 0 := by
  have hnamed : Named host.logging s.table.fileSystem s.events :=
    traced_invariant hr (fun _ _ h => h.elim) fun _ _ _ _ _ h hs => h.step hs
  exact hnamed.agree_iff hstr

theorem names_agree_callWithName : ∃ s₀,
    boot SmallWorld.host.logging (⟨[nameA], fun _ => none⟩, []) (callWithName 0) = some s₀ ∧
    NamesAgree SmallWorld.host ⟨s₀, []⟩ (callWithName 5) [97] := by
  have hboots : (boot SmallWorld.host.logging (⟨[nameA], fun _ => none⟩, [])
      (callWithName 0)).isSome = true := by decide +kernel
  obtain ⟨s₀, hboot⟩ := Option.isSome_iff_exists.mp hboots
  refine ⟨s₀, hboot, ?_⟩
  exact (names_agree_iff SmallWorld.host .refl (userString_callWithName 5)).mpr
    (.inl (by decide))

/-- A string of 33 characters, and a machine about to call `Open` or `Remove` with it. -/
def longName : List UInt8 := List.replicate 33 97

def callWithLongName (code : Word) : Machine where
  registers r := if r = 2 then code else 0
  mainMemory a := if a < 33 then 97 else 0
  pageTable := some 0
  pageTableSize := 1
  tables _ := AddrSpace.tableOf 0 [0]

theorem longName_ne_zero : 0 ∉ longName := by decide

theorem userString_callWithLongName (code : Word) :
    UserString (callWithLongName code) ((callWithLongName code).registers 4) longName :=
  ⟨⟨_, mapped_onePage rfl rfl⟩, longName_ne_zero, by
    show ∀ i < 34, (callWithLongName 0).virtualByte (0 + BitVec.ofNat 32 i) =
      (longName ++ [0])[i]?
    decide +kernel⟩

/-- The file with the long name is open, and `Remove` unlinks another one. -/
theorem longName_disagrees : ∃ s₀ s,
    boot SmallWorld.host.logging
      (⟨[nameOf 33 longName_ne_zero, nameOf 32 longName_ne_zero], fun _ => none⟩, [])
      (callWithName 0) = some s₀ ∧
    Runs.Reach (Traced.step SmallWorld.host.logging) (fun _ _ => True) ⟨s₀, []⟩ s ∧
    OpenedAs 2 longName s.events ∧ s.table.fileSystem.openf 2 ≠ none ∧
    ¬ NamesAgree SmallWorld.host s (callWithLongName 5) longName := by
  have hrun : ((boot SmallWorld.host.logging
      (⟨[nameOf 33 longName_ne_zero, nameOf 32 longName_ne_zero], fun _ => none⟩, [])
      (callWithName 0)).bind fun s₀ =>
        ((Traced.step SmallWorld.host.logging ⟨s₀, []⟩ (.call (callWithLongName 6))).map fun s =>
          (answer SmallWorld.host.logging s₀ (callWithLongName 6),
            (s.table.fileSystem.openf 2).isSome,
            decide (InTable s.table.fileSystem (nameOf 32 longName_ne_zero)),
            (SmallWorld.host.unlink s.table.host.1 (nameOf 32 longName_ne_zero)).1))) =
      some (some 2, true, false, 0) := by
    decide +kernel
  obtain ⟨s₀, hboot, hrun⟩ := Option.bind_eq_some_iff.mp hrun
  obtain ⟨s, hs, hrun⟩ := Option.map_eq_some_iff.mp hrun
  obtain ⟨hanswer, hopen, hout, hunlinked⟩ := by simpa only [Prod.mk.injEq] using hrun
  have hr : Runs.Reach (Traced.step SmallWorld.host.logging) (fun _ _ => True) ⟨s₀, []⟩ s :=
    .tail .refl trivial hs
  have hnamed : Named SmallWorld.host.logging s.table.fileSystem s.events :=
    traced_invariant hr (fun _ _ h => h.elim) fun _ _ _ _ _ h hs => h.step hs
  refine ⟨s₀, s, hboot, hr, ?_, ?_, ?_⟩
  · obtain ⟨table, -, rfl⟩ := Option.map_eq_some_iff.mp hs
    exact ⟨_, .inl ⟨⟨rfl, hanswer⟩, rfl⟩, userString_callWithLongName 6⟩
  · exact Option.isSome_iff_ne_none.mp hopen
  · rw [hnamed.agree_iff (userString_callWithLongName 5)]
    rintro (hshort | hin | hrefused)
    · exact absurd hshort (by decide)
    · exact of_decide_eq_false hout hin
    · exact hrefused hunlinked

end Descriptors
end Nachos

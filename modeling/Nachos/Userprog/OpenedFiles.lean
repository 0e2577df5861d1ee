import Nachos.Userprog.DescriptorTable

/-! Which names stand in `tableDescriptor`, and what `Open` answers. The name is entered
whatever the host has answered, so both are right as long as the host can open the files that
`Open` gets to. -/
namespace Nachos

namespace Descriptors

open Sys EStateM

variable {W : Type}

/-- The entries are open, each with a descriptor of its own, and the names are theirs. -/
structure TableInv (files : W → Word → Option Target) (s : State W) : Prop where
  distinct : ∀ {i j fdType fdType' fd}, s.fileSystem.Holds i fdType fd →
    s.fileSystem.Holds j fdType' fd → i = j
  isOpen : ∀ {i fdType fd}, s.fileSystem.Holds i fdType fd → files s.host fd ≠ none
  named : ∀ {i name}, s.fileSystem.tableDescriptor i = some name →
    ∃ fd, s.fileSystem.Holds i 0 fd ∧ files s.host fd = some (.file name)

/-- A call of `Open` in state `s` has been granted: its type is 0 or 1, the host has opened the
file, and it stands in an entry that was empty. -/
def Granted (host : Host W) (s : State W) (m : Machine) (k' : Kernel W) : Prop :=
  ∃ (i : Fin 20) (name : CString), fileName host (s.kernel m) = some name ∧ 2 ≤ i.val ∧
    ((m.registers 5).toInt = 0 ∨ (m.registers 5).toInt = 1) ∧
    k'.machine.registers 2 = BitVec.ofNat 32 i ∧ (host.openFd s.host name false).1 ≠ -1 ∧
    s.fileSystem.openf i = none ∧ k'.fileSystem.openf i =
      some (OpenFile.new (host.openFd s.host name false).1 0 (m.registers 5).toInt)

/-- A call of `Open` in state `s` has been refused, for one of three reasons. -/
def OpenRefused (host : Host W) (s : State W) (m : Machine) (k' : Kernel W) : Prop :=
  k'.machine.registers 2 = -1 ∧ k'.fileSystem.openf = s.fileSystem.openf ∧
    k'.fileSystem.tableDescriptor = s.fileSystem.tableDescriptor ∧
    ((∃ name, fileName host (s.kernel m) = some name ∧ (host.openFd s.host name false).1 = -1) ∨
      ((m.registers 5).toInt ≠ 0 ∧ (m.registers 5).toInt ≠ 1) ∨
      ∀ i : Fin 20, 2 ≤ i.val → s.fileSystem.openf i ≠ none)

/-- A call of `Open` that returns has been granted or refused. -/
def HonestOpen (host : Host W) (s : State W) (m : Machine) : Prop :=
  Ends (scOpen host) (s.kernel m) (fun _ k' => Granted host s m k' ∨ OpenRefused host s m k')
    fun _ _ => True

/-- The host can open the file, if the call gets that far. -/
def OpenSucceeds (host : Host W) (s : State W) (m : Machine) : Prop :=
  ∀ name, fileName host (s.kernel m) = some name →
    (m.registers 5).toInt = 0 ∨ (m.registers 5).toInt = 1 → s.fileSystem.freeEntry 2 ≠ -1 →
    (host.openFd s.host name false).1 ≠ -1

/-- Every `Open` is such a call, and the rest of the kernel leaves the entries alone. -/
def Steady (host : Host W) (files : W → Word → Option Target) (s : State W) : Label W → Prop
  | .call m => m.registers 2 = 6 → OpenSucceeds host s m
  | .elsewhere w => ∀ i fdType fd, s.fileSystem.Holds i fdType fd → files w fd = files s.host fd

section

variable {host : Host W} {files : W → Word → Option Target} {s s' : State W} {m : Machine}
  {w : W}

/-- The host has gone on, and the entries are what they were. -/
theorem TableInv.quiet (h : TableInv files s) (hview : s'.fileSystem.view = s.fileSystem.view)
    (hfiles : ∀ i fdType fd, s.fileSystem.Holds i fdType fd →
      files s'.host fd = files s.host fd) : TableInv files s' := by
  have hopenf := congrArg FileSystem.openf hview
  refine ⟨?_, ?_, ?_⟩
  · intro i j fdType fdType' fd hi hj
    exact h.distinct (FileSystem.holds_of_view hopenf hi) (FileSystem.holds_of_view hopenf hj)
  · intro i fdType fd hi
    rw [hfiles i fdType fd (FileSystem.holds_of_view hopenf hi)]
    exact h.isOpen (FileSystem.holds_of_view hopenf hi)
  · intro i name hi
    have hnames := congrArg FileSystem.tableDescriptor hview
    obtain ⟨fd, hholds, hfile⟩ := h.named ((congrFun hnames i).symm.trans hi)
    exact ⟨fd, FileSystem.holds_of_view hopenf.symm hholds, (hfiles i 0 fd hholds).trans hfile⟩

/-- A file that has just been opened is put into an empty entry. -/
theorem TableInv.put (h : TableInv files s) {i : Fin 20} {f : OpenFile} {target : Target}
    {name : Option CString} (hfresh : files s.host f.file = none)
    (hfiles : files w = Function.update (files s.host) f.file (some target))
    (hname : ∀ n, name = some n → f.fdType = 0 ∧ target = .file n) :
    TableInv files ⟨{ s.fileSystem with
      openf := Function.update s.fileSystem.openf i (some f)
      tableDescriptor := Function.update s.fileSystem.tableDescriptor i name }, w⟩ := by
  have hne : ∀ {j fdType fd}, s.fileSystem.Holds j fdType fd → fd ≠ f.file := by
    rintro j fdType fd hj rfl
    exact h.isOpen hj hfresh
  refine ⟨?_, ?_, ?_⟩
  · intro j j' fdType fdType' fd hj hj'
    rcases FileSystem.holds_update hj with ⟨rfl, f₁, hf₁, -, hfd⟩ | ⟨-, hold⟩ <;>
      rcases FileSystem.holds_update hj' with ⟨rfl, f₂, hf₂, -, hfd'⟩ | ⟨-, hold'⟩
    · rfl
    · cases hf₁
      exact absurd hfd.symm (hne hold')
    · cases hf₂
      exact absurd hfd'.symm (hne hold)
    · exact h.distinct hold hold'
  · intro j fdType fd hj
    show files w fd ≠ none
    rw [hfiles]
    rcases FileSystem.holds_update hj with ⟨rfl, f₁, hf₁, -, rfl⟩ | ⟨-, hold⟩
    · cases hf₁
      rw [Function.update_self]
      nofun
    · rw [Function.update_of_ne (hne hold)]
      exact h.isOpen hold
  · intro j n hj
    replace hj : Function.update s.fileSystem.tableDescriptor i name j = some n := hj
    show ∃ fd, _ ∧ files w fd = _
    rw [hfiles]
    by_cases hji : j = i
    · subst hji
      rw [Function.update_self] at hj
      obtain ⟨htype, rfl⟩ := hname n hj
      exact ⟨f.file, ⟨f, Function.update_self .., htype, rfl⟩, Function.update_self ..⟩
    · rw [Function.update_of_ne hji] at hj
      obtain ⟨fd, ⟨f₀, hf₀, htype, hfd⟩, hfile⟩ := h.named hj
      refine ⟨fd, ⟨f₀, (Function.update_of_ne hji ..).trans hf₀, htype, hfd⟩, ?_⟩
      rw [Function.update_of_ne (hne ⟨f₀, hf₀, htype, hfd⟩)]
      exact hfile

/-- The file in an entry is closed. -/
theorem TableInv.take (h : TableInv files s) {i : Fin 20} {f : OpenFile}
    (hf : s.fileSystem.openf i = some f)
    (hfiles : files w = Function.update (files s.host) f.file none) :
    TableInv files ⟨{ s.fileSystem with
      openf := Function.update s.fileSystem.openf i none
      tableDescriptor := Function.update s.fileSystem.tableDescriptor i none }, w⟩ := by
  have hne : ∀ {j fdType fd}, j ≠ i → s.fileSystem.Holds j fdType fd → fd ≠ f.file := by
    rintro j fdType fd hji hj rfl
    exact hji (h.distinct hj ⟨f, hf, rfl, rfl⟩)
  have hother : ∀ {j fdType fd}, FileSystem.Holds { s.fileSystem with
      openf := Function.update s.fileSystem.openf i none
      tableDescriptor := Function.update s.fileSystem.tableDescriptor i none } j fdType fd →
      j ≠ i ∧ s.fileSystem.Holds j fdType fd := by
    intro j fdType fd hj
    rcases FileSystem.holds_update hj with ⟨-, f₁, hf₁, -⟩ | hj
    · cases hf₁
    · exact hj
  refine ⟨?_, ?_, ?_⟩
  · intro j j' fdType fdType' fd hj hj'
    exact h.distinct (hother hj).2 (hother hj').2
  · intro j fdType fd hj
    obtain ⟨hji, hj⟩ := hother hj
    show files w fd ≠ none
    rw [hfiles, Function.update_of_ne (hne hji hj)]
    exact h.isOpen hj
  · intro j n hj
    replace hj : Function.update s.fileSystem.tableDescriptor i none j = some n := hj
    by_cases hji : j = i
    · subst hji
      rw [Function.update_self] at hj
      cases hj
    · rw [Function.update_of_ne hji] at hj
      obtain ⟨fd, ⟨f₀, hf₀, htype, hfd⟩, hfile⟩ := h.named hj
      refine ⟨fd, ⟨f₀, (Function.update_of_ne hji ..).trans hf₀, htype, hfd⟩, ?_⟩
      show files w fd = _
      rw [hfiles, Function.update_of_ne (hne hji ⟨f₀, hf₀, htype, hfd⟩)]
      exact hfile

theorem TableInv.step (hposix : host.Posix files) {l : Label W} (h : TableInv files s)
    (ha : Steady host files s l) (hs : Descriptors.step host s l = some s') :
    TableInv files s' := by
  cases l with
  | elsewhere w =>
    cases hs
    exact h.quiet rfl ha
  | call m =>
    cases step_effect hs with
    | quiet hview hhost => exact h.quiet hview fun _ _ _ _ => by rw [hposix.files_eq hhost]
    | created hfd hclose => exact h.quiet rfl fun _ _ _ _ => by rw [hposix.created hfd hclose]
    | @opened i name hcall hname hfree hpermission =>
      have hfd := ha hcall name hname hpermission (by omega)
      obtain ⟨hfresh, hopened⟩ := hposix.opened hfd
      rw [if_neg hfd]
      apply h.put hfresh hopened
      rintro n ⟨rfl⟩
      exact ⟨rfl, rfl⟩
    | closed hcall hi hf hclose => exact h.take hf (hposix.close _ _ hclose)
    | noSocket hfd => exact h.quiet rfl fun _ _ _ _ => by rw [hposix.noSocket hfd]
    | socketLost hcall hfd hfull =>
      obtain ⟨hfresh, hopened⟩ := hposix.socketed hfd
      refine h.quiet rfl ?_
      intro i fdType fd hi
      show files (host.socket s.host).2 fd = _
      rw [hopened, Function.update_of_ne]
      rintro rfl
      exact h.isOpen hi hfresh
    | @socket i hcall hfd hfree =>
      obtain ⟨hfresh, hopened⟩ := hposix.socketed hfd
      -- an empty entry has no name
      have hunnamed : s.fileSystem.tableDescriptor i = none := by
        by_contra hname
        obtain ⟨name, hname⟩ := Option.ne_none_iff_exists'.mp hname
        obtain ⟨fd, ⟨f, hf, -⟩, -⟩ := h.named hname
        cases (FileSystem.freeEntry_eq_natCast hfree).2.symm.trans hf
      have hput := h.put (i := i) (f := FileSystem.openSocket (host.socket s.host).1)
        hfresh hopened (show ∀ n, none = some n → _ from nofun)
      rw [← hunnamed, Function.update_eq_self] at hput
      exact hput

/-- `Open` in the constructor, into an empty entry and without a name. -/
theorem TableInv.openFile (hposix : host.Posix files) (h : TableInv files s) {i : Fin 20}
    (hempty : s.fileSystem.openf i = none) (hunnamed : s.fileSystem.tableDescriptor i = none)
    (name : CString) (fdType : ℤ) (htype : fdType ≠ 0) :
    TableInv files ⟨{ s.fileSystem with
      openf := Function.update s.fileSystem.openf i (if (host.openFd s.host name false).1 = -1
        then none else some (OpenFile.new (host.openFd s.host name false).1 fdType 0)) },
      (host.openFd s.host name false).2⟩ := by
  by_cases hfd : (host.openFd s.host name false).1 = -1
  · rw [if_pos hfd, ← hempty, Function.update_eq_self]
    exact h.quiet rfl fun _ _ _ _ => by rw [hposix.notOpened hfd]
  · obtain ⟨hfresh, hopened⟩ := hposix.opened hfd
    have hnew : OpenFile.new (host.openFd s.host name false).1 fdType 0 =
        ⟨1, -1, -1, (host.openFd s.host name false).1⟩ := if_neg htype
    rw [if_neg hfd, hnew]
    have hput := h.put (i := i) (f := ⟨1, -1, -1, (host.openFd s.host name false).1⟩)
      hfresh hopened (show ∀ n, none = some n → _ from nofun)
    rw [← hunnamed, Function.update_eq_self] at hput
    exact hput

/-- The constructor leaves a table that is in order. -/
theorem inv_boot (hposix : host.Posix files) (hboot : boot host w m = some s) :
    TableInv files s := by
  have hnew : Ends (FileSystem.new host) ⟨m, FileSystem.blank, w⟩ _ _ := ends_new
  unfold Ends at hnew
  unfold boot at hboot
  split at hboot <;> rename_i heq <;> rw [heq] at hnew
  · cases hboot
    obtain ⟨w₁, -, rfl⟩ := hnew
    have hblank : TableInv files ⟨FileSystem.blank, w₁⟩ := by
      have hnone : ∀ i fdType fd, ¬ FileSystem.blank.Holds i fdType fd := by
        rintro i fdType fd ⟨f, hf, -⟩
        cases hf
      exact ⟨fun hi => absurd hi (hnone _ _ _), fun hi => absurd hi (hnone _ _ _), nofun⟩
    have hstdin := hblank.openFile hposix (i := 0) rfl rfl FileSystem.stdinName 2 (by decide)
    have hstdout := hstdin.openFile hposix (i := 1) rfl rfl FileSystem.stdoutName 3 (by decide)
    exact ⟨hstdout.distinct, hstdout.isOpen, hstdout.named⟩
  · cases hboot

/-- `Open` is honest exactly if the host can open the file. -/
theorem honestOpen_iff : HonestOpen host s m ↔ OpenSucceeds host s m := by
  have hends : Ends (scOpen host) (s.kernel m) _ _ := ends_scOpen
  unfold HonestOpen
  constructor
  · intro hhonest name hname hpermission hfree hfd
    have hboth := hhonest.and hends
    unfold Ends at hboth
    split at hboth
    · obtain ⟨hcases, k₁, name', hk₁, hname', rfl⟩ := hboth
      obtain ⟨i, hi⟩ := FileSystem.exists_index (range_of_freeEntry hfree)
      have hresult : afterOpen host k₁ name' (m.registers 5).toInt = _ :=
        afterOpen_granted ((congrArg (FileSystem.freeEntry · 2) hk₁.fileSystem).trans hi)
          hpermission
      rcases hcases with ⟨i', name'', hname'', -, -, -, hfd', -⟩ | ⟨hminus, -⟩
      · cases hname.symm.trans hname''
        exact hfd' hfd
      · rw [show (s.kernel m).machine = m from rfl, hresult] at hminus
        change BitVec.ofInt 32 (i : ℕ) = -1 at hminus
        have hnat := congrArg BitVec.toNat hminus
        rw [BitVec.toNat_ofInt] at hnat
        change _ = 2 ^ 32 - 1 at hnat
        omega
    · cases hname.symm.trans hboth.2.2
  · intro hsucceeds
    refine hends.mono ?_ fun _ _ _ => trivial
    rintro _ k ⟨k₁, name, hk₁, hname, rfl⟩
    have hfs : k₁.fileSystem = s.fileSystem := hk₁.fileSystem
    have hhost : k₁.host = s.host := hk₁.host
    rw [show (s.kernel m).machine = m from rfl]
    by_cases hcond : k₁.fileSystem.freeEntry 2 ≠ -1 ∧
        ((m.registers 5).toInt = 0 ∨ (m.registers 5).toInt = 1)
    · obtain ⟨i, hi⟩ := FileSystem.exists_index (range_of_freeEntry hcond.1)
      have hfd := hsucceeds name hname hcond.2 (hfs ▸ hcond.1)
      rw [afterOpen_granted hi hcond.2, hfs, hhost, if_neg hfd]
      rw [hfs] at hi
      obtain ⟨hle, hempty⟩ := FileSystem.freeEntry_eq_natCast hi
      refine .inl ⟨i, name, hname, hle, hcond.2, ?_, hfd, hempty, Function.update_self ..⟩
      exact BitVec.ofInt_natCast ..
    · rw [afterOpen_refused hcond]
      refine .inr ⟨rfl, congrArg _ hfs, congrArg _ hfs, .inr ?_⟩
      rcases not_and_or.mp hcond with hfull | hpermission
      · right
        rw [hfs] at hfull
        rcases s.fileSystem.freeEntry_cases 2 with ⟨-, hfull'⟩ | ⟨i, hi, -⟩
        · exact hfull'
        · omega
      · exact .inl (not_or.mp hpermission)

end

/-- As long as every `Open` that gets to the host is granted by it, a name stands in the table
only next to an open regular file of that name; and a call of `Open` is honest exactly if it is
such a call. -/
theorem openedFiles_named (host : Host W) (files : W → Word → Option Target)
    (hposix : host.Posix files) {w : W} {m₀ : Machine} {s₀ s : State W}
    (hboot : boot host w m₀ = some s₀)
    (hr : Runs.Reach (Descriptors.step host) (Steady host files) s₀ s) :
    (∀ i name, s.fileSystem.tableDescriptor i = some name → ∃ f, s.fileSystem.openf i = some f ∧
      f.fdType = 0 ∧ files s.host f.file = some (.file name)) ∧
    ∀ m, HonestOpen host s m ↔ OpenSucceeds host s m := by
  refine ⟨?_, fun m => honestOpen_iff⟩
  have h : TableInv files s :=
    hr.invariant (inv_boot hposix hboot) fun _ _ _ h ha hs => h.step hposix ha hs
  intro i name hname
  obtain ⟨fd, ⟨f, hf, htype, rfl⟩, hfile⟩ := h.named hname
  exact ⟨f, hf, htype, hfile⟩

theorem openedFiles_named_open : ∃ s₀ s,
    boot SmallWorld.host ⟨[nameA], fun _ => none⟩ (callWithName 0) = some s₀ ∧
    Runs.Reach (Descriptors.step SmallWorld.host) (Steady SmallWorld.host SmallWorld.descriptors)
      s₀ s ∧
    s.fileSystem.tableDescriptor 2 = some nameA ∧ (∃ f, s.fileSystem.openf 2 = some f ∧
      f.fdType = 0 ∧ s.host.descriptors f.file = some (.file nameA)) ∧
    (HonestOpen SmallWorld.host s (callWithName 6) ↔
      OpenSucceeds SmallWorld.host s (callWithName 6)) := by
  have hview : ((boot SmallWorld.host ⟨[nameA], fun _ => none⟩ (callWithName 0)).bind fun s₀ =>
      (Descriptors.step SmallWorld.host s₀ (.call (callWithName 6))).map fun s =>
        (fileName SmallWorld.host (s₀.kernel (callWithName 6)),
          (SmallWorld.host.openFd s₀.host nameA false).1, s.fileSystem.tableDescriptor 2)) =
      some (some nameA, 2, some nameA) := by
    decide +kernel
  obtain ⟨s₀, hboot, hview⟩ := Option.bind_eq_some_iff.mp hview
  obtain ⟨s, hs, hview⟩ := Option.map_eq_some_iff.mp hview
  obtain ⟨hname, hfd, hentry⟩ := by simpa only [Prod.mk.injEq] using hview
  have hallow : Steady SmallWorld.host SmallWorld.descriptors s₀ (.call (callWithName 6)) := by
    intro _ name hname' _ _
    cases hname.symm.trans hname'
    rw [hfd]
    decide
  have hr := Runs.Reach.tail .refl hallow hs
  obtain ⟨hnamed, hhonest⟩ := openedFiles_named SmallWorld.host SmallWorld.descriptors
    SmallWorld.posix hboot hr
  exact ⟨s₀, s, hboot, hr, hentry, hnamed 2 nameA hentry, hhonest _⟩

/-- The host has no file `a`: `Open("a", 0)` answers 2 all the same, and leaves the name in the
table next to an empty entry. -/
theorem openedFiles_stale : ∃ s₀ s,
    boot SmallWorld.host ⟨[], fun _ => none⟩ (callWithName 0) = some s₀ ∧
    Descriptors.step SmallWorld.host s₀ (.call (callWithName 6)) = some s ∧
    ¬ HonestOpen SmallWorld.host s₀ (callWithName 6) ∧
    s.fileSystem.tableDescriptor 2 = some nameA ∧ s.fileSystem.openf 2 = none := by
  have hview : ((boot SmallWorld.host ⟨[], fun _ => none⟩ (callWithName 0)).bind fun s₀ =>
      (Descriptors.step SmallWorld.host s₀ (.call (callWithName 6))).map fun s =>
        (fileName SmallWorld.host (s₀.kernel (callWithName 6)),
          (SmallWorld.host.openFd s₀.host nameA false).1, s.fileSystem.tableDescriptor 2,
          decide (s₀.fileSystem.freeEntry 2 ≠ -1) && (s.fileSystem.openf 2).isNone)) =
      some (some nameA, -1, some nameA, true) := by
    decide +kernel
  obtain ⟨s₀, hboot, hview⟩ := Option.bind_eq_some_iff.mp hview
  obtain ⟨s, hs, hview⟩ := Option.map_eq_some_iff.mp hview
  obtain ⟨hname, hfd, hentry, hrest⟩ := by simpa only [Prod.mk.injEq] using hview
  obtain ⟨hfree, hempty⟩ := (Bool.and_eq_true _ _).mp hrest
  refine ⟨s₀, s, hboot, hs, ?_, hentry, Option.isNone_iff_eq_none.mp hempty⟩
  rw [honestOpen_iff]
  intro hsucceeds
  exact hsucceeds nameA hname (.inl rfl) (of_decide_eq_true hfree) hfd

end Descriptors
end Nachos

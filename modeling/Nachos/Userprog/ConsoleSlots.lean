import Nachos.Userprog.DescriptorTable

/-! Descriptors 0 and 1. `Close` does not spare them and `SocketTCP` looks for an empty entry
from 0 on, while `Read` and `Write` go by the number; as long as no `Close` is called with 0
or 1, they are the console. -/
namespace Nachos.Descriptors

open Sys EStateM

variable {W : Type}

/-- No process closes a console. -/
def SparesConsoles (_ : State W) : Label W → Prop
  | .call m => m.registers 2 = 10 → (m.registers 4).toInt ≠ 0 ∧ (m.registers 4).toInt ≠ 1
  | .elsewhere _ => True

/-- `Read` on the console input. -/
def readConsole (host : Host W) (virtAddr : Word) (len : ℤ) : Sys W Unit := do
  let _ ← onFile 0 (OpenFile.getCurrentPos host)
  let buffer ← user2System host virtAddr len
  readLine host virtAddr len buffer

/-- `Write` on the console output. -/
def writeConsole (host : Host W) (virtAddr : Word) (len : ℤ) : Sys W Unit := do
  let buffer ← user2System host virtAddr len
  putString host len buffer

/-- Descriptors 0 and 1 denote the consoles of the start `s₀`. -/
structure ConsolesInPlace (host : Host W) (s₀ s : State W) : Prop where
  entries : ∀ i : Fin 20, i.val < 2 → ∃ f₀ f, s₀.fileSystem.openf i = some f₀ ∧
    s.fileSystem.openf i = some f ∧ f₀.Same f
  opens : ∀ m, Ends (scOpen host) (s.kernel m)
    (fun _ k' => k'.machine.registers 2 ≠ 0 ∧ k'.machine.registers 2 ≠ 1) fun _ _ => True
  sockets : ∀ m, Ends (scSocketTCP host) (s.kernel m)
    (fun _ k' => k'.machine.registers 2 ≠ 0 ∧ k'.machine.registers 2 ≠ 1) fun _ _ => True
  /-- `Read` on 0 and `Write` on 1 go to the console. -/
  reads : ∀ m, m.registers 6 = 0 → scRead host (s.kernel m) =
    readConsole host (m.registers 4) (m.registers 5).toInt (s.kernel m)
  writes : ∀ m, m.registers 6 = 1 → scWrite host (s.kernel m) =
    writeConsole host (m.registers 4) (m.registers 5).toInt (s.kernel m)

section

variable {host : Host W} {s₀ s s' : State W} {m m₀ : Machine} {w : W}

/-- Entries 0 and 1 hold what they held in `s₀`, and something. -/
structure Consoles (s₀ s : State W) : Prop where
  view : ∀ i : Fin 20, i.val < 2 → s.fileSystem.view.openf i = s₀.fileSystem.view.openf i
  filled : ∀ i : Fin 20, i.val < 2 → s₀.fileSystem.openf i ≠ none

theorem Consoles.ne_none (h : Consoles s₀ s) {i : Fin 20} (hi : i.val < 2) :
    s.fileSystem.openf i ≠ none := by
  intro hnone
  have hview : (s.fileSystem.openf i).map OpenFile.identity =
      (s₀.fileSystem.openf i).map OpenFile.identity := h.view i hi
  rw [hnone] at hview
  exact h.filled i hi (Option.map_eq_none_iff.mp hview.symm)

/-- An entry that is found empty is not one of these two. -/
theorem Consoles.two_le (h : Consoles s₀ s) {first : ℕ} {i : Fin 20}
    (hi : s.fileSystem.freeEntry first = (i : ℕ)) : 2 ≤ i.val := by
  by_contra hlt
  exact h.ne_none (not_le.mp hlt) (FileSystem.freeEntry_eq_natCast hi).2

theorem Consoles.update (h : Consoles s₀ s) {i : Fin 20} (hi : 2 ≤ i.val)
    {file : Option OpenFile} {tableDescriptor : Fin 20 → Option CString} {w : W} :
    Consoles s₀ ⟨{ s.fileSystem with
      openf := Function.update s.fileSystem.openf i file
      tableDescriptor := tableDescriptor }, w⟩ := by
  refine ⟨?_, h.filled⟩
  intro j hj
  rw [← h.view j hj]
  show Option.map _ (Function.update s.fileSystem.openf i file j) = _
  rw [Function.update_of_ne (by rintro rfl; omega)]
  rfl

theorem Consoles.step {l : Label W} (h : Consoles s₀ s) (ha : SparesConsoles s l)
    (hs : Descriptors.step host s l = some s') : Consoles s₀ s' := by
  cases l with
  | elsewhere w =>
    cases hs
    exact ⟨h.view, h.filled⟩
  | call m =>
    cases step_effect hs with
    | quiet hview _ =>
      refine ⟨?_, h.filled⟩
      intro i hi
      rw [hview, h.view i hi]
    | created => exact ⟨h.view, h.filled⟩
    | opened _ _ hfree _ => exact h.update (h.two_le hfree)
    | @closed i f hcall hi hf hclose =>
      obtain ⟨h0, h1⟩ := ha hcall
      apply h.update
      omega
    | noSocket => exact ⟨h.view, h.filled⟩
    | socketLost => exact ⟨h.view, h.filled⟩
    | socket _ _ hfree => exact h.update (h.two_le hfree)

/-- A descriptor from 2 on, and -1, are neither 0 nor 1. -/
theorem ne_console {i : Fin 20} (hi : 2 ≤ i.val) :
    BitVec.ofInt 32 (i : ℕ) ≠ (0 : Word) ∧ BitVec.ofInt 32 (i : ℕ) ≠ (1 : Word) := by
  constructor <;> intro heq <;> replace heq := congrArg BitVec.toNat heq <;>
    rw [BitVec.toNat_ofInt] at heq
  · change _ = 0 at heq
    omega
  · change _ = 1 at heq
    omega

theorem opens_ne_console (s : State W) (m : Machine) : Ends (scOpen host) (s.kernel m)
    (fun _ k' => k'.machine.registers 2 ≠ 0 ∧ k'.machine.registers 2 ≠ 1) fun _ _ => True := by
  refine ends_scOpen.mono ?_ fun _ _ _ => trivial
  rintro _ k ⟨k₁, name, hk₁, -, rfl⟩
  by_cases hcond : k₁.fileSystem.freeEntry 2 ≠ -1 ∧
      ((m.registers 5).toInt = 0 ∨ (m.registers 5).toInt = 1)
  · obtain ⟨i, hi⟩ := FileSystem.exists_index (range_of_freeEntry hcond.1)
    rw [show (s.kernel m).machine = m from rfl, afterOpen_granted hi hcond.2]
    exact ne_console (FileSystem.freeEntry_eq_natCast hi).1
  · rw [show (s.kernel m).machine = m from rfl, afterOpen_refused hcond]
    exact ⟨by show (-1 : Word) ≠ 0; decide, by show (-1 : Word) ≠ 1; decide⟩

theorem Consoles.sockets (h : Consoles s₀ s) (m : Machine) :
    Ends (scSocketTCP host) (s.kernel m)
    (fun _ k' => k'.machine.registers 2 ≠ 0 ∧ k'.machine.registers 2 ≠ 1) fun _ _ => True := by
  refine ends_scSocketTCP.mono ?_ fun _ _ _ => trivial
  rintro _ k rfl
  by_cases hcond : (host.socket s.host).1 = -1 ∨ s.fileSystem.freeEntry 0 = -1
  · rw [afterSocket_refused hcond]
    exact ⟨by show (-1 : Word) ≠ 0; decide, by show (-1 : Word) ≠ 1; decide⟩
  · obtain ⟨hfd, hfree⟩ := not_or.mp hcond
    obtain ⟨i, hi⟩ := FileSystem.exists_index (range_of_freeEntry hfree)
    rw [afterSocket_granted hi hfd]
    exact ne_console (h.two_le hi)

section

variable {k : Kernel W} {f : OpenFile}

theorem scRead_console (hid : k.machine.registers 6 = 0) (hf : k.fileSystem.openf 0 = some f) :
    scRead host k = readConsole host (k.machine.registers 4) (k.machine.registers 5).toInt k := by
  have hread (num : Fin NumTotalRegs) : readRegister num k = .ok (k.machine.registers num) k := rfl
  have hargument (num : Fin NumTotalRegs) :
      argument num k = .ok (k.machine.registers num).toInt k := rfl
  have hopenf : openf 0 k = .ok (k.fileSystem.openf 0) k := rfl
  simp [scRead, readConsole, bind, EStateM.bind, hread, hargument, hid, hopenf, hf]

theorem scWrite_console (hid : k.machine.registers 6 = 1) (hf : k.fileSystem.openf 1 = some f)
    (hpermission : f.permission ≠ 1) :
    scWrite host k = writeConsole host (k.machine.registers 4) (k.machine.registers 5).toInt k := by
  have hread (num : Fin NumTotalRegs) : readRegister num k = .ok (k.machine.registers num) k := rfl
  have hargument (num : Fin NumTotalRegs) :
      argument num k = .ok (k.machine.registers num).toInt k := rfl
  have hopenf : openf 1 k = .ok (k.fileSystem.openf 1) k := rfl
  have hderef : deref (some f) k = .ok f k := rfl
  simp [scWrite, writeConsole, bind, EStateM.bind, hread, hargument, hid, hopenf, hf, hderef,
    hpermission]

end

/-- What the constructor has put into entries 0 and 1. -/
theorem boot_consoles (hboot : boot host w m₀ = some s₀) {i : Fin 20} (hi : i.val < 2)
    {f : OpenFile} (hf : s₀.fileSystem.openf i = some f) : f.fdType = 1 ∧ f.permission = -1 := by
  have hnew : Ends (FileSystem.new host) ⟨m₀, FileSystem.blank, w⟩ _ _ := ends_new
  unfold Ends at hnew
  unfold boot at hboot
  have hconsole {fd : Word} {fdType : ℤ} (htype : fdType ≠ 0)
      (hfile : (if fd = -1 then none else some (OpenFile.new fd fdType 0)) = some f) :
      f.fdType = 1 ∧ f.permission = -1 := by
    split at hfile
    · cases hfile
    · cases hfile
      rw [OpenFile.new, if_neg htype]
      exact ⟨rfl, rfl⟩
  split at hboot <;> rename_i heq <;> rw [heq] at hnew
  · cases hboot
    obtain ⟨w₁, -, rfl⟩ := hnew
    have hcases : i = 0 ∨ i = 1 := by omega
    rcases hcases with rfl | rfl
    · exact hconsole (show (2 : ℤ) ≠ 0 by decide) hf
    · exact hconsole (show (3 : ℤ) ≠ 0 by decide) hf
  · cases hboot

theorem Consoles.inPlace (h : Consoles s₀ s) (hboot : boot host w m₀ = some s₀) :
    ConsolesInPlace host s₀ s := by
  have hentries : ∀ i : Fin 20, i.val < 2 → ∃ f₀ f, s₀.fileSystem.openf i = some f₀ ∧
      s.fileSystem.openf i = some f ∧ f₀.Same f := by
    intro i hi
    obtain ⟨f₀, hf₀⟩ := Option.ne_none_iff_exists'.mp (h.filled i hi)
    obtain ⟨f, hf⟩ := Option.ne_none_iff_exists'.mp (h.ne_none hi)
    have hview : (s.fileSystem.openf i).map OpenFile.identity =
        (s₀.fileSystem.openf i).map OpenFile.identity := h.view i hi
    rw [hf, hf₀] at hview
    have hsame := Option.some.inj hview
    refine ⟨f₀, f, hf₀, hf, ?_⟩
    calc f = { f.identity with currentOffset := f.currentOffset } := rfl
      _ = { f₀.identity with currentOffset := f.currentOffset } := by rw [hsame]
  refine ⟨hentries, opens_ne_console s, h.sockets, ?_, ?_⟩
  · intro m hm
    obtain ⟨-, f, -, hf, -⟩ := hentries 0 (by decide)
    exact scRead_console hm hf
  · intro m hm
    obtain ⟨f₀, f, hf₀, hf, hsame⟩ := hentries 1 (by decide)
    apply scWrite_console hm hf
    rw [hsame, show ({ f₀ with currentOffset := f.currentOffset } : OpenFile).permission =
      f₀.permission from rfl, (boot_consoles hboot (by decide) hf₀).2]
    decide

end

/-- Descriptors 0 and 1 denote the console in every run in which no process closes them,
provided that the constructor could open both files. -/
theorem consoles_inPlace (host : Host W) {w : W} {m₀ : Machine} {s₀ s : State W}
    (hboot : boot host w m₀ = some s₀)
    (hopened : ∀ i : Fin 20, i.val < 2 → s₀.fileSystem.openf i ≠ none)
    (hr : Runs.Reach (Descriptors.step host) SparesConsoles s₀ s) :
    ConsolesInPlace host s₀ s := by
  have h : Consoles s₀ s :=
    hr.invariant ⟨fun _ _ => rfl, hopened⟩ fun _ _ _ h ha hs => h.step ha hs
  exact h.inPlace hboot

/-- A process opens the file `a` and a socket. -/
def openAndSocket : List (Label SmallWorld) := [.call (callWithName 6), .call (callWithName 99)]

theorem filled_of_isSome {fs : FileSystem} (h0 : (fs.openf 0).isSome)
    (h1 : (fs.openf 1).isSome) : ∀ i : Fin 20, i.val < 2 → fs.openf i ≠ none := by
  intro i hi
  have hcases : i = 0 ∨ i = 1 := by omega
  rcases hcases with rfl | rfl
  · exact Option.isSome_iff_ne_none.mp h0
  · exact Option.isSome_iff_ne_none.mp h1

theorem consoles_inPlace_openAndSocket : ∃ s₀ s,
    boot SmallWorld.host ⟨[nameA], fun _ => none⟩ (callWithName 0) = some s₀ ∧
    Runs.exec (Descriptors.step SmallWorld.host) s₀ openAndSocket = some s ∧
    (s.fileSystem.openf 3).isSome ∧ ConsolesInPlace SmallWorld.host s₀ s := by
  have hview : ((boot SmallWorld.host ⟨[nameA], fun _ => none⟩ (callWithName 0)).bind fun s₀ =>
      (Runs.exec (Descriptors.step SmallWorld.host) s₀ openAndSocket).map fun s =>
        ((s₀.fileSystem.openf 0).isSome, (s₀.fileSystem.openf 1).isSome,
          (s.fileSystem.openf 3).isSome)) = some (true, true, true) := by
    decide +kernel
  obtain ⟨s₀, hboot, hview⟩ := Option.bind_eq_some_iff.mp hview
  obtain ⟨s, hs, hview⟩ := Option.map_eq_some_iff.mp hview
  obtain ⟨h0, h1, h3⟩ := by simpa only [Prod.mk.injEq] using hview
  refine ⟨s₀, s, hboot, hs, h3, consoles_inPlace _ hboot (filled_of_isSome h0 h1)
    (Runs.reach_of_exec_allowed hs ?_)⟩
  intro u l hl
  rcases List.mem_pair.mp hl with rfl | rfl <;> intro hcall <;> cases hcall

/-- A process closes descriptor 0, and the next socket gets it. -/
theorem consoles_closed : ∃ s₀ s,
    boot SmallWorld.host ⟨[], fun _ => none⟩ (callWithName 0) = some s₀ ∧
    (∀ i : Fin 20, i.val < 2 → s₀.fileSystem.openf i ≠ none) ∧
    Descriptors.step SmallWorld.host s₀ (.call (callWithName 10)) = some s ∧
    s.fileSystem.openf 0 = none ∧
    (afterSocket SmallWorld.host (s.kernel (callWithName 99))).machine.registers 2 = 0 ∧
    ¬ ConsolesInPlace SmallWorld.host s₀ s := by
  have hview : ((boot SmallWorld.host ⟨[], fun _ => none⟩ (callWithName 0)).bind fun s₀ =>
      (Descriptors.step SmallWorld.host s₀ (.call (callWithName 10))).map fun s =>
        ((s₀.fileSystem.openf 0).isSome, (s₀.fileSystem.openf 1).isSome,
          (s.fileSystem.openf 0).isNone,
          (afterSocket SmallWorld.host (s.kernel (callWithName 99))).machine.registers 2)) =
      some (true, true, true, 0) := by
    decide +kernel
  obtain ⟨s₀, hboot, hview⟩ := Option.bind_eq_some_iff.mp hview
  obtain ⟨s, hs, hview⟩ := Option.map_eq_some_iff.mp hview
  obtain ⟨h0, h1, hempty, hresult⟩ := by simpa only [Prod.mk.injEq] using hview
  rw [Option.isNone_iff_eq_none] at hempty
  refine ⟨s₀, s, hboot, filled_of_isSome h0 h1, hs, hempty, hresult, ?_⟩
  intro hinPlace
  obtain ⟨f₀, f, -, hf, -⟩ := hinPlace.entries 0 (by decide)
  cases hempty.symm.trans hf

end Nachos.Descriptors

import Nachos.Userprog.DescriptorTable
import Nachos.Userprog.UserBuffer

/-! Runs of the table of open files that remember which system calls have been made and what each
of them has answered. -/
namespace Nachos.Descriptors

open Sys EStateM

variable {W : Type}

/-- A system call, with what it has left in register 2 if it has returned. -/
structure Event where
  machine : Machine
  answer : Option Word

structure Traced (W : Type) where
  table : State W
  /-- The last call comes first. -/
  events : List Event

def answer (host : Host W) (s : State W) (m : Machine) : Option Word :=
  match exceptionHandler host .syscallException (s.kernel m) with
  | .ok _ k => some (k.machine.registers 2)
  | .error _ _ => none

def Traced.step (host : Host W) (s : Traced W) : Label W → Option (Traced W)
  | .call m => (Descriptors.step host s.table (.call m)).map fun table =>
      ⟨table, ⟨m, answer host s.table m⟩ :: s.events⟩
  | .elsewhere w => some { s with table := { s.table with host := w } }

namespace Event

variable (e : Event) (i : Fin 20)

/-- `Open` has answered with this index, and `SocketTCP` has. -/
def Opens : Prop := e.machine.registers 2 = 6 ∧ e.answer = some (BitVec.ofNat 32 i)

def MakesSocket : Prop := e.machine.registers 2 = 99 ∧ e.answer = some (BitVec.ofNat 32 i)

/-- `Close` has been called with this index. -/
def Closes : Prop := e.machine.registers 2 = 10 ∧ (e.machine.registers 4).toInt = (i : ℕ)

end Event

/-- `SocketTCP` has returned the index, and it has not been closed since. -/
def SocketOpen (i : Fin 20) : List Event → Prop
  | [] => False
  | e :: events => e.MakesSocket i ∨ ¬ e.Closes i ∧ SocketOpen i events

/-- What is at the index was put there by `Open`, called on this machine. -/
def OpenedBy (i : Fin 20) (m : Machine) : List Event → Prop
  | [] => False
  | e :: events => e.Opens i ∧ e.machine = m ∨
    ¬ e.Opens i ∧ ¬ e.MakesSocket i ∧ ¬ e.Closes i ∧ OpenedBy i m events

/-- What a system call does to the table, with its answer. -/
inductive Served (host : Host W) (s : State W) (m : Machine) : State W → Option Word → Prop
  | other {s' : State W} {a : Option Word} (hview : s'.fileSystem.view = s.fileSystem.view)
      (hcall : ∀ i : Fin 20, a = some (BitVec.ofNat 32 i) →
        m.registers 2 ≠ 6 ∧ m.registers 2 ≠ 99) : Served host s m s' a
  | opened {i : Fin 20} {name : CString} {file : Option OpenFile} {w : W}
      (hcall : m.registers 2 = 6) (hname : fileName host (s.kernel m) = some name)
      (hfirst : 2 ≤ (i : ℕ)) (hempty : s.fileSystem.openf i = none) :
      Served host s m ⟨{ s.fileSystem with
        openf := Function.update s.fileSystem.openf i file
        tableDescriptor := Function.update s.fileSystem.tableDescriptor i (some name) }, w⟩
        (some (BitVec.ofNat 32 i))
  | closed {i : Fin 20} {w : W} {a : Option Word} (hcall : m.registers 2 = 10)
      (hi : (m.registers 4).toInt = (i : ℕ)) :
      Served host s m ⟨{ s.fileSystem with
        openf := Function.update s.fileSystem.openf i none
        tableDescriptor := Function.update s.fileSystem.tableDescriptor i none }, w⟩ a
  | socket {i : Fin 20} {f : OpenFile} {w : W} (hcall : m.registers 2 = 99)
      (hempty : s.fileSystem.openf i = none) (hf : f.fdType = 1) :
      Served host s m ⟨{ s.fileSystem with
        openf := Function.update s.fileSystem.openf i (some f) }, w⟩ (some (BitVec.ofNat 32 i))

section

variable {host : Host W} {s s' : State W} {m : Machine}

theorem ofNat_index_inj {i j : Fin 20} (h : BitVec.ofNat 32 i = BitVec.ofNat 32 j) : i = j := by
  have hnat := congrArg BitVec.toNat h
  rw [BitVec.toNat_ofNat, BitVec.toNat_ofNat] at hnat
  omega

theorem neg_one_ne_index (i : Fin 20) : (-1 : Word) ≠ BitVec.ofNat 32 i := by
  intro h
  have hnat := congrArg BitVec.toNat h
  rw [BitVec.toNat_ofNat] at hnat
  change 2 ^ 32 - 1 = _ at hnat
  omega

/-- A call that answers -1 has returned no index. -/
theorem refused_ne_index (i : Fin 20) {P : Prop} (h : some (-1 : Word) = some (BitVec.ofNat 32 i)) :
    P := absurd (Option.some.inj h) (neg_one_ne_index i)

theorem of_handler {P : State W → Option Word → Prop}
    (h : Ends (exceptionHandler host .syscallException) (s.kernel m)
      (fun _ k => P ⟨k.fileSystem, k.host⟩ (some (k.machine.registers 2)))
      fun stop k => ∀ which, stop = .trap which → P ⟨k.fileSystem, k.host⟩ none)
    (hs : step host s (.call m) = some s') : P s' (answer host s m) := by
  unfold Ends at h
  unfold step at hs
  unfold answer
  dsimp only at hs
  split at hs <;> rename_i heq <;> rw [heq] at h ⊢
  · cases hs
    exact h
  · cases hs
    exact h _ rfl
  · cases hs

theorem served_open (hcall : m.registers 2 = 6) (hs : step host s (.call m) = some s') :
    Served host s m s' (answer host s m) := by
  refine of_handler (P := Served host s m) ?_ hs
  show Ends (syscall host (m.registers 2).toNat) _ _ _
  rw [hcall]
  refine (ends_scOpen (k := s.kernel m)).bind ?_ ?_
  · rintro _ k ⟨k₁, name, hk₁, hname, rfl⟩
    have hfs : k₁.fileSystem = s.fileSystem := hk₁.fileSystem
    rw [show (s.kernel m).machine = m from rfl, ends_pure]
    by_cases hcond : k₁.fileSystem.freeEntry 2 ≠ -1 ∧
        ((m.registers 5).toInt = 0 ∨ (m.registers 5).toInt = 1)
    · obtain ⟨i, hi⟩ := FileSystem.exists_index (range_of_freeEntry hcond.1)
      rw [afterOpen_granted hi hcond.2, hfs]
      rw [hfs] at hi
      obtain ⟨hfirst, hempty⟩ := FileSystem.freeEntry_eq_natCast hi
      exact .opened hcall hname hfirst hempty
    · rw [afterOpen_refused hcond]
      exact .other (congrArg _ hfs) fun i h => refused_ne_index i h
  · rintro stop k ⟨htrapped, -⟩ which rfl
    obtain ⟨k₁, hk₁, hfs, -⟩ := htrapped which rfl
    exact .other ((congrArg _ hfs).trans hk₁.view) fun i h => by cases h

theorem served_socket (hcall : m.registers 2 = 99) (hs : step host s (.call m) = some s') :
    Served host s m s' (answer host s m) := by
  refine of_handler (P := Served host s m) ?_ hs
  show Ends (syscall host (m.registers 2).toNat) _ _ _
  rw [hcall]
  refine (ends_scSocketTCP (k := s.kernel m)).bind ?_ fun _ _ h => h.elim
  rintro _ k rfl
  rw [ends_pure]
  by_cases hcond : (host.socket s.host).1 = -1 ∨ s.fileSystem.freeEntry 0 = -1
  · rw [afterSocket_refused hcond]
    exact .other rfl fun i h => refused_ne_index i h
  · obtain ⟨hfd, hfree⟩ := not_or.mp hcond
    obtain ⟨i, hi⟩ := FileSystem.exists_index (range_of_freeEntry hfree)
    rw [afterSocket_granted hi hfd]
    exact .socket hcall (FileSystem.freeEntry_eq_natCast hi).2 rfl

/-- Every call that does not end the kernel serves its process in one of these ways. -/
theorem served (hs : step host s (.call m) = some s') :
    Served host s m s' (answer host s m) := by
  by_cases hopen : m.registers 2 = 6
  · exact served_open hopen hs
  by_cases hsocket : m.registers 2 = 99
  · exact served_socket hsocket hs
  cases step_effect hs with
  | quiet hview _ => exact .other hview fun _ _ => ⟨hopen, hsocket⟩
  | created => exact .other rfl fun _ _ => ⟨hopen, hsocket⟩
  | opened hcall => exact absurd hcall hopen
  | closed hcall hi => exact .closed hcall hi
  | noSocket => exact .other rfl fun _ _ => ⟨hopen, hsocket⟩
  | socketLost hcall => exact absurd hcall hsocket
  | socket hcall => exact absurd hcall hsocket

end

/-- An invariant of the table with its history: it holds at the start, and every way to serve a
call keeps it. -/
theorem traced_invariant {host : Host W} {allow : Traced W → Label W → Prop}
    {P : FileSystem → List Event → Prop} {s t : Traced W}
    (hr : Runs.Reach (Traced.step host) allow s t) (h0 : P s.table.fileSystem s.events)
    (hstep : ∀ (u : State W) events m u' a, P u.fileSystem events → Served host u m u' a →
      P u'.fileSystem (⟨m, a⟩ :: events)) : P t.table.fileSystem t.events := by
  refine hr.invariant (P := fun u => P u.table.fileSystem u.events) h0 ?_
  intro u l u' h _ hs
  cases l with
  | elsewhere w =>
    cases hs
    exact h
  | call m =>
    obtain ⟨table, htable, rfl⟩ := Option.map_eq_some_iff.mp hs
    exact hstep _ _ _ _ _ h (served htable)

/-- A machine with one page of memory. -/
theorem mapped_onePage {m : Machine} (htable : m.table = some (AddrSpace.tableOf 0 [0]))
    (hsize : m.pageTableSize = 1) : m.Mapped (AddrSpace.tableOf 0 [0]) :=
  Machine.mapped_tableOf (List.nodup_singleton 0) (by decide) htable hsize

theorem hasBuffer_onePage {m : Machine} (htable : m.table = some (AddrSpace.tableOf 0 [0]))
    (hsize : m.pageTableSize = 1) {v : Word} {n : ℕ} (hfits : v.toNat + n ≤ PageSize) :
    m.HasBuffer v n where
  mapped := ⟨_, mapped_onePage htable hsize⟩
  writable i hi := by
    have hpage : (v + BitVec.ofNat 32 i).toNat < PageSize := by
      rw [BitVec.toNat_add, BitVec.toNat_ofNat]
      simp only [PageSize] at *
      omega
    refine ⟨_, (v + BitVec.ofNat 32 i).toNat, AddrSpace.freshEntry 0 0, htable, ?_⟩
    exact {
      aligned := rfl
      inTable := by rw [hsize, Nat.div_eq_of_lt hpage]; exact Nat.zero_lt_one
      entry_eq := by rw [Nat.div_eq_of_lt hpage]; rfl
      valid := rfl
      writable := rfl
      inMemory := by decide
      physAddr_eq := by
        show _ = 0 * PageSize + _
        rw [Nat.zero_mul, Nat.zero_add, Nat.mod_eq_of_lt hpage]
      fits := hpage.trans (by decide) }

theorem userString_callWithName (code : Word) :
    UserString (callWithName code) ((callWithName code).registers 4) [97] :=
  ⟨⟨_, mapped_onePage rfl rfl⟩, by decide, by
    show ∀ i < 2, (callWithName 0).virtualByte (0 + BitVec.ofNat 32 i) = [97, 0][i]?
    decide⟩

end Nachos.Descriptors

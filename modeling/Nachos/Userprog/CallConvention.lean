import Nachos.Threads.Scheduler
import Nachos.Userprog.DescriptorTable

/-! How system calls come back. Between two pieces of a handler, and while the process table or
the table of semaphores works on a request, the thread can be switched out and other processes
use the same registers. What it finds when it runs again is what it left. -/
namespace Nachos

open Sys

variable {W α β : Type}

/-- What the thread finds after a point where it can lose the processor: everything as it was,
or, if it has been switched out, the machine as the scheduler restores it. The others may have
done anything to files and to the host. -/
def Interlude (k k' : Kernel W) : Prop :=
  k' = k ∨ ∃ (boot s s₁ s₂ : Scheduler.Kernel) (space : AddrSpace.Members) (next : ThreadId),
    Scheduler.Booted boot ∧ Runs.Reach Scheduler.step (fun _ _ => True) boot s ∧
    s.machine = k.machine ∧ s.currentSpace = some space ∧
    Scheduler.step s (.run next false) = some s₁ ∧
    Runs.Reach Scheduler.step (Scheduler.Away s.currentThread) s₁ s₂ ∧
    s₂.currentThread = s.currentThread ∧ k'.machine = s₂.machine

theorem Interlude.registers {k k' : Kernel W} (h : Interlude k k') :
    k'.machine.registers = k.machine.registers := by
  rcases h with rfl |
    ⟨boot, s, s₁, s₂, space, next, hboot, hrun, hs, hspace, hout, haway, hback, hk'⟩
  · rfl
  · rw [hk', ← hs]
    exact Scheduler.registers_restored hboot hrun hspace hout haway hback

namespace Sys

/-- The pieces in order, with something in between. -/
inductive Cut.Runs (host : Host W) : Cut W α → Kernel W → α → Kernel W → Prop
  | ret {a : α} {k : Kernel W} : Runs host (.ret a) k a k
  | piece {β : Type} {x : Piece W β} {f : β → Cut W α} {b : β} {a : α} {k k₁ k₂ k' : Kernel W}
      (hx : x.code host k = .ok b k₁) (hi : Interlude k₁ k₂) (h : Runs host (f b) k₂ a k') :
      Runs host (.piece x f) k a k'
  | getChar {f : UInt8 → Cut W α} {a : α} {k k₂ k' : Kernel W}
      (hi : Interlude { k with host := (host.getChar k.host).2 } k₂)
      (h : Runs host (f (host.getChar k.host).1) k₂ a k') : Runs host (.getChar f) k a k'
  | putChar {ch : UInt8} {f : Unit → Cut W α} {a : α} {k k₂ k' : Kernel W}
      (hi : Interlude { k with host := host.putChar k.host ch } k₂)
      (h : Runs host (f ()) k₂ a k') : Runs host (.putChar ch f) k a k'

/-- The last step of the handlers that return to the user program themselves. -/
def conclude : Word ⊕ Request → Sys W Request
  | .inl value => do
    finish value
    return .resume
  | .inr request => return request

/-- The rest of the handler, once the rest of the kernel has answered. -/
def afterRequest (answer : ℤ) : Request → Sys W Unit
  | .execUpdate _ | .execV _ => if answer < 0 then finish (-1) else finish (BitVec.ofInt 32 answer)
  | .joinUpdate _ | .createSemaphore _ _ | .wait _ | .signal _ => finish (BitVec.ofInt 32 answer)
  | .exitUpdate _ => increasePC
  | .resume | .halt => pure ()
  | .handleNonSyscallException _ => throw .abort

/-- What the handler makes of the answer. -/
def result (answer : ℤ) : Request → Word
  | .execUpdate _ | .execV _ => if answer < 0 then -1 else BitVec.ofInt 32 answer
  | _ => BitVec.ofInt 32 answer

/-- What `ExceptionHandler` does for the system call `code`, up to its result or its request,
cut at every point where it can lose the processor. It does not look at register 2. -/
structure IsBody (code : ℕ) (body : Cut W (Word ⊕ Request)) : Prop where
  handler : ∀ host k, (k.machine.registers 2).toNat = code →
    exceptionHandler host .syscallException k = (body.whole host >>= conclude) k
  oblivious : ∀ host k r k' value, body.whole host k = .ok r k' →
    body.whole host (k.withResult value) = .ok r (k'.withResult value)

/-- The call made in `k` is back in the user program, in `k'` and with this result. -/
inductive Returned (host : Host W) (body : Cut W (Word ⊕ Request)) (k : Kernel W) (value : Word)
    (k' : Kernel W) : Prop
  | own {k₁ : Kernel W} (h : body.Runs host k (.inl value) k₁) (hk' : finish value k₁ = .ok () k')
  | answered {request : Request} {answer : ℤ} {k₁ k₂ : Kernel W}
      (h : body.Runs host k (.inr request) k₁) (hi : Interlude k₁ k₂)
      (hvalue : value = result answer request) (hk' : afterRequest answer request k₂ = .ok () k')

end Sys

/-- The convention of the stubs in `start.S`. -/
structure Machine.Convention (m m' : Machine) (value : Word) : Prop where
  pc : m'.registers PCReg = m.registers PCReg + 4
  nextPC : m'.registers NextPCReg = m.registers PCReg + 8
  prevPC : m'.registers PrevPCReg = m.registers PCReg
  result : m'.registers 2 = value
  others : ∀ r, r ∉ [2, PCReg, NextPCReg, PrevPCReg] → m'.registers r = m.registers r

section

variable {host : Host W} {k k₁ k' : Kernel W} {a : α}

theorem Sys.Cut.Runs.registers {p : Cut W α} (h : p.Runs host k a k') :
    k'.machine.registers = k.machine.registers := by
  induction h with
  | ret => rfl
  | @piece β x f b a k k₁ k₂ k' hx hi _ ih =>
    obtain ⟨hregisters, -⟩ := x.silent host k b k₁ hx
    rw [ih, hi.registers, hregisters]
  | getChar hi _ ih => rw [ih, hi.registers]
  | putChar hi _ ih => rw [ih, hi.registers]

theorem Sys.Cut.Runs.of_bind {p : Cut W α} {g : α → Cut W β} {b : β}
    (h : (p.bind g).Runs host k b k') : ∃ a k₁, p.Runs host k a k₁ ∧ (g a).Runs host k₁ b k' := by
  induction p generalizing k with
  | ret a => exact ⟨a, k, .ret, h⟩
  | piece x f ih =>
    cases h with
    | piece hx hi h =>
      obtain ⟨a, k₁, hp, hg⟩ := ih _ h
      exact ⟨a, k₁, .piece hx hi hp, hg⟩
  | getChar f ih =>
    cases h with
    | getChar hi h =>
      obtain ⟨a, k₁, hp, hg⟩ := ih _ h
      exact ⟨a, k₁, .getChar hi hp, hg⟩
  | putChar ch f ih =>
    cases h with
    | putChar hi h =>
      obtain ⟨a, k₁, hp, hg⟩ := ih _ h
      exact ⟨a, k₁, .putChar hi hp, hg⟩

/-- The run in which the thread is never switched out. -/
theorem Sys.Cut.Runs.of_whole {p : Cut W α} (h : p.whole host k = .ok a k') :
    p.Runs host k a k' := by
  induction p generalizing k with
  | ret b =>
    cases h
    exact .ret
  | piece x f ih =>
    obtain ⟨b, k₁, hx, hrest⟩ := EStateM.bind_eq_ok_iff.mp h
    exact .piece hx (.inl rfl) (ih b hrest)
  | getChar f ih => exact .getChar (.inl rfl) (ih _ h)
  | putChar ch f ih => exact .putChar (.inl rfl) (ih _ h)

theorem Machine.Convention.congr {m m₁ m' : Machine} {value : Word}
    (h : m₁.Convention m' value) (hregisters : m₁.registers = m.registers) :
    m.Convention m' value :=
  ⟨hregisters ▸ h.pc, hregisters ▸ h.nextPC, hregisters ▸ h.prevPC, h.result,
    fun r hr => hregisters ▸ h.others r hr⟩

/-- A result written over the registers of the trap. -/
theorem Machine.convention_finished {m m₁ : Machine} (h : m₁.registers = m.registers)
    (value : Word) : m.Convention (m₁.finished value) value := by
  constructor
  case pc => simp [Machine.finished, Machine.advanced, h, PCReg, NextPCReg, PrevPCReg]
  case nextPC =>
    simp only [Machine.finished, Machine.advanced, h, Function.update_self]
    simp [PCReg, PrevPCReg, BitVec.add_assoc]
  case prevPC => simp [Machine.finished, Machine.advanced, h, PCReg, NextPCReg, PrevPCReg]
  case result => simp [Machine.finished, Machine.advanced, PCReg, NextPCReg, PrevPCReg]
  case others =>
    intro r hr
    simp only [List.mem_cons, List.not_mem_nil, or_false, not_or] at hr
    simp [Machine.finished, Machine.advanced, hr, h]

/-- However the call comes back, its result is in place. -/
def Sys.Conventional (body : Cut W (Word ⊕ Request)) : Prop :=
  ∀ host k value k', Returned host body k value k' → k.machine.Convention k'.machine value

/-- The call has a body that comes back as it should. -/
def Sys.HasBody (x : Host W → Sys W Request) : Prop :=
  ∃ body : Cut W (Word ⊕ Request), (∀ host, x host = body.whole host >>= conclude) ∧
    Conventional body

theorem Sys.HasBody.resuming {C : Prop} {x : Host W → Sys W Unit} (hx : Returning C x) :
    HasBody fun host => Sys.resuming (x host) := by
  obtain ⟨p, hp, -⟩ := hx
  refine ⟨p.bind fun value => .ret (.inl value), fun host => ?_, ?_⟩
  · have hwhole : (x host : Sys W Unit) = p.whole host >>= finish := (hp host).symm
    show (x host >>= fun _ => (return .resume : Sys W Request)) = _
    rw [hwhole, Cut.whole_bind, bind_assoc, bind_assoc]
    rfl
  · rintro host k value k' (⟨h, hk'⟩ | ⟨h, -, -, -⟩) <;> obtain ⟨a, k₁, hruns, hret⟩ := h.of_bind
    · cases hret
      cases hk'
      exact Machine.convention_finished hruns.registers value
    · cases hret

/-- After such a request the handler writes its result. -/
def Sys.Answerable (request : Request) : Prop :=
  ∀ answer, (afterRequest answer request : Sys W Unit) = finish (result answer request)

theorem Sys.HasBody.request {request : Request} (h : Answerable (W := W) request) :
    HasBody fun _ : Host W => (pure request : Sys W Request) := by
  refine ⟨.ret (.inr request), fun _ => rfl, ?_⟩
  rintro host k value k' (⟨hruns, -⟩ | ⟨hruns, hi, rfl, hk'⟩)
  · cases hruns
  · cases hruns
    rw [h] at hk'
    cases hk'
    exact Machine.convention_finished hi.registers _

theorem Sys.HasBody.stopping (stop : Stop) :
    HasBody fun _ : Host W => (throw stop : Sys W Request) := by
  let stopping : Piece W (Word ⊕ Request) :=
    ⟨fun _ => throw stop, fun _ _ _ => rfl, fun _ => .throw _⟩
  refine ⟨.piece stopping .ret, fun _ => rfl, ?_⟩
  rintro host k value k' (⟨h, -⟩ | ⟨h, -, -, -⟩) <;> cases h with
  | piece hx hi h => cases hx

theorem Sys.HasBody.bind {C : Prop} {x : Host W → Sys W α} {f : Host W → α → Sys W Request}
    (hx : Interruptible C x) (hf : ∀ a, HasBody fun host => f host a) :
    HasBody fun host => x host >>= f host := by
  obtain ⟨p, hp, -⟩ := hx
  choose q hq hconventional using hf
  refine ⟨p.bind q, fun host => ?_, ?_⟩
  · have hrest : f host = fun a => (q a).whole host >>= conclude := funext fun a => hq a host
    show x host >>= f host = _
    rw [Cut.whole_bind, hp, bind_assoc, hrest]
  · intro host k value k' hreturned
    -- the rest of the call, from a state with the same registers
    have hrest : ∃ a k₁, k₁.machine.registers = k.machine.registers ∧
        Returned host (q a) k₁ value k' := by
      rcases hreturned with ⟨h, hk'⟩ | ⟨h, hi, hvalue, hk'⟩ <;>
        obtain ⟨a, k₁, hruns, hrest⟩ := h.of_bind
      · exact ⟨a, k₁, hruns.registers, .own hrest hk'⟩
      · exact ⟨a, k₁, hruns.registers, .answered hrest hi hvalue hk'⟩
    obtain ⟨a, k₁, hregisters, hreturned⟩ := hrest
    exact (hconventional a host k₁ value k' hreturned).congr hregisters

theorem Sys.hasBody_syscall {code : ℕ} (hcode : code ≠ 0 ∧ code ≠ 1) :
    HasBody fun host : Host W => syscall host code := by
  have hnum {r : Fin NumTotalRegs} (h : r ≠ 2) := interruptible_argument (C := True) (W := W) h
  unfold syscall
  split
  · exact absurd rfl hcode.1
  · exact absurd rfl hcode.2
  · exact .bind (interruptible_nameArgument (C := True)) fun _ =>
      .request fun _ => (apply_ite ..).symm
  · exact .bind (hnum (by decide)) fun _ => .request fun _ => rfl
  · exact .resuming returning_scCreate
  · exact .resuming (returning_scRemove (C := True))
  · exact .resuming returning_scOpen
  · exact .resuming (returning_scRead (C := True))
  · exact .resuming (returning_scWrite (C := True))
  · exact .resuming (returning_scSeek (C := True))
  · exact .resuming returning_scClose
  · exact .bind (hnum (by decide)) fun argc =>
      .bind (interruptible_readRegister (C := True) (by decide)) fun _ =>
      .bind (interruptible_assert (C := True) _) fun _ =>
      .bind (interruptible_copyArgv (C := True) _ _ _) fun _ =>
        .request fun _ => (apply_ite ..).symm
  · exact .resuming (returning_scAdd (C := True))
  · exact .resuming (returning_scReadString (C := True))
  · exact .resuming (returning_scPrintString (C := True))
  · exact .resuming returning_scSocketTCP
  · exact .resuming (returning_scConnect (C := True))
  · exact .resuming (returning_scSend (C := True))
  · exact .resuming (returning_scReceive (C := True))
  · exact .bind (hnum (by decide)) fun _ =>
      .bind (interruptible_nameArgument (C := True)) fun _ => .request fun _ => rfl
  · exact .bind (interruptible_nameArgument (C := True)) fun _ => .request fun _ => rfl
  · exact .bind (interruptible_nameArgument (C := True)) fun _ => .request fun _ => rfl
  · exact .stopping .abort

end

/-- A call other than `Halt` and `Exit` comes back behind its `SYSCALL`, its result in register 2
and all else in the registers as at the trap, whether or not the thread has lost the processor on
the way. -/
theorem call_convention {code : ℕ} (hcode : code ≠ 0 ∧ code ≠ 1) :
    ∃ body : Cut W (Word ⊕ Request), IsBody code body ∧ ∀ host k value k',
      Returned host body k value k' → k.machine.Convention k'.machine value := by
  obtain ⟨body, hbody, hconventional⟩ := hasBody_syscall (W := W) hcode
  have hhandler : ∀ host k, (k.machine.registers 2).toNat = code →
      exceptionHandler host .syscallException k = (body.whole host >>= conclude) k := by
    rintro host k rfl
    exact congrFun (hbody host) k
  have hoblivious : ∀ host k r k' value, body.whole host k = .ok r k' →
      body.whole host (k.withResult value) = .ok r (k'.withResult value) :=
    fun host k r k' value h => (silent_whole body k r k' h).2 value
  exact ⟨body, ⟨hhandler, hoblivious⟩, hconventional⟩

/-- A `Join` that is answered with 7. -/
theorem call_convention_join : ∃ k k' : Kernel SmallWorld,
    exceptionHandler SmallWorld.host .syscallException k = .ok (.joinUpdate 0) k ∧
    k.machine.registers PCReg = 0 ∧ k'.machine.registers PCReg = 4 ∧
    k'.machine.registers 2 = 7 := by
  let k : Kernel SmallWorld :=
    ⟨Descriptors.callWithName 3, FileSystem.blank, ⟨[], fun _ => none⟩⟩
  have hasked : exceptionHandler SmallWorld.host .syscallException k = .ok (.joinUpdate 0) k := rfl
  obtain ⟨body, hbody, hconvention⟩ :=
    call_convention (W := SmallWorld) (show 3 ≠ 0 ∧ 3 ≠ 1 by decide)
  rw [hbody.handler _ k rfl] at hasked
  obtain ⟨r, k₁, hwhole, hconclude⟩ := EStateM.bind_eq_ok_iff.mp hasked
  cases r with
  | inl value => cases hconclude
  | inr request =>
    cases hconclude
    have hvalue : (7 : Word) = result 7 (.joinUpdate 0) := rfl
    have hback := hconvention SmallWorld.host k 7 _
      (.answered (.of_whole hwhole) (.inl rfl) hvalue rfl)
    exact ⟨k, _, rfl, rfl, hback.pc, hback.result⟩

end Nachos

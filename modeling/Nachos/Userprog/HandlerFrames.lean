import Nachos.Userprog.Exception

/-! What the handlers leave alone. Most of them access user memory, ask the host about what is
open already and move positions in files; then they write their result, once. -/
namespace Nachos

/-- The same open file, perhaps at another position. -/
def OpenFile.Same (f f' : OpenFile) : Prop := f' = { f with currentOffset := f'.currentOffset }

variable {W α β : Type}

/-- The host after a call that neither opens nor closes a descriptor. -/
inductive Host.Answered (host : Host W) (w : W) : W → Prop
  | lseek (fd offset : Word) (whence : ℕ) : Answered host w (host.lseek w fd offset whence).2
  | read (fd : Word) (count : ℕ) : Answered host w (host.read w fd count).2
  | write (fd : Word) (bytes : List UInt8) : Answered host w (host.write w fd bytes).2
  | unlink (name : CString) : Answered host w (host.unlink w name).2
  | connect (fd : Word) (ip : CString) (port : Word) :
      Answered host w (host.connect w fd ip port).2
  | send (fd : Word) (bytes : List UInt8) : Answered host w (host.send w fd bytes).2
  | recv (fd : Word) (count : ℕ) : Answered host w (host.recv w fd count).2
  | getChar : Answered host w (host.getChar w).2
  | putChar (ch : UInt8) : Answered host w (host.putChar w ch)

/-- What may happen any number of times before a handler comes to its result. -/
inductive Kernel.Touches (host : Host W) (k : Kernel W) : Kernel W → Prop
  | access {k' : Kernel W} (h : k.Accessed k') : Touches host k k'
  | ask {w : W} (h : host.Answered k.host w) : Touches host k { k with host := w }
  | file {id : ℤ} {f f' : OpenFile} (hf : k.fileSystem.entry id = some f) (h : f.Same f') :
      Touches host k { k with fileSystem := k.fileSystem.setEntry id (some f') }

def Kernel.Calm (host : Host W) : Kernel W → Kernel W → Prop :=
  Relation.ReflTransGen (Kernel.Touches host)

namespace Sys

open EStateM

/-- A trap in the kernel: what has been done so far stays done. -/
def Trapped (host : Host W) (k : Kernel W) (stop : Stop) (k' : Kernel W) : Prop :=
  ∀ which, stop = .trap which →
    ∃ k₁, k.Calm host k₁ ∧ k'.fileSystem = k₁.fileSystem ∧ k'.host = k₁.host

/-- A part of a handler that touches nothing else. -/
def Calms (host : Host W) (x : Sys W α) : Prop :=
  ∀ k, Ends x k (fun _ k' => k.Calm host k') (Trapped host k)

/-- A kernel that has touched nothing else, once `value` has been written as the result. -/
def Answered (host : Host W) (k k' : Kernel W) : Prop :=
  ∃ k₁ value, k.Calm host k₁ ∧ k' = { k₁ with machine := k₁.machine.finished value }

/-- The rest of a handler, from there on to its return. -/
def Answers (host : Host W) (x : Sys W Unit) : Prop :=
  ∀ k, Ends x k (fun _ k' => Answered host k k') (Trapped host k)

/-- A member function of an open file, with something that is known of its value. -/
def Uses (host : Host W) (f : OpenFile) (x : Sys W (α × OpenFile)) (P : α → Prop) : Prop :=
  ∀ k, Ends x k (fun r k' => k.Calm host k' ∧ k'.fileSystem = k.fileSystem ∧ f.Same r.2 ∧ P r.1)
    (Trapped host k)

section

variable {host : Host W} {k k₁ k' : Kernel W}

theorem trapped_of_ne {stop : Stop} (h : ∀ which, stop ≠ .trap which) : Trapped host k stop k' :=
  fun which hstop => absurd hstop (h which)

theorem Trapped.trans {stop : Stop} (hk : k.Calm host k₁) (h : Trapped host k₁ stop k') :
    Trapped host k stop k' := by
  intro which hstop
  obtain ⟨k₂, hk₂, hrest⟩ := h which hstop
  exact ⟨k₂, hk.trans hk₂, hrest⟩

theorem Calms.pure (a : α) : Calms host (Pure.pure a) := fun _ => .refl

theorem Calms.bind {x : Sys W α} {f : α → Sys W β} (hx : Calms host x)
    (hf : ∀ a, Calms host (f a)) : Calms host (x >>= f) := by
  intro k
  apply (hx k).bind _ fun _ _ => id
  intro a k₁ hk₁
  exact (hf a k₁).mono (fun _ _ hk' => hk₁.trans hk') fun _ _ => .trans hk₁

theorem Calms.ite {c : Prop} [Decidable c] {x y : Sys W α} (hx : Calms host x)
    (hy : Calms host y) : Calms host (if c then x else y) := by
  split
  · exact hx
  · exact hy

theorem Answers.finish (value : Word) : Answers host (finish value) :=
  fun k => ⟨k, value, .refl, rfl⟩

theorem Answers.bind {x : Sys W α} {f : α → Sys W Unit} (hx : Calms host x)
    (hf : ∀ a, Answers host (f a)) : Answers host (x >>= f) := by
  intro k
  apply (hx k).bind _ fun _ _ => id
  intro a k₁ hk₁
  refine (hf a k₁).mono ?_ fun _ _ => .trans hk₁
  rintro _ k' ⟨k₂, value, hk₂, rfl⟩
  exact ⟨k₂, value, hk₁.trans hk₂, rfl⟩

theorem calms_readRegister (num : Fin NumTotalRegs) : Calms host (readRegister num) :=
  fun _ => .refl

theorem calms_argument (num : Fin NumTotalRegs) : Calms host (argument num) := fun _ => .refl

theorem calms_fileSystem : Calms host fileSystem := fun _ => .refl

theorem calms_errno : Calms host (errno host) := fun _ => .refl

theorem calms_assert (condition : Prop) [Decidable condition] :
    Calms host (assert condition) := by
  intro k
  rw [ends_assert]
  split
  · exact .refl
  · exact trapped_of_ne (by simp)

theorem calms_deref (pointer : Option α) : Calms host (deref pointer) := by
  intro k
  cases pointer with
  | none => exact trapped_of_ne (by simp)
  | some a => exact .refl

theorem calms_inTable (id : ℤ) : Calms host (inTable id) := by
  intro k
  rw [ends_inTable]
  split
  · exact .refl
  · exact trapped_of_ne (by simp)

theorem calms_openf (id : ℤ) : Calms host (openf id) :=
  .bind (calms_inTable id) fun _ => .bind calms_fileSystem fun _ => .pure _

theorem calms_newChars (size : ℤ) : Calms host (newChars host size) := by
  intro k
  rw [ends_newChars]
  split
  · exact .refl
  · exact trapped_of_ne (by simp)

theorem calms_peek (buffer : List UInt8) (i : ℤ) : Calms host (peek buffer i) := by
  intro k
  rw [ends_peek]
  split
  · exact .refl
  · exact trapped_of_ne (by simp)

theorem calms_poke (buffer : List UInt8) (i : ℤ) (ch : UInt8) :
    Calms host (poke buffer i ch) := by
  intro k
  rw [ends_poke]
  split
  · exact .refl
  · exact trapped_of_ne (by simp)

theorem calms_bytesOf (buffer : List UInt8) (n : ℤ) : Calms host (bytesOf buffer n) := by
  intro k
  rw [ends_bytesOf]
  split
  · exact .refl
  · exact trapped_of_ne (by simp)

theorem calms_received {count : ℕ} (buffer : List UInt8) (t : Transfer count) :
    Calms host (received buffer t) := by
  intro k
  rw [ends_received]
  split
  · exact .refl
  · exact trapped_of_ne (by simp)

/-- A call of the host that opens and closes nothing. -/
theorem calms_ask {call : W → α × W} (h : ∀ w, host.Answered w (call w).2) :
    Calms host (ask call) := fun k => .single (.ask (h k.host))

/-- An access to user memory. -/
theorem calms_hardware {x : Sim α}
    (h : ∀ k : Kernel W, Ends (hardware x) k (fun _ k' => k.Accessed k')
      fun stop _ => Refusal k.machine stop) : Calms host (hardware x) := by
  intro k
  have hk := h k
  unfold Ends hardware at hk ⊢
  cases hx : x k.machine with
  | ok a m =>
    rw [hx] at hk
    exact .single (.access hk)
  | trap which m => exact fun _ _ => ⟨k, .refl, rfl, rfl⟩
  | abort => exact trapped_of_ne (by simp)

/-! Member functions of open files. -/

theorem uses_getCurrentPos (f : OpenFile) :
    Uses host f (f.getCurrentPos host) fun _ => True :=
  fun _ => ⟨.single (.ask (.lseek _ _ _)), rfl, rfl, trivial⟩

/-- A file operation begins with `Lseek`, and what comes after it only asks the host. -/
theorem uses_lseek {f : OpenFile} {x : Sys W (α × OpenFile)} {P : α → Prop}
    (offset : Word) (whence : ℕ) (hx : Uses host f x P) :
    Uses host f (lseek host f.file offset whence >>= fun _ => x) P := by
  intro k
  simp only [ends_bind, ends_lseek]
  split
  · have hseek : k.Calm host { k with host := (host.lseek k.host f.file offset whence).2 } :=
      .single (.ask (.lseek _ _ _))
    refine (hx _).mono ?_ fun _ _ => .trans hseek
    rintro r k' ⟨hk', hfs, hrest⟩
    exact ⟨hseek.trans hk', hfs, hrest⟩
  · exact trapped_of_ne (by simp)

theorem uses_length (f : OpenFile) : Uses host f (f.length host) fun _ => True :=
  uses_lseek _ _ fun _ => ⟨.single (.ask (.lseek _ _ _)), rfl, rfl, trivial⟩

theorem uses_seek (f : OpenFile) (pos : Word) : Uses host f (f.seek host pos) fun _ => True :=
  uses_lseek _ _ fun _ => ⟨.single (.ask (.lseek _ _ _)), rfl, rfl, trivial⟩

theorem uses_read (f : OpenFile) (into : List UInt8) (numBytes : ℤ) :
    Uses host f (f.read host into numBytes) fun _ => True := by
  unfold OpenFile.read OpenFile.readAt
  rw [bind_assoc]
  apply uses_lseek
  intro k
  simp only [ends_bind, ends_readPartial, ends_pure]
  split
  · exact ⟨.single (.ask (.read _ _)), trivial, rfl, trivial⟩
  · exact trapped_of_ne (by simp)

theorem uses_write (f : OpenFile) (src : List UInt8) (numBytes : ℤ) :
    Uses host f (f.write host src numBytes) (· = BitVec.ofInt 32 numBytes) := by
  unfold OpenFile.write OpenFile.writeAt
  rw [bind_assoc]
  apply uses_lseek
  intro k
  simp only [ends_bind, ends_writeFile, ends_pure]
  split_ifs
  · exact ⟨.single (.ask (.write _ _)), trivial, rfl, trivial⟩
  · exact trapped_of_ne (by simp)
  · exact trapped_of_ne (by simp)

/-- `openf[id]->op()`, with what is known of its value. -/
theorem ends_onFile_uses (id : ℤ) {op : OpenFile → Sys W (α × OpenFile)} {P : α → Prop}
    (hop : ∀ f, Uses host f (op f) P) :
    Ends (onFile id op) k (fun a k' => k.Calm host k' ∧ P a) (Trapped host k) := by
  simp only [onFile, ends_bind, ends_openf, ends_deref, ends_setOpenf, ends_pure]
  split_ifs with hid
  · cases hf : k.fileSystem.entry id with
    | none => exact trapped_of_ne (by simp)
    | some f =>
      apply (hop f k).mono _ fun _ _ h => h
      rintro ⟨a, f'⟩ k' ⟨hk', hfs, hsame, hP⟩
      exact ⟨hk'.tail (.file (hfs ▸ hf) hsame), hP⟩
  · exact trapped_of_ne (by simp)

theorem calms_onFile (id : ℤ) {op : OpenFile → Sys W (α × OpenFile)} {P : α → Prop}
    (hop : ∀ f, Uses host f (op f) P) : Calms host (onFile id op) :=
  fun _ => (ends_onFile_uses id hop).mono (fun _ _ h => h.1) fun _ _ h => h

end

end Sys
end Nachos

import Nachos.Userprog.HandlerFrames

/-! Where the handlers can lose the processor: at the console, and nowhere else before they
return or turn to the rest of the kernel. A handler is cut there, and its pieces are such that
they neither change a register nor look at register 2, so what it writes there at its end is a
result of its own. -/
namespace Nachos

/-- The kernel with `value` in register 2. -/
def Kernel.withResult {W : Type} (k : Kernel W) (value : Word) : Kernel W :=
  { k with machine := { k.machine with registers := Function.update k.machine.registers 2 value } }

namespace Sys

open EStateM

variable {W α β : Type}

/-- As long as it does not stop, the procedure changes no register and does not depend on
register 2. -/
def Silent (x : Sys W α) : Prop :=
  ∀ k a k', x k = .ok a k' → k'.machine.registers = k.machine.registers ∧
    ∀ value, x (k.withResult value) = .ok a (k'.withResult value)

/-- A piece of a handler that does not use the console. -/
structure Piece (W α : Type) where
  code : Host W → Sys W α
  quick : ∀ host getChar putChar, code { host with getChar, putChar } = code host
  silent : ∀ host, Silent (code host)

/-- A procedure in pieces. -/
inductive Cut (W α : Type) : Type 1
  | ret (a : α)
  | piece {β : Type} (x : Piece W β) (f : β → Cut W α)
  | getChar (f : UInt8 → Cut W α)
  | putChar (ch : UInt8) (f : Unit → Cut W α)

namespace Cut

/-- The pieces put together again. -/
def whole (host : Host W) : Cut W α → Sys W α
  | ret a => pure a
  | piece x f => x.code host >>= fun b => whole host (f b)
  | getChar f => ask host.getChar >>= fun ch => whole host (f ch)
  | putChar ch f => ask (fun w => ((), host.putChar w ch)) >>= fun u => whole host (f u)

/-- One procedure after the other. -/
def bind : Cut W α → (α → Cut W β) → Cut W β
  | ret a, g => g a
  | piece x f, g => piece x fun b => bind (f b) g
  | getChar f, g => getChar fun ch => bind (f ch) g
  | putChar ch f, g => putChar ch fun u => bind (f u) g

/-- No piece opens or closes anything. -/
def Calm (host : Host W) : Cut W α → Prop
  | ret _ => True
  | piece x f => Calms host (x.code host) ∧ ∀ b, Calm host (f b)
  | getChar f => ∀ ch, Calm host (f ch)
  | putChar _ f => ∀ u, Calm host (f u)

theorem whole_bind {host : Host W} (p : Cut W α) (g : α → Cut W β) :
    (p.bind g).whole host = p.whole host >>= fun a => (g a).whole host := by
  induction p with
  | ret a => exact (pure_bind a fun a => (g a).whole host).symm
  | piece x f ih => simp only [bind, whole, ih, bind_assoc]
  | getChar f ih => simp only [bind, whole, ih, bind_assoc]
  | putChar ch f ih => simp only [bind, whole, ih, bind_assoc]

theorem Calm.bind {host : Host W} {p : Cut W α} {g : α → Cut W β} (hp : p.Calm host)
    (hg : ∀ a, (g a).Calm host) : (p.bind g).Calm host := by
  induction p with
  | ret a => exact hg a
  | piece x f ih => exact ⟨hp.1, fun b => ih b (hp.2 b)⟩
  | getChar f ih => exact fun ch => ih ch (hp ch)
  | putChar ch f ih => exact fun u => ih u (hp u)

theorem Calm.calms {host : Host W} {p : Cut W α} (hp : p.Calm host) :
    Calms host (p.whole host) := by
  induction p with
  | ret a => exact .pure a
  | piece x f ih => exact .bind hp.1 fun b => ih b (hp.2 b)
  | getChar f ih => exact .bind (calms_ask fun _ => .getChar) fun ch => ih ch (hp ch)
  | putChar ch f ih => exact .bind (calms_ask fun _ => .putChar ch) fun u => ih u (hp u)

end Cut

theorem Silent.pure (a : α) : Silent (Pure.pure a : Sys W α) := by
  rintro k b k' h
  cases h
  exact ⟨rfl, fun _ => rfl⟩

theorem Silent.throw (stop : Stop) : Silent (throw stop : Sys W α) := by
  rintro k b k' h
  cases h

theorem Silent.bind {x : Sys W α} {f : α → Sys W β} (hx : Silent x) (hf : ∀ a, Silent (f a)) :
    Silent (x >>= f) := by
  intro k b k' h
  obtain ⟨a, k₁, heq, hrest⟩ := bind_eq_ok_iff.mp h
  obtain ⟨hregisters, hblind⟩ := hx k a k₁ heq
  obtain ⟨hregisters', hblind'⟩ := hf a k₁ b k' hrest
  refine ⟨hregisters'.trans hregisters, fun value => ?_⟩
  exact bind_eq_ok_iff.mpr ⟨a, _, hblind value, hblind' value⟩

theorem Silent.ite {c : Prop} [Decidable c] {x y : Sys W α} (hx : Silent x) (hy : Silent y) :
    Silent (if c then x else y) := by
  split
  · exact hx
  · exact hy

theorem silent_whole {host : Host W} (p : Cut W α) : Silent (p.whole host) := by
  induction p with
  | ret a => exact .pure a
  | piece x f ih => exact .bind (x.silent host) ih
  | getChar f ih =>
    refine .bind ?_ ih
    rintro k b k' h
    cases h
    exact ⟨rfl, fun _ => rfl⟩
  | putChar ch f ih =>
    refine .bind ?_ ih
    rintro k b k' h
    cases h
    exact ⟨rfl, fun _ => rfl⟩

/-! What the pieces are made of. -/

theorem silent_readRegister {num : Fin NumTotalRegs} (hnum : num ≠ 2) :
    Silent (readRegister num : Sys W Word) := by
  rintro k a k' h
  cases h
  refine ⟨rfl, fun value => ?_⟩
  have hsame : (k.withResult value).machine.registers num = k.machine.registers num :=
    Function.update_of_ne hnum ..
  rw [← hsame]
  rfl

theorem silent_argument {num : Fin NumTotalRegs} (hnum : num ≠ 2) :
    Silent (argument num : Sys W ℤ) :=
  .bind (silent_readRegister hnum) fun _ => .pure _

theorem silent_ask (call : W → α × W) : Silent (ask call) := by
  rintro k a k' h
  cases h
  exact ⟨rfl, fun _ => rfl⟩

theorem silent_errno (host : Host W) : Silent (errno host) := by
  rintro k a k' h
  cases h
  exact ⟨rfl, fun _ => rfl⟩

theorem silent_fileSystem : Silent (fileSystem : Sys W FileSystem) := by
  rintro k a k' h
  cases h
  exact ⟨rfl, fun _ => rfl⟩

theorem silent_modifyFileSystem (f : FileSystem → FileSystem) :
    Silent (modifyFileSystem f : Sys W Unit) := by
  rintro k a k' h
  cases h
  exact ⟨rfl, fun _ => rfl⟩

theorem silent_newChars (host : Host W) (size : ℤ) : Silent (newChars host size) := by
  intro k a k' h
  unfold newChars at h ⊢
  split_ifs at h with hsize
  cases h
  refine ⟨rfl, fun value => ?_⟩
  rw [if_pos hsize]
  rfl

theorem silent_assert (condition : Prop) [Decidable condition] :
    Silent (assert condition : Sys W Unit) := .ite (.pure _) (.throw _)

theorem silent_deref (pointer : Option α) : Silent (deref pointer : Sys W α) := by
  cases pointer with
  | none => exact .throw _
  | some a => exact .pure a

theorem silent_inTable (id : ℤ) : Silent (inTable id : Sys W Unit) := .ite (.pure _) (.throw _)

theorem silent_openf (id : ℤ) : Silent (openf id : Sys W (Option OpenFile)) :=
  .bind (silent_inTable id) fun _ => .bind silent_fileSystem fun _ => .pure _

theorem silent_setOpenf (id : ℤ) (file : Option OpenFile) :
    Silent (setOpenf id file : Sys W Unit) :=
  .bind (silent_inTable id) fun _ => silent_modifyFileSystem _

theorem silent_peek (buffer : List UInt8) (i : ℤ) : Silent (peek buffer i : Sys W UInt8) :=
  .ite (.pure _) (.throw _)

theorem silent_poke (buffer : List UInt8) (i : ℤ) (ch : UInt8) :
    Silent (poke buffer i ch : Sys W (List UInt8)) := .ite (.pure _) (.throw _)

theorem silent_bytesOf (buffer : List UInt8) (n : ℤ) :
    Silent (bytesOf buffer n : Sys W (List UInt8)) := .ite (.pure _) (.throw _)

theorem silent_received {count : ℕ} (buffer : List UInt8) (t : Transfer count) :
    Silent (received buffer t : Sys W (List UInt8)) := .ite (.pure _) (.throw _)

/-- A translation that succeeds does not depend on the registers. -/
theorem translateOrRaise_registers {addr : Word} {size : ℕ} {writing : Bool} {m m' : Machine}
    {physAddr : ℕ} (h : Sim.translateOrRaise addr size writing m = .ok physAddr m')
    (registers : Registers) : Sim.translateOrRaise addr size writing
      { m with registers := registers } = .ok physAddr { m' with registers := registers } := by
  obtain ⟨address, entry, hp, htr, rfl⟩ := Sim.translateOrRaise_ok h
  have htranslate : translate (m.pageTable.map m.tables) m.pageTableSize addr size writing =
      some (.ok (physAddr, _)) :=
    translate_eq_ok_iff.mpr ⟨m.tables address, entry, by rw [hp, Option.map_some], htr, rfl⟩
  unfold Sim.translateOrRaise
  dsimp only
  rw [htranslate]
  simp only [hp]

/-- The rest of an access reads or writes main memory only. -/
theorem access_registers {addr : Word} {size : ℕ} {writing : Bool} {f : ℕ → Sim α}
    (hf : ∀ physAddr m a m', f physAddr m = .ok a m' → m'.registers = m.registers ∧
      ∀ registers, f physAddr { m with registers := registers } =
        .ok a { m' with registers := registers }) {m m' : Machine} {a : α}
    (h : (Sim.translateOrRaise addr size writing >>= f) m = .ok a m') :
    m'.registers = m.registers ∧ ∀ registers,
      (Sim.translateOrRaise addr size writing >>= f) { m with registers := registers } =
        .ok a { m' with registers := registers } := by
  obtain ⟨physAddr, m₁, ht, hrest⟩ := Sim.bind_eq_ok_iff.mp h
  obtain ⟨hregisters, hblind⟩ := hf physAddr m₁ a m' hrest
  obtain ⟨address, entry, -, -, hm₁⟩ := Sim.translateOrRaise_ok ht
  refine ⟨hregisters.trans (by rw [hm₁]), fun registers => ?_⟩
  exact Sim.bind_eq_ok_iff.mpr
    ⟨physAddr, _, translateOrRaise_registers ht registers, hblind registers⟩

theorem silent_hardware {x : Sim α} (h : ∀ m a m', x m = .ok a m' →
    m'.registers = m.registers ∧ ∀ registers,
      x { m with registers := registers } = .ok a { m' with registers := registers }) :
    Silent (hardware x : Sys W α) := by
  intro k a k' hx
  unfold hardware at hx ⊢
  split at hx
  · next a' m' heq =>
    cases hx
    obtain ⟨hregisters, hblind⟩ := h _ _ _ heq
    refine ⟨hregisters, fun value => ?_⟩
    have hvalue := hblind (Function.update k.machine.registers 2 value)
    rw [show (k.withResult value).machine = { k.machine with
      registers := Function.update k.machine.registers 2 value } from rfl, hvalue, ← hregisters]
    rfl
  · cases hx
  · cases hx

theorem silent_readMem (addr : Word) (size : ℕ) :
    Silent (hardware (Sim.readMem addr size) : Sys W Word) := by
  refine silent_hardware fun m a m' => access_registers fun physAddr m a m' h => ?_
  dsimp only [Bind.bind, Sim.get] at h ⊢
  split at h <;> cases h <;> exact ⟨rfl, fun _ => rfl⟩

theorem silent_writeMem (addr : Word) (size : ℕ) (value : Word) :
    Silent (hardware (Sim.writeMem addr size value) : Sys W Unit) := by
  refine silent_hardware fun m a m' => access_registers fun physAddr m a m' h => ?_
  split at h <;> cases h <;> exact ⟨rfl, fun _ => rfl⟩

/-- The procedure can be cut; where `C` holds, no piece opens or closes anything. -/
def Interruptible (C : Prop) (x : Host W → Sys W α) : Prop :=
  ∃ p : Cut W α, (∀ host, p.whole host = x host) ∧ (C → ∀ host, p.Calm host)

/-- The same of a handler, which ends by writing its result to register 2. -/
def Returning (C : Prop) (x : Host W → Sys W Unit) : Prop :=
  ∃ p : Cut W Word, (∀ host, (p.whole host >>= finish) = x host) ∧ (C → ∀ host, p.Calm host)

section

variable {C : Prop}

theorem Interruptible.pure (a : α) : Interruptible C fun _ : Host W => (Pure.pure a : Sys W α) :=
  ⟨.ret a, fun _ => rfl, fun _ _ => trivial⟩

/-- A piece on its own. -/
theorem Interruptible.piece {x : Host W → Sys W α}
    (hquick : ∀ host getChar putChar, x { host with getChar, putChar } = x host)
    (hsilent : ∀ host, Silent (x host)) (hcalm : C → ∀ host, Calms host (x host)) :
    Interruptible C x :=
  ⟨.piece ⟨x, hquick, hsilent⟩ .ret, fun host => bind_pure (x host),
    fun hC host => ⟨hcalm hC host, fun _ => trivial⟩⟩

theorem Interruptible.bind {x : Host W → Sys W α} {f : Host W → α → Sys W β}
    (hx : Interruptible C x) (hf : ∀ a, Interruptible C fun host => f host a) :
    Interruptible C fun host => x host >>= f host := by
  obtain ⟨p, hp, hcalm⟩ := hx
  choose q hq hcalm' using hf
  refine ⟨p.bind q, fun host => ?_, fun hC host => (hcalm hC host).bind fun a => hcalm' a hC host⟩
  rw [Cut.whole_bind, hp, funext fun a => hq a host]

theorem Interruptible.ite {c : Prop} [Decidable c] {x y : Host W → Sys W α}
    (hx : Interruptible C x) (hy : Interruptible C y) :
    Interruptible C fun host => if c then x host else y host := by
  split
  · exact hx
  · exact hy

theorem Interruptible.calms {x : Host W → Sys W α} (hx : Interruptible True x) (host : Host W) :
    Calms host (x host) := by
  obtain ⟨p, hp, hcalm⟩ := hx
  rw [← hp]
  exact (hcalm trivial host).calms

theorem Returning.finish (value : Word) :
    Returning C fun _ : Host W => (Sys.finish value : Sys W Unit) :=
  ⟨.ret value, fun _ => pure_bind _ _, fun _ _ => trivial⟩

/-- What comes first may have a property on which the rest relies. -/
theorem Returning.bind_of {x : Host W → Sys W α} {f : Host W → α → Sys W Unit} {P : α → Prop}
    (hx : Interruptible C x) (hP : ∀ host k a k', x host k = .ok a k' → P a)
    (hf : ∀ a, P a → Returning C fun host => f host a) :
    Returning C fun host => x host >>= f host := by
  classical
  obtain ⟨p, hp, hcalm⟩ := hx
  choose q hq hcalm' using hf
  let stop : Piece W Word := ⟨fun _ => throw .abort, fun _ _ _ => rfl, fun _ => .throw _⟩
  refine ⟨p.bind fun a => if h : P a then q a h else .piece stop .ret, fun host => ?_, ?_⟩
  · rw [Cut.whole_bind, hp, bind_assoc]
    funext k
    simp only [Bind.bind, EStateM.bind]
    split
    · next a k₁ heq =>
      rw [dif_pos (hP host k a k₁ heq)]
      exact congrFun (hq a _ host) k₁
    · rfl
  · intro hC host
    refine (hcalm hC host).bind fun a => ?_
    split
    · exact hcalm' a _ hC host
    · exact ⟨fun _ => trapped_of_ne (by simp), fun _ => trivial⟩

theorem Returning.bind {x : Host W → Sys W α} {f : Host W → α → Sys W Unit}
    (hx : Interruptible C x) (hf : ∀ a, Returning C fun host => f host a) :
    Returning C fun host => x host >>= f host :=
  .bind_of hx (fun _ _ _ _ _ => trivial) fun a (_ : True) => hf a

theorem Returning.ite {c : Prop} [Decidable c] {x y : Host W → Sys W Unit}
    (hx : Returning C x) (hy : Returning C y) :
    Returning C fun host => if c then x host else y host := by
  split
  · exact hx
  · exact hy

theorem Returning.answers {x : Host W → Sys W Unit} (hx : Returning True x) (host : Host W) :
    Answers host (x host) := by
  obtain ⟨p, hp, hcalm⟩ := hx
  rw [← hp]
  exact .bind (hcalm trivial host).calms fun _ => .finish _

theorem interruptible_readRegister {num : Fin NumTotalRegs} (hnum : num ≠ 2) :
    Interruptible C fun _ : Host W => readRegister num :=
  .piece (fun _ _ _ => rfl) (fun _ => silent_readRegister hnum) fun _ _ => calms_readRegister _

theorem interruptible_argument {num : Fin NumTotalRegs} (hnum : num ≠ 2) :
    Interruptible C fun _ : Host W => argument num :=
  .piece (fun _ _ _ => rfl) (fun _ => silent_argument hnum) fun _ _ => calms_argument _

theorem interruptible_ask {call : Host W → W → α × W}
    (hquick : ∀ host getChar putChar, call { host with getChar, putChar } = call host)
    (hcalm : C → ∀ (host : Host W) w, host.Answered w (call host w).2) :
    Interruptible C fun host => ask (call host) :=
  .piece (fun host g p => by rw [hquick]) (fun _ => silent_ask _)
    fun hC host => calms_ask (hcalm hC host)

theorem interruptible_errno : Interruptible C fun host : Host W => errno host :=
  .piece (fun _ _ _ => rfl) silent_errno fun _ _ => calms_errno

theorem interruptible_fileSystem : Interruptible C fun _ : Host W => fileSystem :=
  .piece (fun _ _ _ => rfl) (fun _ => silent_fileSystem) fun _ _ => calms_fileSystem

theorem interruptible_newChars (size : ℤ) :
    Interruptible C fun host : Host W => newChars host size :=
  .piece (fun _ _ _ => rfl) (fun _ => silent_newChars _ _) fun _ _ => calms_newChars _

theorem interruptible_assert (condition : Prop) [Decidable condition] :
    Interruptible C fun _ : Host W => assert condition :=
  .piece (fun _ _ _ => rfl) (fun _ => silent_assert _) fun _ _ => calms_assert _

theorem interruptible_deref (pointer : Option α) :
    Interruptible C fun _ : Host W => deref pointer :=
  .piece (fun _ _ _ => rfl) (fun _ => silent_deref _) fun _ _ => calms_deref _

theorem interruptible_openf (id : ℤ) : Interruptible C fun _ : Host W => openf id :=
  .piece (fun _ _ _ => rfl) (fun _ => silent_openf _) fun _ _ => calms_openf _

theorem interruptible_peek (buffer : List UInt8) (i : ℤ) :
    Interruptible C fun _ : Host W => peek buffer i :=
  .piece (fun _ _ _ => rfl) (fun _ => silent_peek _ _) fun _ _ => calms_peek _ _

theorem interruptible_poke (buffer : List UInt8) (i : ℤ) (ch : UInt8) :
    Interruptible C fun _ : Host W => poke buffer i ch :=
  .piece (fun _ _ _ => rfl) (fun _ => silent_poke _ _ _) fun _ _ => calms_poke _ _ _

theorem interruptible_bytesOf (buffer : List UInt8) (n : ℤ) :
    Interruptible C fun _ : Host W => bytesOf buffer n :=
  .piece (fun _ _ _ => rfl) (fun _ => silent_bytesOf _ _) fun _ _ => calms_bytesOf _ _

theorem interruptible_received {count : ℕ} (buffer : List UInt8) (t : Transfer count) :
    Interruptible C fun _ : Host W => received buffer t :=
  .piece (fun _ _ _ => rfl) (fun _ => silent_received _ _) fun _ _ => calms_received _ _

theorem interruptible_readMem (addr : Word) {size : ℕ} (hsize : size = 1 ∨ size = 2 ∨ size = 4) :
    Interruptible C fun _ : Host W => hardware (Sim.readMem addr size) :=
  .piece (fun _ _ _ => rfl) (fun _ => silent_readMem _ _)
    fun _ _ => calms_hardware fun _ => ends_readMem _ hsize

theorem interruptible_writeMem (addr value : Word) :
    Interruptible C fun _ : Host W => hardware (Sim.writeMem addr 1 value) :=
  .piece (fun _ _ _ => rfl) (fun _ => silent_writeMem _ _ _)
    fun _ _ => calms_hardware fun _ => ends_writeMem _ _

theorem interruptible_copyIn (virtAddr : Word) (n i : ℕ) (kernelBuf : List UInt8) :
    Interruptible C fun _ : Host W => copyIn virtAddr n i kernelBuf := by
  induction n generalizing i kernelBuf with
  | zero => exact .pure _
  | succ n ih =>
    apply Interruptible.bind (interruptible_readMem _ (.inl rfl))
    intro oneChar
    apply Interruptible.bind (interruptible_poke _ _ _)
    intro kernelBuf
    exact .ite (.pure _) (ih _ _)

theorem interruptible_user2System (virtAddr : Word) (limit : ℤ) :
    Interruptible C fun host : Host W => user2System host virtAddr limit :=
  .bind (interruptible_newChars _) fun _ => interruptible_copyIn _ _ _ _

theorem interruptible_copyOut (virtAddr : Word) (buffer : List UInt8) (n i : ℕ) :
    Interruptible C fun _ : Host W => copyOut virtAddr buffer n i := by
  induction n generalizing i with
  | zero => exact .pure _
  | succ n ih =>
    apply Interruptible.bind (interruptible_peek _ _)
    intro oneChar
    apply Interruptible.bind (interruptible_writeMem _ _)
    intro _
    exact .ite (.pure _) (ih _)

theorem interruptible_system2User (virtAddr : Word) (len : ℤ) (buffer : List UInt8) :
    Interruptible C fun _ : Host W => system2User virtAddr len buffer :=
  .ite (.pure _) (interruptible_copyOut _ _ _ _)

/-! The console, where others may run. -/

theorem interruptible_getChar : Interruptible C fun host : Host W => ask host.getChar :=
  ⟨.getChar .ret, fun host => bind_pure (ask host.getChar), fun _ _ _ => trivial⟩

theorem interruptible_putChar (ch : UInt8) :
    Interruptible C fun host : Host W => ask fun w => ((), host.putChar w ch) :=
  ⟨.putChar ch .ret, fun host => bind_pure (ask fun w => ((), host.putChar w ch)),
    fun _ _ _ => trivial⟩

theorem interruptible_readChars (len : ℤ) (room : ℕ) (size : ℤ) (buffer : List UInt8) :
    Interruptible C fun host : Host W => readChars host len room size buffer := by
  induction room generalizing size buffer with
  | zero =>
    exact .piece (fun _ _ _ => rfl) (fun _ => .throw _) fun _ _ _ => trapped_of_ne (by simp)
  | succ room ih =>
    apply Interruptible.ite (.pure _)
    apply Interruptible.bind interruptible_getChar
    intro oneChar
    apply Interruptible.bind (interruptible_poke _ _ _)
    intro buffer
    exact .ite (.pure _) (ih _ _)

theorem interruptible_putChars (len : ℤ) (buffer : List UInt8) (room : ℕ) (size : ℤ) :
    Interruptible C fun host : Host W => putChars host len buffer room size := by
  induction room generalizing size with
  | zero =>
    exact .piece (fun _ _ _ => rfl) (fun _ => .throw _) fun _ _ _ => trapped_of_ne (by simp)
  | succ room ih =>
    apply Interruptible.ite (.pure _)
    apply Interruptible.bind (interruptible_peek _ _)
    intro oneChar
    apply Interruptible.bind (interruptible_putChar oneChar)
    intro _
    exact .ite (.pure _) (ih _)

theorem returning_readLine (virtAddr : Word) (len : ℤ) (buffer : List UInt8) :
    Returning C fun host : Host W => readLine host virtAddr len buffer := by
  refine .bind (interruptible_readChars _ _ _ _) fun (size, buffer) => ?_
  refine .bind (interruptible_poke _ _ _) fun buffer => ?_
  exact .bind (interruptible_system2User _ _ _) fun _ => .finish _

theorem returning_putString (len : ℤ) (buffer : List UInt8) :
    Returning C fun host : Host W => putString host len buffer :=
  .bind (interruptible_putChars _ _ _ _) fun _ => .finish _

/-! Member functions of open files. -/

theorem silent_lseek (host : Host W) (fd offset : Word) (whence : ℕ) :
    Silent (lseek host fd offset whence) :=
  .bind (silent_ask _) fun _ => silent_assert _

theorem silent_onFile {id : ℤ} {op : OpenFile → Sys W (α × OpenFile)}
    (hop : ∀ f, Silent (op f)) : Silent (onFile id op) := by
  refine .bind (silent_openf _) fun _ => .bind (silent_deref _) fun file => ?_
  exact .bind (hop file) fun _ => .bind (silent_setOpenf _ _) fun _ => .pure _

theorem interruptible_onFile (id : ℤ) {op : Host W → OpenFile → Sys W (α × OpenFile)}
    {P : OpenFile → α → Prop}
    (hquick : ∀ host getChar putChar f, op { host with getChar, putChar } f = op host f)
    (hsilent : ∀ host f, Silent (op host f)) (huses : ∀ host f, Uses host f (op host f) (P f)) :
    Interruptible C fun host => onFile id (op host) := by
  refine .piece (fun host g p => by rw [funext (hquick host g p)])
    (fun host => silent_onFile (hsilent host)) fun _ host => ?_
  exact calms_onFile (P := fun _ => True) id fun f k => (huses host f k).mono
    (fun _ _ h => ⟨h.1, h.2.1, h.2.2.1, trivial⟩) fun _ _ h => h

theorem interruptible_getCurrentPos (id : ℤ) :
    Interruptible C fun host : Host W => onFile id (OpenFile.getCurrentPos host) :=
  interruptible_onFile id (fun _ _ _ _ => rfl)
    (fun _ _ => .bind (silent_ask _) fun _ => .pure _) fun _ f => uses_getCurrentPos f

theorem interruptible_length (id : ℤ) :
    Interruptible C fun host : Host W => onFile id (OpenFile.length host) :=
  interruptible_onFile id (fun _ _ _ _ => rfl) (fun _ _ => .bind (silent_lseek _ _ _ _) fun _ =>
    .bind (silent_ask _) fun _ => .pure _) fun _ f => uses_length f

theorem interruptible_seek (id : ℤ) (pos : Word) :
    Interruptible C fun host : Host W => onFile id fun f => f.seek host pos :=
  interruptible_onFile id (fun _ _ _ _ => rfl) (fun _ _ => .bind (silent_lseek _ _ _ _) fun _ =>
    .bind (silent_ask _) fun _ => .pure _) fun _ f => uses_seek f pos

theorem interruptible_read (id : ℤ) (into : List UInt8) (numBytes : ℤ) :
    Interruptible C fun host : Host W => onFile id fun f => f.read host into numBytes := by
  refine interruptible_onFile id (fun _ _ _ _ => rfl) (fun _ _ => ?_)
    fun _ f => uses_read f into numBytes
  refine .bind (.bind (silent_lseek _ _ _ _) fun _ => .bind (silent_ask _) fun _ => ?_)
    fun _ => .pure _
  exact .bind (silent_received _ _) fun _ => .pure _

theorem silent_write (host : Host W) (f : OpenFile) (src : List UInt8) (numBytes : ℤ) :
    Silent (f.write host src numBytes) := by
  refine .bind (.bind (silent_lseek _ _ _ _) fun _ => .bind ?_ fun _ => .pure _) fun _ => .pure _
  exact .bind (silent_bytesOf _ _) fun _ => .bind (silent_ask _) fun _ => silent_assert _

theorem interruptible_write (id : ℤ) (src : List UInt8) (numBytes : ℤ) :
    Interruptible C fun host : Host W => onFile id fun f => f.write host src numBytes :=
  interruptible_onFile id (fun _ _ _ _ => rfl) (fun host f => silent_write host f _ _)
    fun _ f => uses_write f src numBytes

/-! The handlers. -/

theorem returning_scRead : Returning C fun host : Host W => scRead host := by
  refine .bind (interruptible_readRegister (by decide)) fun virtAddr => ?_
  refine .bind (interruptible_argument (by decide)) fun len => ?_
  refine .bind (interruptible_argument (by decide)) fun id => .ite (.finish _) ?_
  refine .bind (interruptible_openf _) fun file => .ite (.finish _) (.ite (.finish _) ?_)
  refine .bind (interruptible_getCurrentPos _) fun oldPos => ?_
  refine .bind (interruptible_user2System _ _) fun buffer => ?_
  refine .ite (returning_readLine _ _ _) ?_
  refine .bind (interruptible_length _) fun length => .ite (.finish _) ?_
  refine .bind (interruptible_read _ _ _) fun (numRead, buffer) => .ite ?_ (.finish _)
  refine .bind (interruptible_poke _ _ _) fun buffer => ?_
  refine .bind (interruptible_getCurrentPos _) fun newPos => ?_
  exact .bind (interruptible_system2User _ _ _) fun _ => .finish _

/-- The value of `OpenFile::Write` is the number of bytes it has been given. -/
theorem write_value {host : Host W} {id : ℤ} {src : List UInt8} {numBytes : ℤ} {k k' : Kernel W}
    {value : Word} (h : onFile id (fun f => f.write host src numBytes) k = .ok value k') :
    value = BitVec.ofInt 32 numBytes := by
  have huses (f : OpenFile) : Uses host f (f.write host src numBytes)
      (· = BitVec.ofInt 32 numBytes) := uses_write f src numBytes
  have hends := ends_onFile_uses (k := k) id huses
  unfold Ends at hends
  rw [h] at hends
  exact hends.2

theorem returning_scWrite : Returning C fun host : Host W => scWrite host := by
  refine .bind (interruptible_readRegister (by decide)) fun virtAddr => ?_
  refine .bind_of (P := (· < 2 ^ 31)) (interruptible_argument (by decide)) ?_ fun len hlen => ?_
  · rintro host k a k' h
    cases h
    exact BitVec.toInt_lt
  refine .bind (interruptible_argument (by decide)) fun id => ?_
  refine .bind (interruptible_openf _) fun file => .ite (.finish _) ?_
  refine .bind (interruptible_deref _) fun f => ?_
  refine .ite (.finish _) (.ite (.finish _) (.ite (.finish _) (.ite (.finish _) ?_)))
  refine .bind (interruptible_user2System _ _) fun buffer => .ite (returning_putString _ _) ?_
  refine .bind (interruptible_getCurrentPos _) fun before => ?_
  refine .bind (interruptible_peek _ _) fun last => ?_
  dsimp only
  generalize hlen' : (if last = 0 then len - 1 else len) = len'
  have hlt : len' < 2 ^ 31 := by
    split at hlen' <;> omega
  by_cases hpos : len' ≤ 0
  · simp only [if_pos hpos]
    exact .finish _
  simp only [if_neg hpos]
  refine .bind_of (interruptible_write _ _ _) (fun _ _ _ _ => write_value) ?_
  rintro _ rfl
  -- the number of bytes is not 0, so that the branch without a result is never taken
  have hne : BitVec.ofInt 32 len' ≠ 0 := by
    intro hzero
    have hnat := congrArg BitVec.toNat hzero
    rw [BitVec.toNat_ofInt] at hnat
    change _ = 0 at hnat
    omega
  simp only [if_pos hne]
  refine .bind (interruptible_getCurrentPos _) fun after => ?_
  exact .bind (interruptible_system2User _ _ _) fun _ => .finish _

theorem returning_scConnect : Returning C fun host : Host W => scConnect host := by
  refine .bind (interruptible_argument (by decide)) fun index => ?_
  refine .bind (interruptible_openf _) fun file => .bind (interruptible_deref _) fun f => ?_
  refine .bind (interruptible_readRegister (by decide)) fun port => ?_
  refine .bind (interruptible_readRegister (by decide)) fun virtAddr => ?_
  refine .bind (interruptible_user2System _ _) fun ip => .ite (.finish _) ?_
  refine .bind (interruptible_ask (fun _ _ _ => rfl) fun _ _ _ => .connect _ _ _) fun _ => ?_
  exact .ite (.finish _) (.finish _)

/-- What `Seek` does once the position is known. -/
theorem returning_seekWithin (id : ℤ) (pos : Word) : Returning C fun host : Host W => (do
    let length ← onFile id (OpenFile.length host)
    if pos.toInt > length.toInt ∨ pos.toInt < 0 then finish (-1)
    else
      let _ ← onFile id fun f => f.seek host pos
      finish pos) := by
  refine .bind (interruptible_length _) fun length => .ite (.finish _) ?_
  exact .bind (interruptible_seek _ _) fun _ => .finish _

theorem returning_scSeek : Returning C fun host : Host W => scSeek host := by
  refine .bind (interruptible_readRegister (by decide)) fun pos => ?_
  refine .bind (interruptible_argument (by decide)) fun id => .ite (.finish _) ?_
  refine .bind (interruptible_openf _) fun file => .ite (.finish _) (.ite (.finish _) ?_)
  exact .ite (.bind (interruptible_length _) (returning_seekWithin id))
    (returning_seekWithin id pos)

theorem returning_scReceive : Returning C fun host : Host W => scReceive host := by
  refine .bind (interruptible_argument (by decide)) fun id => ?_
  refine .bind (interruptible_openf _) fun file => .ite (.finish _) ?_
  refine .bind (interruptible_deref _) fun f => ?_
  refine .bind (interruptible_readRegister (by decide)) fun virtAddr => ?_
  refine .bind (interruptible_argument (by decide)) fun len => ?_
  refine .ite (.finish _) (.ite ?_ (.finish _))
  refine .bind (interruptible_newChars _) fun buffer => ?_
  refine .bind (interruptible_ask (fun _ _ _ => rfl) fun _ _ _ => .recv _ _) fun answer => ?_
  refine .bind (interruptible_received _ _) fun buffer => .ite ?_ ?_
  · exact .bind interruptible_errno fun _ => .ite (.finish _) (.finish _)
  · exact .bind (interruptible_system2User _ _ _) fun _ => .finish _

theorem returning_scSend : Returning C fun host : Host W => scSend host := by
  refine .bind (interruptible_argument (by decide)) fun id => ?_
  refine .bind (interruptible_openf _) fun file => .ite (.finish _) ?_
  refine .bind (interruptible_deref _) fun f => ?_
  refine .bind (interruptible_readRegister (by decide)) fun virtAddr => ?_
  refine .bind (interruptible_argument (by decide)) fun len => ?_
  refine .bind interruptible_fileSystem fun fs => .ite (.finish _) (.ite ?_ (.finish _))
  refine .bind (interruptible_user2System _ _) fun buffer => ?_
  refine .bind (interruptible_bytesOf _ _) fun bytes => ?_
  refine .bind (interruptible_ask (fun _ _ _ => rfl) fun _ _ _ => .send _ _) fun result => ?_
  exact .bind interruptible_errno fun error => .ite (.finish _) (.ite (.finish _) (.finish _))

theorem returning_scReadString : Returning C fun host : Host W => scReadString host := by
  refine .bind (interruptible_readRegister (by decide)) fun virtAddr => ?_
  refine .bind (interruptible_argument (by decide)) fun len => ?_
  exact .bind (interruptible_user2System _ _) fun buffer => returning_readLine _ _ _

theorem returning_scPrintString : Returning C fun host : Host W => scPrintString host := by
  refine .bind (interruptible_readRegister (by decide)) fun virtAddr => ?_
  refine .bind (interruptible_argument (by decide)) fun len => ?_
  exact .bind (interruptible_user2System _ _) fun buffer => returning_putString _ _

theorem returning_scAdd : Returning C fun _ : Host W => scAdd :=
  .bind (interruptible_readRegister (by decide)) fun _ =>
    .bind (interruptible_readRegister (by decide)) fun _ => .finish _

theorem returning_scRemove : Returning C fun host : Host W => scRemove host := by
  refine .bind (interruptible_readRegister (by decide)) fun virtAddr => ?_
  refine .bind (interruptible_user2System _ _) fun filename => ?_
  refine .bind interruptible_fileSystem fun fs => .ite (.finish _) (.bind (.bind (.bind
    (interruptible_ask (fun _ _ _ => rfl) fun _ _ _ => .unlink _) fun _ => .pure _)
    fun _ => .pure _) fun _ => ?_)
  exact .ite (.finish _) (.finish _)

/-! The handlers that open or close something. -/

theorem interruptible_openingFd (name : CString) (creating : Bool) :
    Interruptible False fun host : Host W => ask fun w => host.openFd w name creating :=
  interruptible_ask (fun _ _ _ => rfl) nofun

theorem interruptible_close (fd : Word) : Interruptible False fun host : Host W => close host fd :=
  .bind (interruptible_ask (fun _ _ _ => rfl) nofun) fun _ => interruptible_assert _

theorem interruptible_setOpenf (id : ℤ) (file : Option OpenFile) :
    Interruptible False fun _ : Host W => setOpenf id file :=
  .piece (fun _ _ _ => rfl) (fun _ => silent_setOpenf _ _) nofun

theorem interruptible_tableDescriptor (id : ℤ) :
    Interruptible False fun _ : Host W => tableDescriptor id :=
  .piece (fun _ _ _ => rfl) (fun _ => .bind (silent_inTable _) fun _ =>
    .bind silent_fileSystem fun _ => .pure _) nofun

theorem interruptible_setTableDescriptor (id : ℤ) (name : Option CString) :
    Interruptible False fun _ : Host W => setTableDescriptor id name :=
  .piece (fun _ _ _ => rfl) (fun _ => .bind (silent_inTable _) fun _ =>
    silent_modifyFileSystem _) nofun

theorem interruptible_create (name : CString) :
    Interruptible False fun host : Host W => FileSystem.create host name := by
  refine .bind (.bind (interruptible_openingFd _ _) fun fd => ?_) fun fileDescriptor => ?_
  · exact .bind (interruptible_assert _) fun _ => .pure _
  · exact .ite (.pure _) (.bind (interruptible_close _) fun _ => .pure _)

theorem interruptible_openFile (name : CString) (type permission : ℤ) :
    Interruptible False fun host : Host W => FileSystem.openFile host name type permission := by
  refine .bind (.bind (interruptible_openingFd _ _) fun fd => ?_) fun fileDescriptor => ?_
  · exact .bind (interruptible_assert _) fun _ => .pure _
  · exact .ite (.pure _) (.pure _)

theorem returning_scCreate : Returning False fun host : Host W => scCreate host := by
  refine .bind (interruptible_readRegister (by decide)) fun virtAddr => ?_
  refine .bind (interruptible_user2System _ _) fun filename => ?_
  exact .bind (interruptible_create _) fun _ => .ite (.finish _) (.finish _)

theorem returning_scOpen : Returning False fun host : Host W => scOpen host := by
  refine .bind (interruptible_readRegister (by decide)) fun bufferVirtAddr => ?_
  refine .bind (interruptible_argument (by decide)) fun permission => ?_
  refine .bind (interruptible_user2System _ _) fun fileName => ?_
  refine .bind interruptible_fileSystem fun fs => .ite ?_ (.finish _)
  refine .bind (interruptible_openFile _ _ _) fun file => ?_
  refine .bind (interruptible_setOpenf _ _) fun _ => ?_
  exact .bind (interruptible_setTableDescriptor _ _) fun _ => .finish _

theorem returning_scClose : Returning False fun host : Host W => scClose host := by
  refine .bind (interruptible_argument (by decide)) fun fID =>
    .ite (.finish _) (.ite ?_ (.finish _))
  refine .bind (interruptible_openf _) fun file => .ite (.finish _) ?_
  refine .bind (interruptible_deref _) fun f => .bind (interruptible_close _) fun _ => ?_
  refine .bind (interruptible_setOpenf _ _) fun _ => ?_
  refine .bind (interruptible_tableDescriptor _) fun _ => ?_
  exact .bind (interruptible_setTableDescriptor _ _) fun _ => .finish _

theorem returning_scSocketTCP : Returning False fun host : Host W => scSocketTCP host := by
  refine .bind (interruptible_ask (fun _ _ _ => rfl) nofun) fun socketID => .ite (.finish _) ?_
  refine .bind interruptible_fileSystem fun fs => .ite ?_ (.finish _)
  exact .bind (interruptible_setOpenf _ _) fun _ => .finish _

/-! The arguments of the calls that go to the rest of the kernel. -/

theorem interruptible_nameArgument : Interruptible C fun host : Host W => nameArgument host := by
  refine .bind (interruptible_readRegister (by decide)) fun virtAddr => ?_
  exact .bind (interruptible_user2System _ _) fun filename => .pure _

theorem interruptible_copyArgv (virtAddr : Word) (n i : ℕ) :
    Interruptible C fun host : Host W => copyArgv host virtAddr n i := by
  induction n generalizing i with
  | zero => exact .pure _
  | succ n ih =>
    refine .bind (interruptible_readMem _ (.inr (.inr rfl))) fun address => ?_
    exact .bind (interruptible_user2System _ _) fun buffer => .bind (ih _) fun rest => .pure _

theorem interruptible_scExecV : Interruptible C fun host : Host W => scExecV host := by
  refine .bind (interruptible_argument (by decide)) fun argc => ?_
  refine .bind (interruptible_readRegister (by decide)) fun virtAddr => ?_
  refine .bind (interruptible_assert _) fun _ => ?_
  exact .bind (interruptible_copyArgv _ _ _) fun argv => .pure _

end

end Sys
end Nachos

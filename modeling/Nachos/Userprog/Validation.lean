import Nachos.Userprog.Exception

/-! Which arguments the handlers of `Read`, `Write`, `Seek`, `Close`, `Connect`, `Send`,
`Receive`, `ReadString` and `PrintString` are safe on. Each tests the same things, the entry,
its range and the length, in an order of its own, and some leave one out. -/
namespace Nachos

/-- The system calls that take a descriptor or a buffer length. -/
inductive Call where
  | read | write | seek | close | connect | send | receive | readString | printString
  deriving DecidableEq

/-- An array was indexed outside its bounds, or a null pointer followed. -/
def Stop.isFault : Stop → Bool
  | .badIndex | .nullPointer => true
  | .trap _ | .abort => false

/-- What a refused call leaves: -1 in register 2, the next instruction, and all else as it was. -/
structure Refused {W : Type} (k k' : Kernel W) : Prop where
  result : k'.machine.registers 2 = -1
  registers : ∀ r, r ∉ [2, PCReg, NextPCReg, PrevPCReg] →
    k'.machine.registers r = k.machine.registers r
  machine : k'.machine = { k.machine with registers := k'.machine.registers }
  fileSystem : k'.fileSystem = k.fileSystem
  host : k'.host = k.host

/-- The target of a `Seek` is compared with the length, and found if it is not behind it. -/
def OpenFile.SeeksWithin {W : Type} (host : Host W) (f : OpenFile) (w : W) (pos : Word) : Prop :=
  f.Measures host w fun length w =>
    ¬ (pos.toInt > length.toInt ∨ pos.toInt < 0) → f.Finds host w pos

namespace Call

def idRegister : Call → Option (Fin NumTotalRegs)
  | .read | .write => some 6
  | .seek => some 5
  | .close | .connect | .send | .receive => some 4
  | .readString | .printString => none

def lengthRegister : Call → Option (Fin NumTotalRegs)
  | .read | .write | .readString | .printString => some 5
  | .send | .receive => some 6
  | .seek | .close | .connect => none

/-- The call is to be refused: its descriptor names no file, or its length is negative. -/
def Invalid (call : Call) (fs : FileSystem) (registers : Registers) : Prop :=
  (∃ r ∈ call.idRegister, fs.entry (registers r).toInt = none) ∨
    ∃ r ∈ call.lengthRegister, (registers r).toInt < 0

/-- Where the handler is safe. -/
def Guarded (fs : FileSystem) (registers : Registers) : Call → Prop
  | .read => ∀ f, fs.entry (registers 6).toInt = some f →
      (registers 6).toInt = 1 ∨ 1 ≤ (registers 5).toInt
  | .write => (0 ≤ (registers 6).toInt ∧ (registers 6).toInt < 20) ∧
      ∀ f, fs.entry (registers 6).toInt = some f →
        (registers 6).toInt ≠ 1 ∧ f.fdType ≠ 0 ∨ f.permission = 1 ∨ (registers 6).toInt = 0 ∨
          (registers 6).toInt = 1 ∧ 0 ≤ (registers 5).toInt ∨ 1 ≤ (registers 5).toInt
  | .seek | .close => True
  | .connect => fs.entry (registers 4).toInt ≠ none
  | .send => (0 ≤ (registers 4).toInt ∧ (registers 4).toInt < 20) ∧
      ∀ f, fs.entry (registers 4).toInt = some f →
        fs.index < (registers 4).toInt ∨ f.fdType ≠ 1 ∨ 0 ≤ (registers 6).toInt
  | .receive => (0 ≤ (registers 4).toInt ∧ (registers 4).toInt < 20) ∧
      ∀ f, fs.entry (registers 4).toInt = some f → f.fdType ≠ 1 ∨ 0 ≤ (registers 6).toInt
  | .readString => 1 ≤ (registers 5).toInt
  | .printString => 0 ≤ (registers 5).toInt

section

open Sys EStateM

variable {W : Type} (host : Host W)

def handler : Call → Sys W Unit
  | .read => scRead host
  | .write => scWrite host
  | .seek => scSeek host
  | .close => scClose host
  | .connect => scConnect host
  | .send => scSend host
  | .receive => scReceive host
  | .readString => scReadString host
  | .printString => scPrintString host

/-- The handler indexes and follows only what it may, and refuses what is to be refused. -/
def Validated (call : Call) (k : Kernel W) : Prop :=
  Ends (call.handler host) k
    (fun _ k' => call.Invalid k.fileSystem k.machine.registers → Refused k k')
    fun stop _ => stop.isFault = false ∧ ¬ call.Invalid k.fileSystem k.machine.registers

/-- What else a call relies on: a length that leaves room for one more byte in an `int`, and
answers of the host that pass the assertions. -/
def Supported (k : Kernel W) : Call → Prop
  | .read => ∀ f, k.fileSystem.entry (k.machine.registers 6).toInt = some f →
      (k.machine.registers 6).toInt ≠ 1 → (k.machine.registers 5).toInt + 1 < 2 ^ 31 ∧
        ((k.machine.registers 6).toInt ≠ 0 →
          f.Measures host (f.told host k.host).2 fun length w =>
            (f.told host k.host).1 ≠ length → f.Finds host w (f.told host k.host).1)
  | .write => ∀ f, k.fileSystem.entry (k.machine.registers 6).toInt = some f →
      ¬ ((k.machine.registers 6).toInt ≠ 1 ∧ f.fdType ≠ 0 ∨ f.permission = 1 ∨
        (k.machine.registers 6).toInt = 0) → (k.machine.registers 5).toInt + 1 < 2 ^ 31 ∧
        ((k.machine.registers 6).toInt ≠ 1 → ∀ n, 0 < n → n ≤ (k.machine.registers 5).toInt →
          (k.machine.registers 5).toInt ≤ n + 1 →
          f.Takes host (f.told host k.host).2 (f.told host k.host).1 n)
  | .seek => ∀ f, k.fileSystem.entry (k.machine.registers 5).toInt = some f →
      (k.machine.registers 5).toInt ≠ 0 → (k.machine.registers 5).toInt ≠ 1 →
        if k.machine.registers 4 = -1 then
          f.Measures host k.host fun pos w => f.SeeksWithin host w pos
        else f.SeeksWithin host k.host (k.machine.registers 4)
  | .close => ∀ f, k.fileSystem.entry (k.machine.registers 4).toInt = some f →
      0 ≤ (host.close k.host f.file).1.toInt
  | .connect => True
  | .send => ∀ f, k.fileSystem.entry (k.machine.registers 4).toInt = some f →
      (k.machine.registers 4).toInt ≤ k.fileSystem.index → f.fdType = 1 →
        (k.machine.registers 6).toInt + 1 < 2 ^ 31
  | .receive => ∀ f, k.fileSystem.entry (k.machine.registers 4).toInt = some f → f.fdType = 1 →
      (k.machine.registers 6).toInt + 1 < 2 ^ 31
  | .readString | .printString => (k.machine.registers 5).toInt + 1 < 2 ^ 31

end

end Call

open Sys EStateM Call

section

variable {W : Type} {host : Host W} {k k' : Kernel W} {fine : Prop}

/-- A stop that is no fault, and no failed assertion either where all is fine. -/
def Excused (fine : Prop) (stop : Stop) : Prop :=
  stop.isFault = false ∧ (fine → ∃ which, stop = .trap which ∧
    (which = .addressErrorException ∨ which = .readOnlyException ∨ which = .busErrorException))

theorem Excused.abort {C : Prop} (h : fine → C) {stop : Stop} (hstop : stop = .abort ∧ ¬ C) :
    Excused fine stop := by
  obtain ⟨rfl, hC⟩ := hstop
  exact ⟨rfl, fun hfine => absurd (h hfine) hC⟩

theorem Refusal.excused (h : fine → k.machine.Sound) {stop : Stop}
    (hstop : Refusal k.machine stop) : Excused fine stop := by
  rcases hstop with ⟨which, rfl, hwhich⟩ | habort
  · exact ⟨rfl, fun hfine => ⟨which, rfl, hwhich (h hfine)⟩⟩
  · exact .abort h habort

/-- The procedure stops for an excuse at most. -/
def Sane {α : Type} (fine : Prop) (x : Sys W α) (k : Kernel W) : Prop :=
  Ends x k (fun _ _ => True) fun stop _ => Excused fine stop

/-- What a handler does with a call: it refuses an invalid one, and carries out any other. -/
def Call.Handled (host : Host W) (call : Call) (k : Kernel W) : Prop :=
  Ends (call.handler host) k
    (fun _ k' => call.Invalid k.fileSystem k.machine.registers → Refused k k')
    fun stop _ => Excused (k.machine.Sound ∧ call.Supported host k) stop ∧
      ¬ call.Invalid k.fileSystem k.machine.registers

theorem Call.Handled.of_valid {call : Call}
    (hvalid : ¬ call.Invalid k.fileSystem k.machine.registers)
    (h : Sane (k.machine.Sound ∧ call.Supported host k) (call.handler host) k) :
    call.Handled host k :=
  h.mono (fun _ _ _ hinvalid => absurd hinvalid hvalid) fun _ _ hstop => ⟨hstop, hvalid⟩

theorem Call.Handled.of_refused {call : Call}
    (h : Ends (call.handler host) k (fun _ k' => Refused k k') fun _ _ => False) :
    call.Handled host k :=
  h.mono (fun _ _ hr _ => hr) fun _ _ hf => hf.elim

theorem refused_finish (k : Kernel W) :
    Refused k { k with machine := k.machine.finished (-1) } := by
  refine ⟨?_, ?_, rfl, rfl, rfl⟩
  · simp [Machine.finished, Machine.advanced, Function.update, PrevPCReg, PCReg, NextPCReg]
  · intro r hr
    simp only [List.mem_cons, List.not_mem_nil, or_false, not_or] at hr
    simp [Machine.finished, Machine.advanced, hr]

/-! The rules for the loops and the member functions, in a handler that is to be sane. -/

theorem sane_user2System {virtAddr : Word} {limit : ℤ} {Q : List UInt8 → Kernel W → Prop}
    (hsound : fine → k.machine.Sound) (hlimit : fine → 0 ≤ limit + 1 ∧ limit + 1 < 2 ^ 31)
    (hQ : ∀ buffer k', k.Accessed k' → (buffer.length : ℤ) = limit + 1 →
      (0 ≤ limit → buffer[limit.toNat]? = some 0) → Q buffer k') :
    Ends (user2System host virtAddr limit) k Q fun stop _ => Excused fine stop := by
  refine (ends_user2System host virtAddr limit).mono ?_ ?_
  · rintro buffer k' ⟨hk', hlength, hzero⟩
    exact hQ buffer k' hk' hlength hzero
  · rintro stop - (hstop | hstop)
    · exact hstop.excused hsound
    · exact .abort hlimit hstop

theorem sane_system2User {virtAddr : Word} {len : ℤ} {buffer : List UInt8}
    (hsound : fine → k.machine.Sound) (h : Bounded buffer 0 len.toNat) :
    Sane fine (system2User virtAddr len buffer) k :=
  (ends_system2User virtAddr h).mono (fun _ _ _ => trivial) fun _ _ hstop => hstop.excused hsound

theorem sane_readLine {virtAddr : Word} {len : ℤ} {buffer : List UInt8}
    (hsound : fine → k.machine.Sound) (hlen : 1 ≤ len) (hbuffer : len ≤ buffer.length) :
    Sane fine (readLine host virtAddr len buffer) k :=
  (ends_readLine host virtAddr hlen hbuffer).mono (fun _ _ _ => trivial)
    fun _ _ hstop => hstop.excused hsound

theorem sane_putString {len : ℤ} {buffer : List UInt8} {z : ℕ} (hz : buffer[z]? = some 0) :
    Sane fine (putString host len buffer) k :=
  (ends_putString host hz).mono (fun _ _ _ => trivial) fun _ _ hstop => hstop

theorem sane_onFile {α : Type} {f : OpenFile} {id : ℤ} {op : OpenFile → Sys W (α × OpenFile)}
    {P : α → OpenFile → W → Prop} {Q : α → Kernel W → Prop} {C : Prop}
    (he : k.fileSystem.entry id = some f)
    (hop : Ends (op f) k (Consulted f k P) fun stop _ => stop = .abort ∧ ¬ C) (hC : fine → C)
    (hQ : ∀ a f' k', k'.machine = k.machine → k'.fileSystem.entry id = some f' →
      f'.file = f.file → P a f' k'.host → Q a k') :
    Ends (onFile id op) k Q fun stop _ => Excused fine stop :=
  ends_onFile_of he hop hQ fun _ _ hstop => .abort hC hstop

theorem sane_getCurrentPos {f : OpenFile} {id : ℤ} {Q : Word → Kernel W → Prop}
    (he : k.fileSystem.entry id = some f)
    (hQ : ∀ pos f' k', k'.machine = k.machine → k'.fileSystem.entry id = some f' →
      f'.file = f.file → f'.currentOffset = pos ∧ (pos, k'.host) = f.told host k.host → Q pos k') :
    Ends (onFile id (OpenFile.getCurrentPos host)) k Q fun stop _ => Excused fine stop :=
  ends_onFile_of he (OpenFile.ends_getCurrentPos host) hQ fun _ _ hf => hf.elim

theorem sane_length {f : OpenFile} {id : ℤ} {P : Word → W → Prop} {Q : Word → Kernel W → Prop}
    (he : k.fileSystem.entry id = some f) (hmeasures : fine → f.Measures host k.host P)
    (hQ : ∀ length k', k'.machine = k.machine → k'.fileSystem.entry id = some f →
      (fine → P length k'.host) → Q length k') :
    Ends (onFile id (OpenFile.length host)) k Q fun stop _ => Excused fine stop := by
  refine ends_onFile_of he (OpenFile.ends_length host) ?_ fun _ _ hstop =>
    .abort hmeasures ⟨hstop.1, hstop.2 P⟩
  rintro length f' k' hk' he' - ⟨rfl, hP⟩
  exact hQ length k' hk' he' fun hf => hP P (hmeasures hf)

theorem invalid_iff_length {call : Call} {fs : FileSystem} {registers : Registers}
    {r : Fin NumTotalRegs} (hid : call.idRegister = none) (hlen : call.lengthRegister = some r) :
    call.Invalid fs registers ↔ (registers r).toInt < 0 := by
  simp [Invalid, hid, hlen]

theorem invalid_iff_entry {call : Call} {fs : FileSystem} {registers : Registers}
    {r : Fin NumTotalRegs} (hid : call.idRegister = some r) (hlen : call.lengthRegister = none) :
    call.Invalid fs registers ↔ fs.entry (registers r).toInt = none := by
  simp [Invalid, hid, hlen]

theorem invalid_iff {call : Call} {fs : FileSystem} {registers : Registers}
    {r r' : Fin NumTotalRegs} (hid : call.idRegister = some r)
    (hlen : call.lengthRegister = some r') :
    call.Invalid fs registers ↔
      fs.entry (registers r).toInt = none ∨ (registers r').toInt < 0 := by
  simp [Invalid, hid, hlen]

theorem handled_readString (h : Guarded k.fileSystem k.machine.registers .readString) :
    Call.readString.Handled host k := by
  simp only [Guarded] at h
  refine .of_valid ?_ ?_
  · rw [invalid_iff_length rfl rfl]
    omega
  · simp only [Sane, Call.handler, scReadString, ends_bind, ends_readRegister, ends_argument]
    refine sane_user2System (fun hf => hf.1) (fun hf => ⟨by omega, hf.2⟩) ?_
    rintro buffer k₁ hk₁ hlength -
    exact sane_readLine (fun hf => hk₁.sound hf.1) h (by omega)

theorem handled_printString (h : Guarded k.fileSystem k.machine.registers .printString) :
    Call.printString.Handled host k := by
  simp only [Guarded] at h
  refine .of_valid ?_ ?_
  · rw [invalid_iff_length rfl rfl]
    omega
  · simp only [Sane, Call.handler, scPrintString, ends_bind, ends_readRegister, ends_argument]
    refine sane_user2System (fun hf => hf.1) (fun hf => ⟨by omega, hf.2⟩) ?_
    rintro buffer k₁ - - hzero
    exact sane_putString (hzero h)

/-- The second half of `SC_Seek`, once the target is known. -/
theorem sane_seekWithin {f : OpenFile} {id : ℤ} (pos : Word)
    (he : k.fileSystem.entry id = some f) (hseeks : fine → f.SeeksWithin host k.host pos) :
    Ends (onFile id (OpenFile.length host)) k (fun length k' =>
        if pos.toInt > length.toInt ∨ pos.toInt < 0 then True
        else Sane fine (onFile id fun f => f.seek host pos) k')
      fun stop _ => Excused fine stop := by
  refine sane_length he hseeks ?_
  rintro length k' - he' hfinds
  split
  · trivial
  next hinside =>
    exact sane_onFile he' (OpenFile.ends_seek host pos) (fun hf => hfinds hf hinside)
      fun _ _ _ _ _ _ _ => trivial

theorem handled_seek : Call.seek.Handled host k := by
  cases he : k.fileSystem.entry (k.machine.registers 5).toInt with
  | none =>
    refine .of_refused ?_
    simp only [Call.handler, scSeek, ends_bind, ends_readRegister, ends_argument, ends_ite,
      ends_openf, he, if_true, ends_finish]
    split_ifs
    · exact refused_finish k
    · exact refused_finish k
    · omega
  | some f =>
    refine .of_valid ?_ ?_
    · rw [invalid_iff_entry rfl rfl, he]
      exact Option.some_ne_none f
    · have hr := FileSystem.range_of_entry he
      simp only [Sane, Call.handler, scSeek, ends_bind, ends_readRegister, ends_argument, ends_ite,
        ends_openf, he, hr, ends_finish, reduceCtorEq, if_false, and_self, if_true, ends_pure]
      split_ifs with _ hconsole hend
      · have hmeasures (hf : k.machine.Sound ∧ Call.seek.Supported host k) :
            f.Measures host k.host fun pos w => f.SeeksWithin host w pos := by
          have hanswers := hf.2 f he (fun h0 => hconsole (.inl h0)) fun h1 => hconsole (.inr h1)
          rwa [if_pos hend] at hanswers
        refine sane_length he hmeasures ?_
        rintro pos k' - he' hseeks
        exact sane_seekWithin pos he' hseeks
      · refine sane_seekWithin _ he fun hf => ?_
        have hanswers := hf.2 f he (fun h0 => hconsole (.inl h0)) fun h1 => hconsole (.inr h1)
        rwa [if_neg hend] at hanswers

theorem handled_close : Call.close.Handled host k := by
  cases he : k.fileSystem.entry (k.machine.registers 4).toInt with
  | none =>
    refine .of_refused ?_
    simp only [Call.handler, scClose, ends_bind, ends_argument, ends_ite, ends_openf, he, if_true,
      ends_finish]
    split_ifs
    · exact refused_finish k
    · exact refused_finish k
    · omega
    · exact refused_finish k
  | some f =>
    refine .of_valid ?_ ?_
    · rw [invalid_iff_entry rfl rfl, he]
      exact Option.some_ne_none f
    · have hr := FileSystem.range_of_entry he
      simp only [Sane, Call.handler, scClose, ends_bind, ends_argument, ends_ite, ends_openf, he,
        hr, ends_finish, reduceCtorEq, and_self, if_true, ends_deref, Option.elim_some,
        ends_close, ends_setOpenf, ends_tableDescriptor, ends_setTableDescriptor]
      split_ifs with _ _ hclosed
      · exact .abort (fun hf => hf.2 f he) ⟨rfl, hclosed⟩

theorem handled_connect (h : Guarded k.fileSystem k.machine.registers .connect) :
    Call.connect.Handled host k := by
  obtain ⟨f, he⟩ := Option.ne_none_iff_exists'.mp h
  have hr := FileSystem.range_of_entry he
  refine .of_valid ?_ ?_
  · rw [invalid_iff_entry rfl rfl]
    exact h
  · simp only [Sane, Call.handler, scConnect, ends_bind, ends_argument, ends_ite, ends_openf, he,
        hr, ends_finish, and_self, if_true, ends_deref, Option.elim_some, ends_readRegister]
    refine sane_user2System (fun hf => hf.1) (fun _ => by omega) fun buffer k₁ _ _ _ => ?_
    simp

theorem sane_readFile {f : OpenFile} {id len : ℤ} (virtAddr oldPos : Word) {buffer : List UInt8}
    (he : k.fileSystem.entry id = some f) (hlen : 1 ≤ len) (hbuffer : buffer.length = len + 1)
    (hsound : fine → k.machine.Sound) (hfinds : fine → f.Finds host k.host f.currentOffset) :
    Ends (onFile id fun f => f.read host buffer (len - 1)) k (fun r k' =>
        if r.1.toInt > 0 then
          Ends (poke r.2 (len - 1) 0) k' (fun buffer k' =>
              Ends (onFile id (OpenFile.getCurrentPos host)) k' (fun newPos k' =>
                  Sane fine (system2User virtAddr (newPos - oldPos).toInt buffer) k')
                fun stop _ => Excused fine stop)
            fun stop _ => Excused fine stop
        else True)
      fun stop _ => Excused fine stop := by
  have hcount : sizeT (len - 1) ≤ buffer.length := by
    have := sizeT_le (n := len - 1) (by omega)
    omega
  refine sane_onFile he (OpenFile.ends_read host hcount) hfinds ?_
  rintro ⟨numRead, buffer'⟩ f₁ k₁ hk₁ he₁ - hlength
  dsimp only at hlength ⊢
  split
  · rw [ends_poke, if_pos ⟨by omega, by omega⟩]
    refine sane_getCurrentPos he₁ ?_
    rintro newPos f₂ k₂ hk₂ - - -
    refine sane_system2User (fun hf => ?_) (.inr ⟨(len - 1).toNat, Nat.zero_le _, ?_⟩)
    · rw [hk₂, hk₁]
      exact hsound hf
    · rw [List.getElem?_set_self (by omega)]
  · trivial

theorem handled_read (h : Guarded k.fileSystem k.machine.registers .read) :
    Call.read.Handled host k := by
  simp only [Guarded] at h
  cases he : k.fileSystem.entry (k.machine.registers 6).toInt with
  | none =>
    refine .of_refused ?_
    simp only [Call.handler, scRead, ends_bind, ends_readRegister, ends_argument, ends_ite,
      ends_openf, he, if_true, ends_finish]
    split_ifs
    · exact refused_finish k
    · exact refused_finish k
    · omega
  | some f =>
    have hr := FileSystem.range_of_entry he
    have hrange : ¬ ((k.machine.registers 6).toInt > 19 ∨ (k.machine.registers 6).toInt < 0) := by
      omega
    by_cases hone : (k.machine.registers 6).toInt = 1
    · refine .of_refused ?_
      simp only [Call.handler, scRead, ends_bind, ends_readRegister, ends_argument, ends_ite,
        ends_openf, he, hr, hrange, reduceCtorEq, if_false, and_self, if_true, ends_finish]
      rw [if_pos hone]
      exact refused_finish k
    · have hlen := (h f he).resolve_left hone
      refine .of_valid ?_ ?_
      · rw [invalid_iff rfl rfl, he]
        simp only [reduceCtorEq, false_or]
        omega
      · simp only [Sane, Call.handler, scRead, ends_bind, ends_readRegister, ends_argument,
          ends_ite, ends_openf, he, hr, hrange, hone, reduceCtorEq, if_false, and_self, if_true,
          ends_finish]
        refine sane_getCurrentPos he ?_
        rintro oldPos f₁ k₁ hk₁ he₁ hfile₁ ⟨hoffset, htold⟩
        have hanswers (hf : k.machine.Sound ∧ Call.read.Supported host k) := hf.2 f he hone
        have hsound₁ (hf : k.machine.Sound ∧ Call.read.Supported host k) : k₁.machine.Sound :=
          hk₁ ▸ hf.1
        refine sane_user2System hsound₁ (fun hf => ⟨by omega, (hanswers hf).1⟩) ?_
        rintro buffer k₂ hk₂ hlength -
        rw [← hk₂.fileSystem] at he₁
        have hsound₂ (hf : k.machine.Sound ∧ Call.read.Supported host k) : k₂.machine.Sound :=
          hk₂.sound (hsound₁ hf)
        split
        · exact sane_readLine hsound₂ hlen (by omega)
        next hzero =>
        have hmeasures (hf : k.machine.Sound ∧ Call.read.Supported host k) :
            f₁.Measures host k₂.host fun length w =>
              oldPos ≠ length → f₁.Finds host w f₁.currentOffset := by
          have := (hanswers hf).2 hzero
          rw [← htold] at this
          rw [hk₂.host, hoffset]
          unfold OpenFile.Measures OpenFile.Finds OpenFile.told at this ⊢
          rw [hfile₁]
          exact this
        refine sane_length he₁ hmeasures ?_
        rintro length k₃ hk₃ he₃ hfinds
        split
        · trivial
        next hend =>
          refine sane_readFile (k.machine.registers 4) oldPos he₃ hlen hlength (fun hf => ?_)
            fun hf => hfinds hf fun heq => hend ⟨heq, by omega⟩
          rw [hk₃]
          exact hsound₂ hf

theorem sane_writeFile {f : OpenFile} {id len : ℤ} (virtAddr before : Word) {buffer : List UInt8}
    {z : ℕ} (he : k.fileSystem.entry id = some f) (hlen : 0 ≤ len) (hlen' : len < 2 ^ 31)
    (hbuffer : len ≤ buffer.length) (hzero : buffer[z]? = some 0)
    (hsound : fine → k.machine.Sound) (htakes : fine → f.Takes host k.host f.currentOffset len) :
    Ends (onFile id fun f => f.write host buffer len) k (fun written k' =>
        if written ≠ 0 then
          Ends (onFile id (OpenFile.getCurrentPos host)) k' (fun after k' =>
              Sane fine (system2User virtAddr (after - before).toInt buffer) k')
            fun stop _ => Excused fine stop
        else True)
      fun stop _ => Excused fine stop := by
  have hcount : sizeT len ≤ buffer.length := by
    have := sizeT_le hlen
    omega
  refine sane_onFile he (OpenFile.ends_write host hlen hlen' hcount) htakes ?_
  rintro written f₁ k₁ hk₁ he₁ - -
  split
  · refine sane_getCurrentPos he₁ ?_
    rintro after f₂ k₂ hk₂ - - -
    refine sane_system2User (fun hf => ?_) (.inr ⟨z, Nat.zero_le _, hzero⟩)
    rw [hk₂, hk₁]
    exact hsound hf
  · trivial

theorem handled_write (h : Guarded k.fileSystem k.machine.registers .write) :
    Call.write.Handled host k := by
  obtain ⟨hr, h⟩ := h
  cases he : k.fileSystem.entry (k.machine.registers 6).toInt with
  | none =>
    refine .of_refused ?_
    simp only [Call.handler, scWrite, ends_bind, ends_readRegister, ends_argument, ends_ite,
      ends_openf, he, hr, and_self, if_true, ends_finish]
    exact refused_finish k
  | some f =>
    have h := h f he
    have hrange : ¬ ((k.machine.registers 6).toInt > 19 ∨ (k.machine.registers 6).toInt < 0) := by
      omega
    by_cases hearly : (k.machine.registers 6).toInt ≠ 1 ∧ f.fdType ≠ 0 ∨ f.permission = 1 ∨
        (k.machine.registers 6).toInt = 0
    · refine .of_refused ?_
      simp only [Call.handler, scWrite, ends_bind, ends_readRegister, ends_argument, ends_ite,
        ends_openf, he, hr, hrange, reduceCtorEq, if_false, and_self, if_true, ends_finish,
        ends_deref, Option.elim_some]
      split_ifs
      · exact refused_finish k
      · exact refused_finish k
      · exact refused_finish k
      · omega
      · omega
    · refine .of_valid ?_ ?_
      · rw [invalid_iff rfl rfl, he]
        simp only [reduceCtorEq, false_or]
        omega
      simp only [Sane, Call.handler, scWrite, ends_bind, ends_readRegister, ends_argument, ends_ite,
        ends_openf, he, hr, hrange, reduceCtorEq, if_false, and_self, if_true, ends_finish,
        ends_deref, Option.elim_some, ends_increasePC]
      have hanswers (hf : k.machine.Sound ∧ Call.write.Supported host k) := hf.2 f he hearly
      split_ifs with hdisk hreadOnly hinput hconsole
      · refine sane_user2System (fun hf => hf.1) (fun hf => ⟨by omega, (hanswers hf).1⟩) ?_
        rintro buffer k₁ - - hzero
        exact sane_putString (hzero (by omega))
      · have hlen : 1 ≤ (k.machine.registers 5).toInt := by omega
        refine sane_user2System (fun hf => hf.1) (fun hf => ⟨by omega, (hanswers hf).1⟩) ?_
        rintro buffer k₁ hk₁ hlength hzero
        rw [← hk₁.fileSystem] at he
        refine sane_getCurrentPos he ?_
        rintro before f₁ k₂ hk₂ he₁ hfile ⟨hoffset, htold⟩
        rw [ends_peek, if_pos ⟨by omega, by omega⟩]
        generalize hn : (if buffer.getD ((k.machine.registers 5).toInt - 1).toNat 0 = 0 then
          (k.machine.registers 5).toInt - 1 else (k.machine.registers 5).toInt) = n
        have hn0 : 0 ≤ n ∧ n ≤ (k.machine.registers 5).toInt ∧
            (k.machine.registers 5).toInt ≤ n + 1 := by
          split at hn <;> omega
        have hmax := BitVec.toInt_lt (x := k.machine.registers 5)
        split
        · trivial
        refine sane_writeFile (k.machine.registers 4) before he₁ hn0.1 (by omega) (by omega)
          (hzero (by omega)) (fun hf => ?_) (fun hf => ?_)
        · rw [hk₂]
          exact hk₁.sound hf.1
        · have htakes := (hanswers hf).2 hconsole n (by omega) hn0.2.1 hn0.2.2
          rw [hk₁.host] at htold
          rw [← htold] at htakes
          unfold OpenFile.Takes OpenFile.Finds at htakes ⊢
          rw [hfile, hoffset]
          exact htakes

theorem handled_send (h : Guarded k.fileSystem k.machine.registers .send) :
    Call.send.Handled host k := by
  obtain ⟨hr, h⟩ := h
  cases he : k.fileSystem.entry (k.machine.registers 4).toInt with
  | none =>
    refine .of_refused ?_
    simp only [Call.handler, scSend, ends_bind, ends_argument, ends_ite,
      ends_openf, he, hr, and_self, if_true, ends_finish]
    exact refused_finish k
  | some f =>
    have h := h f he
    by_cases hlen : 0 ≤ (k.machine.registers 6).toInt
    · refine .of_valid ?_ ?_
      · rw [invalid_iff rfl rfl, he]
        simp only [reduceCtorEq, false_or]
        omega
      · simp only [Sane, Call.handler, scSend, ends_bind, ends_readRegister, ends_argument,
          ends_ite, ends_openf, he, hr, reduceCtorEq, if_false, and_self, if_true, ends_finish,
          ends_deref, Option.elim_some, ends_fileSystem, ends_bytesOf, ends_ask, ends_errno]
        split_ifs with hindex htype
        refine sane_user2System (fun hf => hf.1)
          (fun hf => ⟨by omega, hf.2 f he (by omega) htype⟩) ?_
        rintro buffer k₁ - hlength -
        have := sizeT_le hlen
        rw [if_pos (by omega)]
        split_ifs
    · refine .of_refused ?_
      simp only [Call.handler, scSend, ends_bind, ends_readRegister, ends_argument,
          ends_ite, ends_openf, he, hr, reduceCtorEq, if_false, and_self, if_true, ends_finish,
          ends_deref, Option.elim_some, ends_fileSystem]
      split_ifs with hrange htype
      · exact refused_finish k
      · omega
      · exact refused_finish k

theorem handled_receive (h : Guarded k.fileSystem k.machine.registers .receive) :
    Call.receive.Handled host k := by
  obtain ⟨hr, h⟩ := h
  cases he : k.fileSystem.entry (k.machine.registers 4).toInt with
  | none =>
    refine .of_refused ?_
    simp only [Call.handler, scReceive, ends_bind, ends_argument, ends_ite,
      ends_openf, he, hr, and_self, if_true, ends_finish]
    exact refused_finish k
  | some f =>
    have h := h f he
    have hrange : ¬ ((k.machine.registers 4).toInt > 19 ∨ (k.machine.registers 4).toInt < 0) := by
      omega
    by_cases hlen : 0 ≤ (k.machine.registers 6).toInt
    · refine .of_valid ?_ ?_
      · rw [invalid_iff rfl rfl, he]
        simp only [reduceCtorEq, false_or]
        omega
      · simp only [Sane, Call.handler, scReceive, ends_bind, ends_readRegister, ends_argument,
          ends_ite, ends_openf, he, hr, hrange, reduceCtorEq, if_false, and_self, if_true,
          ends_finish, ends_deref, Option.elim_some, ends_newChars, ends_received, ends_ask,
          ends_errno, List.length_map, List.length_range]
        split
        next htype =>
          split
          next hsize =>
            have hstored := Transfer.length_stored_le
              (host.recv k.host f.file (sizeT (k.machine.registers 6).toInt)).1
            have := sizeT_le hlen
            rw [if_pos (by omega)]
            split
            · split <;> trivial
            · refine sane_system2User (fun hf => hf.1) (.inl ?_)
              have := Transfer.toInt_value_le
                (host.recv k.host f.file (sizeT (k.machine.registers 6).toInt)).1
              rw [List.length_append]
              omega
          next hsize => exact .abort (fun hf => ⟨by omega, hf.2 f he htype⟩) ⟨rfl, hsize⟩
        · trivial
    · refine .of_refused ?_
      simp only [Call.handler, scReceive, ends_bind, ends_readRegister, ends_argument,
          ends_ite, ends_openf, he, hr, hrange, reduceCtorEq, if_false, and_self, if_true,
          ends_finish, ends_deref, Option.elim_some]
      rw [if_neg (h.resolve_right hlen)]
      exact refused_finish k

theorem Call.Guarded.handled {call : Call}
    (h : Guarded k.fileSystem k.machine.registers call) : call.Handled host k := by
  cases call with
  | read => exact handled_read h
  | write => exact handled_write h
  | seek => exact handled_seek
  | close => exact handled_close
  | connect => exact handled_connect h
  | send => exact handled_send h
  | receive => exact handled_receive h
  | readString => exact handled_readString h
  | printString => exact handled_printString h

theorem Call.Guarded.validated {call : Call}
    (h : Guarded k.fileSystem k.machine.registers call) : call.Validated host k :=
  h.handled.mono (fun _ _ hr => hr) fun _ _ hstop => ⟨hstop.1.1, hstop.2⟩

end

/-! A host on which every call outside `Guarded` goes wrong. -/

theorem length_replicate_le (count : ℕ) :
    ∀ stored ∈ some (List.replicate (min count 1) (65 : UInt8)),
      stored.length ≤ min count MaxTransfer := by
  rintro stored ⟨rfl⟩
  rw [List.length_replicate]
  exact min_le_min_left count (by decide)

/-- Every call succeeds; one byte is transferred where any is asked for, the letter `A`. -/
def greedyHost : Host Unit where
  openFd _ _ _ := (3, ())
  close _ _ := (0, ())
  lseek _ _ _ _ := (0, ())
  read _ _ count := (⟨_, length_replicate_le count⟩, ())
  write _ _ bytes := (BitVec.ofNat 32 bytes.length, ())
  unlink _ _ := (0, ())
  socket _ := (3, ())
  connect _ _ _ _ := (0, ())
  send _ _ bytes := (BitVec.ofNat 32 bytes.length, ())
  recv _ _ count := (⟨_, length_replicate_le count⟩, ())
  errno _ := 0
  getChar _ := (65, ())
  putChar _ _ := ()
  fresh _ _ := 0

section

variable {k : Kernel Unit}

/-- Without a newline, a loop whose bound is already passed leaves the buffer. -/
theorem ends_readChars_greedy {len size : ℤ} {buffer : List UInt8} (room : ℕ)
    {Q : ℤ × List UInt8 → Kernel Unit → Prop} {E : Stop → Kernel Unit → Prop} (hlen : len ≤ 0)
    (hsize : 0 ≤ size) :
    Ends (readChars greedyHost len room size buffer) k Q E ↔ E .badIndex k := by
  induction room generalizing size buffer with
  | zero => exact Iff.rfl
  | succ room ih =>
    simp only [readChars, ends_ite, ends_bind, ends_ask, ends_poke]
    rw [if_neg (by omega)]
    split
    · rw [if_neg (show ¬ (greedyHost.getChar k.host).1 = 10 by simp [greedyHost])]
      exact ih (by omega)
    · exact Iff.rfl

theorem ends_readLine_greedy (virtAddr : Word) {len : ℤ} {buffer : List UInt8}
    {Q : Unit → Kernel Unit → Prop} {E : Stop → Kernel Unit → Prop} (hlen : len ≤ 0) :
    Ends (readLine greedyHost virtAddr len buffer) k Q E ↔ E .badIndex k := by
  rw [readLine, ends_bind]
  exact ends_readChars_greedy _ hlen le_rfl

theorem not_validated_readString (h : ¬ Guarded k.fileSystem k.machine.registers .readString) :
    ¬ Call.readString.Validated greedyHost k := by
  simp only [Guarded, not_le] at h
  simp only [Validated, Call.handler, scReadString, ends_bind, ends_readRegister, ends_argument,
    invalid_iff_length (show Call.readString.idRegister = none from rfl) rfl]
  rw [ends_user2System_of_nonpos greedyHost _ (by omega)]
  split
  · rw [ends_readLine_greedy _ (by omega)]
    exact fun hf => Bool.noConfusion hf.1
  · rintro ⟨-, hvalid⟩
    omega

theorem not_validated_printString (h : ¬ Guarded k.fileSystem k.machine.registers .printString) :
    ¬ Call.printString.Validated greedyHost k := by
  simp only [Guarded, not_le] at h
  simp only [Validated, Call.handler, scPrintString, ends_bind, ends_readRegister, ends_argument,
    invalid_iff_length (show Call.printString.idRegister = none from rfl) rfl]
  rw [ends_user2System_of_nonpos greedyHost _ (by omega)]
  split
  next hone =>
    have hlen : (k.machine.registers 5).toInt = -1 := by omega
    rw [hlen]
    exact fun hf => Bool.noConfusion hf.1
  · rintro ⟨-, hvalid⟩
    omega

theorem not_validated_connect (h : ¬ Guarded k.fileSystem k.machine.registers .connect) :
    ¬ Call.connect.Validated greedyHost k := by
  have he : k.fileSystem.entry (k.machine.registers 4).toInt = none := by
    simpa only [Guarded, ne_eq, not_not] using h
  simp only [Validated, Call.handler, scConnect, ends_bind, ends_argument, ends_openf, he,
    ends_deref, Option.elim_none]
  split
  · exact fun hf => Bool.noConfusion hf.1
  · exact fun hf => Bool.noConfusion hf.1

@[simp] theorem toInt_greedyHost_lseek (w : Unit) (fd offset : Word) (whence : ℕ) :
    (greedyHost.lseek w fd offset whence).1.toInt = 0 := rfl

/-- A count that is negative as an `int` asks for many bytes; one arrives. -/
theorem ends_read_greedy {f : OpenFile} {into : List UInt8} {n : ℤ} (hn : 0 < sizeT n)
    {Q : (Word × List UInt8) × OpenFile → Kernel Unit → Prop} {E : Stop → Kernel Unit → Prop} :
    Ends (f.read greedyHost into n) k Q E ↔ if 1 ≤ into.length then
      Q ((1, 65 :: into.drop 1), { f with currentOffset := f.currentOffset + 1 }) k
      else E .badIndex k := by
  have hmin : min (sizeT n) 1 = 1 := min_eq_right hn
  have hstored (w : Unit) : (greedyHost.read w f.file (sizeT n)).1.stored = [65] :=
    congrArg (List.replicate · 65) hmin
  have hvalue (w : Unit) : (greedyHost.read w f.file (sizeT n)).1.value = 1 :=
    congrArg (fun count => BitVec.ofNat 32 (List.replicate count (65 : UInt8)).length) hmin
  simp only [OpenFile.read, OpenFile.readAt, ends_bind, ends_lseek, ends_readPartial, ends_pure,
    toInt_greedyHost_lseek, le_refl, if_true, hstored, hvalue, List.length_singleton,
    List.singleton_append]

theorem not_validated_read (h : ¬ Guarded k.fileSystem k.machine.registers .read) :
    ¬ Call.read.Validated greedyHost k := by
  simp only [Guarded, not_forall, not_or, not_le] at h
  obtain ⟨f, he, hone, hlen⟩ := h
  have hr := FileSystem.range_of_entry he
  have hrange : ¬ ((k.machine.registers 6).toInt > 19 ∨ (k.machine.registers 6).toInt < 0) := by
    omega
  intro hv
  simp only [Validated, Call.handler, scRead, ends_bind, ends_readRegister, ends_argument,
    ends_ite, ends_openf, he, hr, hrange, hone, reduceCtorEq, if_false, and_self, if_true,
    ends_finish, invalid_iff (show Call.read.idRegister = some 6 from rfl) rfl, false_or] at hv
  rw [ends_onFile he] at hv
  simp only [OpenFile.getCurrentPos, ends_bind, ends_tell, ends_pure] at hv
  rw [ends_user2System_of_nonpos greedyHost _ (by omega)] at hv
  split at hv
  · split at hv
    · rw [ends_readLine_greedy _ (by omega)] at hv
      exact Bool.noConfusion hv.1
    · rw [ends_onFile (FileSystem.entry_setEntry hr _)] at hv
      simp only [OpenFile.length, ends_bind, ends_lseek, ends_tell, ends_pure,
        toInt_greedyHost_lseek, le_refl, if_true] at hv
      rw [if_neg (by omega), ends_onFile (FileSystem.entry_setEntry hr _)] at hv
      obtain hzero | hneg : (k.machine.registers 5).toInt = 0 ∨
          (k.machine.registers 5).toInt = -1 := by omega
      · rw [hzero, ends_read_greedy (by decide), if_pos (by decide)] at hv
        simp only [ends_poke] at hv
        rw [if_pos (by decide), if_neg (by decide)] at hv
        exact Bool.noConfusion hv.1
      · rw [hneg, ends_read_greedy (by decide), if_neg (by decide)] at hv
        exact Bool.noConfusion hv.1
  · have := hv.2
    omega

theorem not_validated_write (h : ¬ Guarded k.fileSystem k.machine.registers .write) :
    ¬ Call.write.Validated greedyHost k := by
  intro hv
  by_cases hr : 0 ≤ (k.machine.registers 6).toInt ∧ (k.machine.registers 6).toInt < 20
  · simp only [Guarded, not_and_or, not_forall] at h
    obtain ⟨f, he, h⟩ := h.resolve_left (by omega)
    have hrange : ¬ ((k.machine.registers 6).toInt > 19 ∨ (k.machine.registers 6).toInt < 0) := by
      omega
    have hdisk : ¬ ((k.machine.registers 6).toInt ≠ 1 ∧ f.fdType ≠ 0) := by omega
    simp only [Validated, Call.handler, scWrite, ends_bind, ends_readRegister, ends_argument,
      ends_ite, ends_openf, hr, and_self, if_true, he, hrange, hdisk, reduceCtorEq, if_false,
      ends_deref, Option.elim_some,
      invalid_iff (show Call.write.idRegister = some 6 from rfl) rfl, false_or] at hv
    rw [if_neg (by omega), if_neg (by omega)] at hv
    split at hv
    · rw [ends_user2System_of_nonpos greedyHost _ (by omega)] at hv
      split at hv
      · have hlen : (k.machine.registers 5).toInt = -1 := by omega
        rw [hlen] at hv
        exact Bool.noConfusion hv.1
      · have := hv.2
        omega
    · rw [ends_user2System_of_nonpos greedyHost _ (by omega)] at hv
      split at hv
      · rw [ends_onFile he] at hv
        simp only [OpenFile.getCurrentPos, ends_bind, ends_tell, ends_pure, ends_peek] at hv
        rw [if_neg (by omega)] at hv
        exact Bool.noConfusion hv.1
      · have := hv.2
        omega
  · rw [Validated, Call.handler, scWrite, ends_bind, ends_readRegister, ends_bind, ends_argument,
      ends_bind, ends_argument, ends_bind, ends_openf, if_neg hr] at hv
    exact Bool.noConfusion hv.1

theorem not_validated_send (h : ¬ Guarded k.fileSystem k.machine.registers .send) :
    ¬ Call.send.Validated greedyHost k := by
  intro hv
  simp only [Validated, Call.handler, scSend, ends_bind, ends_readRegister, ends_argument,
    ends_ite, ends_openf] at hv
  split at hv
  next hr =>
    simp only [Guarded, not_and_or, not_forall, not_or, not_not] at h
    obtain ⟨f, he, hindex, htype, hlen⟩ := h.resolve_left (by omega)
    simp only [he, htype, reduceCtorEq, if_false, if_true, ends_deref, Option.elim_some,
      ends_fileSystem, invalid_iff (show Call.send.idRegister = some 4 from rfl) rfl,
      false_or] at hv
    rw [if_neg (by omega), ends_user2System_of_nonpos greedyHost _ (by omega)] at hv
    split at hv
    · have hlen : (k.machine.registers 6).toInt = -1 := by omega
      rw [hlen, ends_bytesOf, if_neg (by decide)] at hv
      exact Bool.noConfusion hv.1
    · have := hv.2
      omega
  · exact Bool.noConfusion hv.1

theorem not_validated_receive (h : ¬ Guarded k.fileSystem k.machine.registers .receive) :
    ¬ Call.receive.Validated greedyHost k := by
  intro hv
  simp only [Validated, Call.handler, scReceive, ends_bind, ends_readRegister, ends_argument,
    ends_ite, ends_openf] at hv
  split at hv
  next hr =>
    simp only [Guarded, not_and_or, not_forall] at h
    obtain ⟨f, he, h⟩ := h.resolve_left (by omega)
    have hrange : ¬ ((k.machine.registers 4).toInt > 19 ∨ (k.machine.registers 4).toInt < 0) := by
      omega
    have htype : f.fdType = 1 := by omega
    simp only [he, hrange, htype, reduceCtorEq, if_false, if_true, ends_deref, Option.elim_some,
      ends_newChars, ends_ask, ends_received,
      invalid_iff (show Call.receive.idRegister = some 4 from rfl) rfl, false_or] at hv
    split at hv
    · have hlen : (k.machine.registers 6).toInt = -1 := by omega
      rw [hlen] at hv
      exact Bool.noConfusion hv.1
    · have := hv.2
      omega
  · exact Bool.noConfusion hv.1

theorem not_validated_of_not_guarded {call : Call}
    (h : ¬ Guarded k.fileSystem k.machine.registers call) : ¬ call.Validated greedyHost k := by
  cases call with
  | read => exact not_validated_read h
  | write => exact not_validated_write h
  | seek => exact absurd trivial h
  | close => exact absurd trivial h
  | connect => exact not_validated_connect h
  | send => exact not_validated_send h
  | receive => exact not_validated_receive h
  | readString => exact not_validated_readString h
  | printString => exact not_validated_printString h

end

/-- A handler validates its arguments whatever the host answers exactly where it is guarded. -/
theorem arguments_validated_iff (call : Call) (m : Machine) (fs : FileSystem) :
    (∀ (W : Type) (host : Host W) (w : W), call.Validated host ⟨m, fs, w⟩) ↔
      call.Guarded fs m.registers := by
  constructor
  · intro h
    by_contra hguarded
    exact not_validated_of_not_guarded (k := ⟨m, fs, ()⟩) hguarded (h Unit greedyHost ())
  · intro h W host w
    exact h.validated

/-- A machine about to call `Write(0, 10, -1)`. -/
def writeToMinusOne : Machine where
  registers r := if r = 6 then -1 else if r = 5 then 10 else if r = 2 then 8 else 0
  mainMemory _ := 0
  pageTable := none
  pageTableSize := 0
  tables _ := []

/-- On the table the constructor leaves, `SC_Write` reads `openf[-1]` before it tests the range. -/
theorem arguments_not_validated_writeToMinusOne :
    ∃ k, FileSystem.new greedyHost ⟨writeToMinusOne, .blank, ()⟩ = .ok () k ∧
      Ends (scWrite greedyHost) k (fun _ _ => False) (fun stop _ => stop = .badIndex) ∧
        ¬ Call.write.Validated greedyHost k := by
  refine ⟨_, rfl, rfl, ?_⟩
  refine not_validated_write fun h => ?_
  exact absurd h.1.1 (by decide)

/-- On a machine whose page table is in order, and with the answers that it relies on, a guarded
call fails no assertion: it ends in the kernel, or at an address that the program may not use. -/
theorem guarded_call_ends {W : Type} {host : Host W} {k : Kernel W} {call : Call}
    (hsound : k.machine.Sound) (hsupported : call.Supported host k)
    (hguarded : call.Guarded k.fileSystem k.machine.registers) :
    Ends (call.handler host) k
      (fun _ k' => call.Invalid k.fileSystem k.machine.registers → Refused k k')
      fun stop _ => ¬ call.Invalid k.fileSystem k.machine.registers ∧ ∃ which,
        stop = .trap which ∧ (which = .addressErrorException ∨ which = .readOnlyException ∨
          which = .busErrorException) :=
  hguarded.handled.mono (fun _ _ hr => hr) fun _ _ ⟨hexcused, hvalid⟩ =>
    ⟨hvalid, hexcused.2 ⟨hsound, hsupported⟩⟩

/-- A machine about to call `ReadString(0, 5)`, for a program with one page. -/
def readsFive : Machine where
  registers r := if r = 5 then 5 else 0
  mainMemory _ := 0
  pageTable := some 0
  pageTableSize := 1
  tables _ := [AddrSpace.freshEntry 0 0]

theorem guarded_call_ends_readsFive : ∃ k : Kernel Unit, k.machine = readsFive ∧
    Ends (Call.readString.handler greedyHost) k (fun _ _ => True)
      fun stop _ => ∃ which, stop = .trap which := by
  obtain ⟨k, hk⟩ : ∃ k : Kernel Unit, k.machine = readsFive := ⟨⟨readsFive, .blank, ()⟩, rfl⟩
  have hsound : k.machine.Sound := by
    rw [hk]
    refine ⟨by decide, _, rfl, le_rfl, fun entry hentry => ?_⟩
    rw [List.mem_singleton.mp hentry]
    rfl
  have hfive : (k.machine.registers 5).toInt = 5 := by
    rw [hk]
    decide
  have hsupported : Call.readString.Supported greedyHost k := by
    simp only [Call.Supported, hfive]
    decide
  have hguarded : Call.Guarded k.fileSystem k.machine.registers .readString := by
    simp only [Call.Guarded, hfive]
    decide
  have hends := guarded_call_ends hsound hsupported hguarded
  exact ⟨k, hk, hends.mono (fun _ _ _ => trivial)
    fun _ _ ⟨_, which, hstop, _⟩ => ⟨which, hstop⟩⟩

end Nachos

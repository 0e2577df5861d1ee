import Nachos.Machine.Effects
import Nachos.Userprog.AddrSpace

/-! The routines a forked process starts in (`threads/pcb.cc`). `StartProcess_2` copies
the arguments with `WriteMem` before the new space is installed, so the copy goes
through whatever page table and stack register the machine holds at that moment. A
`WriteMem` that fails traps to `ExceptionHandler`, which does not come back. -/
namespace Nachos

/-- The characters of a C string before its terminator. -/
abbrev CString := { s : List UInt8 // 0 ∉ s }

def strlen (s : CString) : ℕ := s.val.length

/-- The string `""`. -/
def emptyString : CString := ⟨[], List.not_mem_nil⟩

/-- A `char` as the `int` argument of `WriteMem`. -/
def charValue (ch : UInt8) : Word := (BitVec.ofNat 8 ch.toNat).signExtend 32

namespace Sim

/-- The loop of `WriteStrToMem` at index `i`, with `n` turns left before `size`. -/
def writeChars (virtAddr : Word) (buffer : List UInt8) (i : ℕ) : ℕ → Sim ℕ
  | 0 => pure i
  | n + 1 =>
    let ch := buffer.getD i 0
    if ch = 0 then pure i
    else do
      writeMem (virtAddr + BitVec.ofNat 32 i) 1 (charValue ch)
      writeChars virtAddr buffer (i + 1) n

/-- `WriteStrToMem`. The terminator goes one place after the end of the string. -/
def writeStrToMem (virtAddr : Word) (buffer : List UInt8) (size : ℤ) : Sim ℤ :=
  if size ≤ 0 then pure (-1)
  else do
    let i ← writeChars virtAddr buffer 0 size.toNat
    writeMem (virtAddr + BitVec.ofNat 32 (i + 1)) 1 0
    return (i : ℤ) + 1

/-- The loop of `StartProcess_2` from argument `i` on; `false` is its early return. -/
def writeArguments (stackBottom : Word) (i : ℕ) (argHead : Word) : List CString → Sim Bool
  | [] => pure true
  | arg :: rest => do
    writeMem (stackBottom + BitVec.ofNat 32 (i * 4)) 4 argHead
    let len ← writeStrToMem argHead arg.val (strlen arg)
    if len = -1 then return false
    else writeArguments stackBottom (i + 1) (argHead + BitVec.ofInt 32 len) rest

end Sim

/-- How a start routine ends: back in `ThreadRoot`, whose next call is `Thread::Finish`;
in `ExceptionHandler`; in `Machine::Run`; or at a failed assertion. -/
inductive Started where
  | returned
  | exception (which : ExceptionType) (m : Machine)
  | run (m : Machine)
  | abort

/-- What a start routine finds when it runs. -/
structure StartEnv where
  /-- The answer to the `Open` of `StartProcess_2`. -/
  opened : Option HostFile
  /-- The answer to the `Open` of the constructor. -/
  executable : Option HostFile
  gPhysPageBitMap : Bitmap NumPhysPages
  /-- The machine when the constructor returns. -/
  machine : Machine
  /-- Where the constructor's `new` puts the table, and what the object held before. -/
  tableAddress : ℕ
  stale : AddrSpace.Members

/-- `new AddrSpace(fileName)`. A file that does not open leaves both members unset, too
few frames leave `pageTable` unset. -/
def StartEnv.newSpace (env : StartEnv) : Option (AddrSpace.Members × Machine) :=
  match AddrSpace.new env.executable env.gPhysPageBitMap with
  | none => none
  | some .notOpened => some (env.stale, env.machine)
  | some .refused => some (⟨env.stale.pageTable, 0⟩, env.machine)
  | some (.loaded space _ _) => some (⟨some env.tableAddress, space.numPages⟩, { env.machine with
      tables := Function.update env.machine.tables env.tableAddress space.pageTable })

/-- `StartProcess_1`. The test on `NULL` never succeeds, because `new` does not return it,
and `Execute` does not return from `Machine::Run`. -/
def startProcess1 (env : StartEnv) : Started :=
  match env.newSpace with
  | none => .abort
  | some (space, m) => .run (AddrSpace.execute space m)

/-- The low end of the stack as `StartProcess_2` computes it. -/
def stackBottom (m : Machine) : Word :=
  m.registers StackReg + 16 - BitVec.ofNat 32 UserStackSize + 16

/-- `StartProcess_2` on the `NULL`-terminated array `argv`. -/
def startProcess2 (env : StartEnv) (argv : List CString) : Started :=
  match env.opened with
  | none => .returned
  | some _ =>
    match env.newSpace with
    | none => .abort
    | some (space, m) =>
      let argHead := stackBottom m + BitVec.ofNat 32 (4 * argv.length)
      match Sim.writeArguments (stackBottom m) 0 argHead argv m with
      | .abort => .abort
      | .trap which m' => .exception which m'
      | .ok false _ => .returned
      | .ok true m' =>
        let m' := AddrSpace.execute space m'
        .run { m' with
          registers := Function.update (Function.update m'.registers 4
            (BitVec.ofNat 32 argv.length)) 5 (stackBottom m) }

/-- The writes of `WriteStrToMem` for a string of `n` characters. -/
def stringSpans (virtAddr : Word) (n : ℕ) : List (Word × ℕ) :=
  (List.range n).map (fun i => (virtAddr + BitVec.ofNat 32 i, 1)) ++
    [(virtAddr + BitVec.ofNat 32 (n + 1), 1)]

/-- The writes `StartProcess_2` means to make, up to the first empty argument. -/
def argumentSpans (stackBottom : Word) (i : ℕ) (argHead : Word) :
    List CString → List (Word × ℕ)
  | [] => []
  | arg :: rest => (stackBottom + BitVec.ofNat 32 (i * 4), 4) ::
      if strlen arg = 0 then []
      else stringSpans argHead (strlen arg) ++
        argumentSpans stackBottom (i + 1) (argHead + BitVec.ofNat 32 (strlen arg + 1)) rest

/-- When `StartProcess_2` gives up: its file does not open, or it comes to an empty
argument without any write failing before. -/
def ReturnsEarly (env : StartEnv) (argv : List CString) : Prop :=
  env.opened = none ∨ ∃ space m, env.newSpace = some (space, m) ∧ (∃ arg ∈ argv, strlen arg = 0) ∧
    ∀ span ∈ argumentSpans (stackBottom m) 0
      (stackBottom m + BitVec.ofNat 32 (4 * argv.length)) argv, m.Writable span

namespace Sim

theorem writeChars_ok_iff (virtAddr : Word) {buffer : List UInt8} (hbuf : 0 ∉ buffer) {n r : ℕ} :
    ∀ {i : ℕ} {m : Machine}, i + n ≤ buffer.length →
      ((∃ m', writeChars virtAddr buffer i n m = .ok r m') ↔
        r = i + n ∧ ∀ k < n, m.Writable (virtAddr + BitVec.ofNat 32 (i + k), 1)) := by
  induction n with
  | zero =>
    intro i m _
    simp only [writeChars, Nat.add_zero, Nat.not_lt_zero, false_implies, implies_true, and_true]
    constructor
    · rintro ⟨m', h⟩
      cases h
      rfl
    · rintro rfl
      exact ⟨m, rfl⟩
  | succ n ih =>
    intro i m hlen
    have hi : i < buffer.length := by omega
    have hch : buffer.getD i 0 ≠ 0 := by
      rw [List.getD_eq_getElem?_getD, List.getElem?_eq_getElem hi]
      intro h
      exact hbuf (h ▸ List.getElem_mem hi)
    simp only [writeChars, if_neg hch]
    constructor
    · rintro ⟨m', h⟩
      obtain ⟨_, m₁, hw, hrest⟩ := bind_eq_ok_iff.mp h
      have hc := (keeps_writeMem _ _ _).confined hw
      obtain ⟨rfl, hspans⟩ := (ih (by omega)).mp ⟨m', hrest⟩
      refine ⟨by omega, ?_⟩
      intro k hk
      cases k with
      | zero => exact (writeMem_ok_iff _ (by simp)).mp ⟨m₁, hw⟩
      | succ k =>
        have := (hc.writable_iff _).mp (hspans k (by omega))
        rwa [show i + 1 + k = i + (k + 1) by omega] at this
    · rintro ⟨rfl, hspans⟩
      obtain ⟨m₁, hw⟩ := (writeMem_ok_iff (charValue (buffer.getD i 0))
        (by simp)).mpr (hspans 0 (by omega))
      have hc := (keeps_writeMem _ _ _).confined hw
      obtain ⟨m', hrest⟩ := (ih (i := i + 1) (m := m₁) (by omega)).mpr ⟨by omega, by
        intro k hk
        rw [hc.writable_iff, show i + 1 + k = i + (k + 1) by omega]
        exact hspans (k + 1) (by omega)⟩
      exact ⟨m', bind_eq_ok_iff.mpr ⟨(), m₁, hw, hrest⟩⟩

theorem keeps_writeChars (virtAddr : Word) (buffer : List UInt8) (i n : ℕ) :
    Keeps (writeChars virtAddr buffer i n) := by
  induction n generalizing i with
  | zero => exact keeps_pure _
  | succ n ih =>
    unfold writeChars
    dsimp only
    split
    · exact keeps_pure _
    · exact keeps_bind (keeps_writeMem _ _ _) fun _ => ih _

theorem keeps_writeStrToMem (virtAddr : Word) (buffer : List UInt8) (size : ℤ) :
    Keeps (writeStrToMem virtAddr buffer size) := by
  unfold writeStrToMem
  split
  · exact keeps_pure _
  · refine keeps_bind (keeps_writeChars _ _ _ _) fun i => ?_
    exact keeps_bind (keeps_writeMem _ _ _) fun _ => keeps_pure _

theorem mem_stringSpans {virtAddr : Word} {n : ℕ} {span : Word × ℕ} :
    span ∈ stringSpans virtAddr n ↔ (∃ k < n, span = (virtAddr + BitVec.ofNat 32 k, 1)) ∨
      span = (virtAddr + BitVec.ofNat 32 (n + 1), 1) := by
  simp only [stringSpans, List.mem_append, List.mem_map, List.mem_range, List.mem_singleton]
  constructor
  · rintro (⟨k, hk, rfl⟩ | rfl)
    · exact .inl ⟨k, hk, rfl⟩
    · exact .inr rfl
  · rintro (⟨k, hk, rfl⟩ | rfl)
    · exact .inl ⟨k, hk, rfl⟩
    · exact .inr rfl

theorem writeStrToMem_ok_iff (virtAddr : Word) {arg : CString} {len : ℤ} {m : Machine} :
    (∃ m', writeStrToMem virtAddr arg.val (strlen arg) m = .ok len m') ↔
      (strlen arg = 0 ∧ len = -1) ∨ (strlen arg ≠ 0 ∧ len = strlen arg + 1 ∧
        ∀ span ∈ stringSpans virtAddr (strlen arg), m.Writable span) := by
  unfold writeStrToMem
  by_cases hzero : strlen arg = 0
  · simp only [hzero, Nat.cast_zero, le_refl, if_true, true_and, ne_eq, not_true_eq_false,
      false_and, or_false]
    constructor
    · rintro ⟨m', h⟩
      cases h
      rfl
    · rintro rfl
      exact ⟨m, rfl⟩
  rw [if_neg (by omega), Int.toNat_natCast]
  simp only [hzero, false_and, ne_eq, not_false_eq_true, true_and, false_or]
  have hchars {r : ℕ} := writeChars_ok_iff virtAddr (m := m) (i := 0) (r := r)
    arg.property (Nat.le_of_eq (Nat.zero_add (strlen arg)))
  simp only [Nat.zero_add] at hchars
  constructor
  · rintro ⟨m', h⟩
    obtain ⟨r, m₁, hw, h⟩ := bind_eq_ok_iff.mp h
    obtain ⟨_, m₂, hterm, h⟩ := bind_eq_ok_iff.mp h
    obtain ⟨rfl, hspans⟩ := hchars.mp ⟨m₁, hw⟩
    have hc := (keeps_writeChars _ _ _ _).confined hw
    have hlast := (hc.writable_iff _).mp ((writeMem_ok_iff _ (by simp)).mp ⟨m₂, hterm⟩)
    cases h
    refine ⟨rfl, ?_⟩
    intro span hs
    rcases mem_stringSpans.mp hs with ⟨k, hk, rfl⟩ | rfl
    · exact hspans k hk
    · exact hlast
  · rintro ⟨rfl, hspans⟩
    obtain ⟨m₁, hw⟩ := hchars.mpr ⟨rfl, fun k hk =>
      hspans _ (mem_stringSpans.mpr (.inl ⟨k, hk, rfl⟩))⟩
    have hc := (keeps_writeChars _ _ _ _).confined hw
    obtain ⟨m₂, hterm⟩ := (writeMem_ok_iff 0 (by simp)).mpr
      ((hc.writable_iff _).mpr (hspans _ (mem_stringSpans.mpr (.inr rfl))))
    exact ⟨m₂, bind_eq_ok_iff.mpr ⟨_, m₁, hw, bind_eq_ok_iff.mpr ⟨(), m₂, hterm, rfl⟩⟩⟩

/-- The loop over the arguments ends without a trap just when every write it comes to is
possible in the machine it starts from, and it succeeds when no argument is empty. -/
theorem writeArguments_ok_iff (stackBottom : Word) (argv : List CString) {b : Bool} :
    ∀ (i : ℕ) (argHead : Word) {m : Machine},
      (∃ m', writeArguments stackBottom i argHead argv m = .ok b m') ↔
        b = argv.all (fun arg => strlen arg ≠ 0) ∧
          ∀ span ∈ argumentSpans stackBottom i argHead argv, m.Writable span := by
  induction argv with
  | nil =>
    intro i argHead m
    simp only [writeArguments, argumentSpans, List.all_nil, List.not_mem_nil, false_implies,
      implies_true, and_true]
    constructor
    · rintro ⟨m', h⟩
      cases h
      rfl
    · rintro rfl
      exact ⟨m, rfl⟩
  | cons arg rest ih =>
    intro i argHead m
    simp only [writeArguments, argumentSpans, List.all_cons, List.mem_cons, forall_eq_or_imp]
    constructor
    · rintro ⟨m', h⟩
      obtain ⟨_, m₁, hpointer, h⟩ := bind_eq_ok_iff.mp h
      obtain ⟨len, m₂, hstring, h⟩ := bind_eq_ok_iff.mp h
      have hc := (keeps_writeMem _ _ _).confined hpointer
      have hc' := hc.trans ((keeps_writeStrToMem _ _ _).confined hstring)
      have hfirst := (writeMem_ok_iff _ (by simp)).mp ⟨m₁, hpointer⟩
      rcases (writeStrToMem_ok_iff _).mp ⟨m₂, hstring⟩ with ⟨hzero, rfl⟩ | ⟨hlen, rfl, hspans⟩
      · rw [if_pos rfl] at h
        cases h
        simp [hzero, hfirst]
      · rw [if_neg (by omega)] at h
        obtain ⟨rfl, hrest⟩ := (ih _ _).mp ⟨m', h⟩
        refine ⟨by simp [hlen], hfirst, ?_⟩
        intro span hs
        rw [if_neg hlen, List.mem_append] at hs
        rcases hs with hs | hs
        · exact (hc.writable_iff _).mp (hspans span hs)
        · exact (hc'.writable_iff _).mp (hrest span hs)
    · rintro ⟨rfl, hfirst, hspans⟩
      obtain ⟨m₁, hpointer⟩ := (writeMem_ok_iff argHead (by simp)).mpr hfirst
      have hc := (keeps_writeMem _ _ _).confined hpointer
      by_cases hzero : strlen arg = 0
      · obtain ⟨m₂, hstring⟩ := (writeStrToMem_ok_iff argHead (m := m₁)).mpr
          (.inl ⟨hzero, rfl⟩)
        refine ⟨m₂, bind_eq_ok_iff.mpr ⟨(), m₁, hpointer,
          bind_eq_ok_iff.mpr ⟨_, m₂, hstring, ?_⟩⟩⟩
        rw [if_pos rfl]
        simp [hzero]
        rfl
      · rw [if_neg hzero] at hspans
        obtain ⟨m₂, hstring⟩ := (writeStrToMem_ok_iff argHead (m := m₁)).mpr
          (.inr ⟨hzero, rfl, fun span hs =>
            (hc.writable_iff _).mpr (hspans span (List.mem_append_left _ hs))⟩)
        have hc' := hc.trans ((keeps_writeStrToMem _ _ _).confined hstring)
        obtain ⟨m', hrest⟩ := (ih _ _).mpr ⟨by simp [hzero], fun span hs =>
          (hc'.writable_iff _).mpr (hspans span (List.mem_append_right _ hs))⟩
        refine ⟨m', bind_eq_ok_iff.mpr ⟨(), m₁, hpointer,
          bind_eq_ok_iff.mpr ⟨_, m₂, hstring, ?_⟩⟩⟩
        rw [if_neg (by omega)]
        exact hrest

end Sim

/-- `StartProcess_2` returns in exactly these cases. -/
theorem startProcess2_returned_iff (env : StartEnv) (argv : List CString) :
    startProcess2 env argv = .returned ↔ ReturnsEarly env argv := by
  unfold startProcess2 ReturnsEarly
  cases env.opened with
  | none => simp
  | some file =>
    cases hs : env.newSpace with
    | none => simp
    | some result =>
      obtain ⟨space, m⟩ := result
      have hargs {b : Bool} := Sim.writeArguments_ok_iff (stackBottom m) argv 0
        (stackBottom m + BitVec.ofNat 32 (4 * argv.length)) (b := b) (m := m)
      have hempty : (∃ arg ∈ argv, strlen arg = 0) ↔
          false = argv.all fun arg => strlen arg ≠ 0 := by
        rw [eq_comm, List.all_eq_false]
        simp
      constructor
      · intro h
        dsimp only at h
        split at h
        · cases h
        · cases h
        · next m' hok =>
          obtain ⟨hfalse, hspans⟩ := hargs.mp ⟨m', hok⟩
          exact .inr ⟨space, m, rfl, hempty.mpr hfalse, hspans⟩
        · cases h
      · rintro (h | ⟨_, _, h, he, hspans⟩)
        · cases h
        · cases h
          obtain ⟨m', hok⟩ := hargs.mpr ⟨hempty.mp he, hspans⟩
          dsimp only
          rw [hok]

/-- A machine whose last process owns the first 33 frames. -/
def sampleMachine : Machine where
  registers := Function.update (fun _ => 0) StackReg 4208
  mainMemory := fun _ => 0
  pageTable := some 0
  pageTableSize := 33
  tables := Function.update (fun _ => []) 0 (AddrSpace.tableOf 0 (List.range 33))

/-- A start routine that finds its program and free frames. -/
def sampleEnv : StartEnv :=
  ⟨some tinyProgram, some tinyProgram, ⟨Vector.replicate _ 0⟩, sampleMachine, 1, ⟨none, 0⟩⟩

def nameA : CString := ⟨[97], by decide⟩

def nameB : CString := ⟨[98], by decide⟩

def nameC : CString := ⟨[99], by decide⟩

end Nachos

import Nachos.Threads.StringWrites

/-! The block that `StartProcess_2` writes for `argv`: the pointers, and behind them the copies
of the strings, each of which starts where the terminator of the one before it was put. -/
namespace Nachos

open LittleEndian Machine

/-- A copy of the string starts at `head`, with its terminator. -/
def CopyAt (table : PageTable) (pageTableSize : ℕ) (mainMemory : ByteStore.Store) (head : Word)
    (arg : CString) : Prop :=
  (∀ k < strlen arg,
    readByte table pageTableSize mainMemory (head + BitVec.ofNat 32 k) = arg.val[k]?) ∧
  readByte table pageTableSize mainMemory (head + BitVec.ofNat 32 (strlen arg)) = some 0

/-- An array of pointers at `base`, the `i`-th to a copy of `argv[i]`, no two of which
overlap. -/
def ArgumentBlock (table : PageTable) (pageTableSize : ℕ) (mainMemory : ByteStore.Store)
    (argv : List CString) (base : Word) : Prop :=
  ∃ heads : List Word, heads.length = argv.length ∧
    (∀ i arg head, argv[i]? = some arg → heads[i]? = some head →
      readWord table pageTableSize mainMemory (base + BitVec.ofNat 32 (4 * i)) = some head ∧
      CopyAt table pageTableSize mainMemory head arg) ∧
    (argv.zip heads).Pairwise fun a b => ∀ j ≤ strlen a.1, ∀ k ≤ strlen b.1,
      a.2 + BitVec.ofNat 32 j ≠ b.2 + BitVec.ofNat 32 k

/-- One call of `WriteMem`. -/
structure MemWrite where
  addr : Word
  size : ℕ
  value : Word

/-- Where the table puts a virtual address. -/
def PageTable.physIndex (table : PageTable) (v : Word) : ℕ :=
  match table[v.toNat / PageSize]? with
  | some entry => entry.pageFrame * PageSize + v.toNat % PageSize
  | none => 0

def MemWrite.through (w : MemWrite) (table : PageTable) : ByteStore.Patch :=
  ⟨table.physIndex w.addr, Sim.storeBytes w.value.toNat w.size⟩

def charWrites (virtAddr : Word) (i : ℕ) : List UInt8 → List MemWrite
  | [] => []
  | ch :: rest =>
    ⟨virtAddr + BitVec.ofNat 32 i, 1, charValue ch⟩ :: charWrites virtAddr (i + 1) rest

/-- The calls made for all arguments, in order. -/
def argumentWrites (stackBottom : Word) (i : ℕ) (argHead : Word) : List CString → List MemWrite
  | [] => []
  | arg :: rest =>
    [⟨stackBottom + BitVec.ofNat 32 (i * 4), 4, argHead⟩] ++
      (charWrites argHead 0 arg.val ++ [⟨argHead + BitVec.ofNat 32 (strlen arg + 1), 1, 0⟩]) ++
      argumentWrites stackBottom (i + 1) (argHead + BitVec.ofNat 32 (strlen arg + 1)) rest

/-- The bytes of the strings, with a terminator for each. -/
def stringsLength (argv : List CString) : ℕ := (argv.map fun arg => strlen arg + 1).sum

/-- Where the copy of `argv[i]` starts in the block. -/
def copyOffset (argv : List CString) (i : ℕ) : ℕ :=
  4 * argv.length + stringsLength (argv.take i)

theorem size_charWrites {virtAddr : Word} {i : ℕ} {chars : List UInt8} :
    ∀ w ∈ charWrites virtAddr i chars, w.size = 1 := by
  induction chars generalizing i with
  | nil => simp [charWrites]
  | cons ch rest ih =>
    intro w hw
    rcases List.mem_cons.mp hw with rfl | hw
    · rfl
    · exact ih w hw

theorem size_argumentWrites {stackBottom argHead : Word} {i : ℕ} {argv : List CString} :
    ∀ w ∈ argumentWrites stackBottom i argHead argv, w.size = 1 ∨ w.size = 2 ∨ w.size = 4 := by
  induction argv generalizing i argHead with
  | nil => simp [argumentWrites]
  | cons arg rest ih =>
    intro w hw
    simp only [argumentWrites, List.mem_append, List.mem_singleton] at hw
    rcases hw with (rfl | hw | rfl) | hw
    · exact .inr (.inr rfl)
    · exact .inl (size_charWrites w hw)
    · exact .inl rfl
    · exact ih w hw

/-- The bytes that one call of `WriteMem` changes. -/
def MemWrite.byteWrites (w : MemWrite) : List (Word × UInt8) :=
  (List.range w.size).map fun j => (w.addr + BitVec.ofNat 32 j, byteOf w.value j)

theorem MemWrite.mem_byteWrites {w : MemWrite} {b : Word × UInt8} :
    b ∈ w.byteWrites ↔ ∃ j < w.size, b = (w.addr + BitVec.ofNat 32 j, byteOf w.value j) := by
  simp only [byteWrites, List.mem_map, List.mem_range, eq_comm]

section

variable {m : Machine} {t : PageTable}

end

/-! The block lies at its offsets from `stackBottom`, which are all different as long as it is
shorter than the address space. -/

section

variable {base head : Word} {i off : ℕ} {argv : List CString} {arg : CString}
  {w : Word × UInt8}

@[simp] theorem stringsLength_nil : stringsLength [] = 0 := rfl

@[simp] theorem stringsLength_cons (arg : CString) (rest : List CString) :
    stringsLength (arg :: rest) = strlen arg + 1 + stringsLength rest := by
  simp [stringsLength]

def argumentBytes (base : Word) (i : ℕ) (head : Word) (argv : List CString) :
    List (Word × UInt8) :=
  (argumentWrites base i head argv).flatMap MemWrite.byteWrites

theorem byteWrites_char (v : Word) (ch : UInt8) :
    (⟨v, 1, charValue ch⟩ : MemWrite).byteWrites = [(v, ch)] := by
  rw [MemWrite.byteWrites, List.range_one, List.map_singleton, byteOf_charValue]
  exact congrArg (fun v => [(v, ch)]) (BitVec.add_zero v)

theorem flatMap_charWrites (v : Word) (i : ℕ) (chars : List UInt8) :
    (charWrites v i chars).flatMap MemWrite.byteWrites = charBytes v i chars := by
  induction chars generalizing i with
  | nil => rfl
  | cons ch rest ih =>
    rw [charWrites, List.flatMap_cons, byteWrites_char, ih]
    simp [charBytes]

theorem argumentBytes_cons (base : Word) (i : ℕ) (head : Word) (arg : CString)
    (rest : List CString) : argumentBytes base i head (arg :: rest) =
      (⟨base + BitVec.ofNat 32 (i * 4), 4, head⟩ : MemWrite).byteWrites ++
        (charBytes head 0 arg.val ++ ([(head + BitVec.ofNat 32 (strlen arg + 1), 0)] ++
          argumentBytes base (i + 1) (head + BitVec.ofNat 32 (strlen arg + 1)) rest)) := by
  have hzero := byteWrites_char (head + BitVec.ofNat 32 (strlen arg + 1)) 0
  rw [show charValue 0 = 0 by decide] at hzero
  simp only [argumentBytes, argumentWrites, List.flatMap_append, List.flatMap_cons,
    List.flatMap_nil, List.append_nil, flatMap_charWrites, hzero, List.append_assoc]

/-- Where a byte of the block goes: among the pointers, or among the strings. -/
theorem place_of_mem (hmem : w ∈ argumentBytes base i (base + BitVec.ofNat 32 off) argv) :
    ∃ k, w.1 = base + BitVec.ofNat 32 k ∧ (4 * i ≤ k ∧ k < 4 * (i + argv.length) ∨
      off ≤ k ∧ k ≤ off + stringsLength argv) := by
  induction argv generalizing i off with
  | nil => cases hmem
  | cons arg rest ih =>
    simp only [argumentBytes_cons, List.mem_append, List.mem_singleton] at hmem
    rw [List.length_cons, stringsLength_cons]
    rcases hmem with hpointer | hchar | rfl | hrest
    · obtain ⟨j, hj, rfl⟩ := MemWrite.mem_byteWrites.mp hpointer
      refine ⟨4 * i + j, ?_, .inl ⟨by omega, by dsimp only at hj; omega⟩⟩
      rw [BitVec.add_assoc, ← BitVec.ofNat_add, Nat.mul_comm]
    · obtain ⟨j, hj, hplace⟩ := mem_charBytes.mp hchar
      have hlt : j < strlen arg := (List.getElem?_eq_some_iff.mp hj).1
      refine ⟨off + j, ?_, .inr ⟨by omega, by omega⟩⟩
      rw [hplace, BitVec.add_assoc, ← BitVec.ofNat_add]
    · refine ⟨off + (strlen arg + 1), ?_, .inr ⟨by omega, by omega⟩⟩
      rw [BitVec.add_assoc, ← BitVec.ofNat_add]
    · rw [BitVec.add_assoc, ← BitVec.ofNat_add] at hrest
      obtain ⟨k, hk, hrange⟩ := ih hrest
      exact ⟨k, hk, by omega⟩

variable {memory : Word → Option UInt8}

end

end Nachos

import Nachos.Library.LastWrite
import Nachos.Threads.StartProcess
import Nachos.Userprog.CallHistory

/-! Strings that `WriteStrToMem` stores one after the other. Each goes to where the value
returned for the one before it points: behind the misplaced terminator of a string with
characters, and one byte back after an empty one. -/
namespace Nachos

open Machine

namespace Sim

/-- Strings stored one after the other, and where each of them went. -/
def storeStrings (virtAddr : Word) : List CString → Sim (List (Word × CString))
  | [] => pure []
  | s :: rest => do
    let len ← writeStrToMem virtAddr s.val (strlen s)
    let placed ← storeStrings (virtAddr + BitVec.ofInt 32 len) rest
    return (virtAddr, s) :: placed

end Sim

/-- Each string is at its address, and all else is as before. -/
structure StringsStored (placed : List (Word × CString)) (m m' : Machine) : Prop where
  strings : ∀ p ∈ placed, m'.Shows p.1 (p.2.val ++ [0])
  others : ∀ v, (∀ p ∈ placed, ∀ i ≤ strlen p.2, v ≠ p.1 + BitVec.ofNat 32 i) →
    m'.virtualByte v = m.virtualByte v

/-- The strings come to be in user memory, and nothing else does. -/
def StoresStrings (m : Machine) (virtAddr : Word) (strings : List CString) : Prop :=
  ∃ placed m', Sim.storeStrings virtAddr strings m = .ok placed m' ∧ StringsStored placed m m'

/-- What `WriteStrToMem` returns for a string that it can store. -/
def lengthWritten (s : CString) : ℤ := if strlen s = 0 then -1 else strlen s + 1

/-- The strings with the addresses that they are sent to. -/
def stringPlaces (virtAddr : Word) : List CString → List (Word × CString)
  | [] => []
  | s :: rest => (virtAddr, s) :: stringPlaces (virtAddr + BitVec.ofInt 32 (lengthWritten s)) rest

/-- The bytes of the loop from index `i` on. -/
def charBytes (virtAddr : Word) (i : ℕ) (chars : List UInt8) : List (Word × UInt8) :=
  (chars.zipIdx i).map fun c => (virtAddr + BitVec.ofNat 32 c.2, c.1)

/-- Where the terminator of a string goes. -/
def terminatorAt (p : Word × CString) : Word := p.1 + BitVec.ofNat 32 (strlen p.2 + 1)

/-- The bytes that are written for a string. -/
def stringBytes (p : Word × CString) : List (Word × UInt8) :=
  if strlen p.2 = 0 then [] else charBytes p.1 0 p.2.val ++ [(terminatorAt p, 0)]

def writtenBytes (placed : List (Word × CString)) : List (Word × UInt8) :=
  placed.flatMap stringBytes

/-- Byte `b` of one of the strings, its terminator included, belongs at `v`. -/
def Wanted (placed : List (Word × CString)) (v : Word) (b : UInt8) : Prop :=
  ∃ p ∈ placed, ∃ i, (p.2.val ++ [0])[i]? = some b ∧ v = p.1 + BitVec.ofNat 32 i

/-- The condition on the strings and on what is in user memory before. -/
structure StringsFit (m : Machine) (placed : List (Word × CString)) : Prop where
  /-- The misplaced terminators too are sent to places that can be written. -/
  writable : ∀ w ∈ writtenBytes placed, m.Writable (w.1, 1)
  /-- Strings moved back by an empty one agree where they meet the others. -/
  agree : ∀ v b b', Wanted placed v b → Wanted placed v b' → b = b'
  /-- A zero is behind each string, unless the terminator of another one lands there. -/
  ended : ∀ p ∈ placed, (∃ w ∈ writtenBytes placed, w.1 = p.1 + BitVec.ofNat 32 (strlen p.2)) ∨
    m.virtualByte (p.1 + BitVec.ofNat 32 (strlen p.2)) = some 0
  /-- A misplaced terminator ends another string, is written over, or meets a zero outside. -/
  misplaced : ∀ before p later, placed = before ++ p :: later → strlen p.2 ≠ 0 →
    Wanted placed (terminatorAt p) 0 ∨ (∃ w ∈ writtenBytes later, w.1 = terminatorAt p) ∨
      (∀ b, ¬Wanted placed (terminatorAt p) b) ∧ m.virtualByte (terminatorAt p) = some 0

namespace Sim

variable {α β γ : Type}

theorem bind_bind (x : Sim α) (f : α → Sim β) (g : β → Sim γ) :
    x >>= f >>= g = x >>= fun a => f a >>= g := by
  funext m
  simp only [bind_apply]
  cases x m <;> rfl

theorem pure_bind_eq (a : α) (f : α → Sim β) : pure a >>= f = f a := rfl

/-- Bytes stored one after the other. -/
def putBytes : List (Word × UInt8) → Sim Unit
  | [] => pure ()
  | w :: ws => do
    writeMem w.1 1 (charValue w.2)
    putBytes ws

theorem putBytes_append (ws ws' : List (Word × UInt8)) :
    putBytes (ws ++ ws') = putBytes ws >>= fun _ => putBytes ws' := by
  induction ws with
  | nil => rfl
  | cons w ws ih =>
    rw [List.cons_append, putBytes, putBytes, ih, bind_bind]

theorem putBytes_ok_iff {ws : List (Word × UInt8)} {m : Machine} :
    (∃ m', putBytes ws m = .ok () m') ↔ ∀ w ∈ ws, m.Writable (w.1, 1) := by
  induction ws generalizing m with
  | nil =>
    simp only [List.not_mem_nil, false_implies, implies_true, iff_true]
    exact ⟨m, rfl⟩
  | cons w ws ih =>
    constructor
    · rintro ⟨m', h⟩
      obtain ⟨_, m₁, hw, h⟩ := bind_eq_ok_iff.mp h
      have hc := (keeps_writeMem w.1 1 (charValue w.2)).confined hw
      refine List.forall_mem_cons.mpr ⟨(writeMem_ok_iff _ (.inl rfl)).mp ⟨m₁, hw⟩, ?_⟩
      exact fun w' hw' => (hc.writable_iff _).mp (ih.mp ⟨m', h⟩ w' hw')
    · intro h
      obtain ⟨hfirst, hrest⟩ := List.forall_mem_cons.mp h
      obtain ⟨m₁, hw⟩ := (writeMem_ok_iff (charValue w.2) (.inl rfl)).mpr hfirst
      have hc := (keeps_writeMem w.1 1 (charValue w.2)).confined hw
      obtain ⟨m', h⟩ := ih.mpr fun w' hw' => (hc.writable_iff _).mpr (hrest w' hw')
      exact ⟨m', bind_eq_ok_iff.mpr ⟨(), m₁, hw, h⟩⟩

/-- User memory changes as a memory of bytes does. -/
theorem putBytes_after {ws : List (Word × UInt8)} {m m' : Machine} (hmapped : ∃ t, m.Mapped t)
    (h : putBytes ws m = .ok () m') :
    m'.virtualByte = LastWrite.after m.virtualByte ws := by
  induction ws generalizing m with
  | nil =>
    cases h
    rfl
  | cons w ws ih =>
    obtain ⟨t, ht⟩ := hmapped
    obtain ⟨_, m₁, hw, h⟩ := bind_eq_ok_iff.mp h
    obtain ⟨t₁, ht₁, -⟩ := ht.confined ((keeps_writeMem w.1 1 (charValue w.2)).confined hw)
    have hstep : m₁.virtualByte = Function.update m.virtualByte w.1 (some w.2) := by
      funext v
      rw [ht.written (.inl rfl) hw]
      by_cases hv : v = w.1
      · subst hv
        rw [if_pos ⟨le_rfl, Nat.lt_succ_self _⟩, Nat.sub_self, byteOf_charValue,
          Function.update_self]
      · rw [Function.update_of_ne hv, if_neg]
        rintro ⟨h0, h1⟩
        exact hv (BitVec.eq_of_toNat_eq (Nat.le_antisymm (Nat.lt_succ_iff.mp h1) h0))
    rw [ih ⟨t₁, ht₁⟩ h, hstep, LastWrite.after_cons]

theorem writeChars_eq (virtAddr : Word) {chars : List UInt8} (hzero : 0 ∉ chars) :
    ∀ before : List UInt8, writeChars virtAddr (before ++ chars) before.length chars.length =
      putBytes (charBytes virtAddr before.length chars) >>= fun _ =>
        pure (before.length + chars.length) := by
  induction chars with
  | nil => exact fun before => rfl
  | cons ch rest ih =>
    intro before
    have hch : (before ++ ch :: rest).getD before.length 0 = ch := by simp
    have hne : ch ≠ 0 := fun heq => hzero (heq ▸ List.mem_cons_self)
    have hrest := ih (fun hm => hzero (List.mem_cons_of_mem _ hm)) (before ++ [ch])
    rw [List.append_assoc, List.singleton_append, List.length_append, List.length_singleton,
      Nat.add_right_comm, Nat.add_assoc] at hrest
    simp only [List.length_cons, writeChars, hch, if_neg hne, hrest]
    simp only [charBytes, List.zipIdx_cons, List.map_cons, putBytes, bind_bind]

theorem writeStrToMem_eq (virtAddr : Word) (s : CString) :
    writeStrToMem virtAddr s.val (strlen s) =
      putBytes (stringBytes (virtAddr, s)) >>= fun _ => pure (lengthWritten s) := by
  unfold stringBytes lengthWritten
  by_cases hempty : strlen s = 0
  · simp only [writeStrToMem, hempty, Nat.cast_zero, le_refl, if_true]
    rfl
  · have hpos : ¬(strlen s : ℤ) ≤ 0 := by omega
    have hchars := writeChars_eq virtAddr s.property []
    simp only [List.nil_append, List.length_nil, Nat.zero_add] at hchars
    simp only [writeStrToMem, if_neg hpos, if_neg hempty, Int.toNat_natCast, putBytes_append,
      bind_bind]
    rw [strlen, hchars, bind_bind]
    simp only [pure_bind_eq, putBytes, bind_bind]
    rfl

/-- The whole run is a run of writes, each to an address known from the lengths. -/
theorem storeStrings_eq (virtAddr : Word) (strings : List CString) :
    storeStrings virtAddr strings =
      putBytes (writtenBytes (stringPlaces virtAddr strings)) >>= fun _ =>
        pure (stringPlaces virtAddr strings) := by
  induction strings generalizing virtAddr with
  | nil => rfl
  | cons s rest ih =>
    simp only [storeStrings, writeStrToMem_eq, ih, bind_bind, stringPlaces, writtenBytes,
      List.flatMap_cons, putBytes_append]
    rfl

end Sim

variable {m m' : Machine} {ps : List (Word × CString)}

theorem mem_charBytes {virtAddr : Word} {chars : List UInt8} {w : Word × UInt8} :
    w ∈ charBytes virtAddr 0 chars ↔
      ∃ i, chars[i]? = some w.2 ∧ w.1 = virtAddr + BitVec.ofNat 32 i := by
  simp only [charBytes, List.mem_map, List.mem_zipIdx_iff_getElem?, Prod.exists]
  constructor
  · rintro ⟨ch, i, hi, rfl⟩
    exact ⟨i, hi, rfl⟩
  · rintro ⟨i, hi, hw⟩
    exact ⟨w.2, i, hi, Prod.ext hw.symm rfl⟩

theorem stringBytes_of_ne {p : Word × CString} (h : strlen p.2 ≠ 0) :
    stringBytes p = charBytes p.1 0 p.2.val ++ [(terminatorAt p, 0)] := if_neg h

/-- What the loop writes is wanted. -/
theorem wanted_of_mem_charBytes {p : Word × CString} (hp : p ∈ ps) {w : Word × UInt8}
    (hw : w ∈ charBytes p.1 0 p.2.val) : Wanted ps w.1 w.2 := by
  obtain ⟨i, hi, hv⟩ := mem_charBytes.mp hw
  have hlt := (List.getElem?_eq_some_iff.mp hi).1
  exact ⟨p, hp, i, by rw [List.getElem?_append_left hlt, hi], hv⟩

theorem stringsStored_iff_meets : StringsStored ps m m' ↔
    LastWrite.Meets (Wanted ps) m.virtualByte m'.virtualByte := by
  have hlength (s : CString) {i : ℕ} : i < (s.val ++ [0]).length ↔ i ≤ strlen s := by
    rw [List.length_append, List.length_singleton]
    exact Nat.lt_succ_iff
  constructor
  · intro h
    constructor
    · rintro _ b ⟨p, hp, i, hi, rfl⟩
      rw [h.strings p hp i (List.getElem?_eq_some_iff.mp hi).1, hi]
    · intro v hnone
      refine h.others v fun p hp i hi hv => ?_
      have hget := List.getElem?_eq_getElem ((hlength p.2).mpr hi)
      exact hnone _ ⟨p, hp, i, hget, hv⟩
  · intro h
    constructor
    · intro p hp i hi
      have hget := List.getElem?_eq_getElem hi
      rw [hget]
      exact h.holds _ _ ⟨p, hp, i, hget, rfl⟩
    · intro v hout
      refine h.others v ?_
      rintro b ⟨p, hp, i, hi, hv⟩
      exact hout p hp i ((hlength p.2).mp (List.getElem?_eq_some_iff.mp hi).1) hv

/-- A write for a string is one of the loop, or the one after it. -/
theorem stringBytes_split {p : Word × CString} {before later : List (Word × UInt8)}
    {w : Word × UInt8} (h : stringBytes p = before ++ w :: later) :
    w ∈ charBytes p.1 0 p.2.val ∨ strlen p.2 ≠ 0 ∧ w = (terminatorAt p, 0) ∧ later = [] := by
  by_cases hempty : strlen p.2 = 0
  · rw [stringBytes, if_pos hempty] at h
    simp at h
  rw [stringBytes_of_ne hempty] at h
  rcases List.eq_nil_or_concat later with rfl | ⟨later, w', rfl⟩
  · obtain ⟨-, hw⟩ := List.append_inj' h rfl
    exact .inr ⟨hempty, (List.singleton_inj.mp hw).symm, rfl⟩
  · rw [List.concat_eq_append, ← List.cons_append, ← List.append_assoc] at h
    rw [(List.append_inj' h rfl).1]
    exact .inl (List.mem_append_right _ List.mem_cons_self)

theorem writtenBytes_split {before later : List (Word × UInt8)} {w : Word × UInt8}
    (h : writtenBytes ps = before ++ w :: later) :
    (∃ p ∈ ps, w ∈ charBytes p.1 0 p.2.val) ∨
      ∃ before' p later', ps = before' ++ p :: later' ∧ strlen p.2 ≠ 0 ∧
        w = (terminatorAt p, 0) ∧ later = writtenBytes later' := by
  induction ps generalizing before with
  | nil => simp [writtenBytes] at h
  | cons p ps ih =>
    have hrest {before' : List (Word × UInt8)} (hps : writtenBytes ps = before' ++ w :: later) :
        (∃ q ∈ p :: ps, w ∈ charBytes q.1 0 q.2.val) ∨
          ∃ before' q later', p :: ps = before' ++ q :: later' ∧ strlen q.2 ≠ 0 ∧
            w = (terminatorAt q, 0) ∧ later = writtenBytes later' := by
      rcases ih hps with ⟨q, hq, hw⟩ | ⟨before', q, later', rfl, hq⟩
      · exact .inl ⟨q, List.mem_cons_of_mem p hq, hw⟩
      · exact .inr ⟨p :: before', q, later', rfl, hq⟩
    rw [writtenBytes, List.flatMap_cons] at h
    rcases List.append_eq_append_iff.mp h with ⟨before', -, hps⟩ | ⟨mine, hp, hw⟩
    · exact hrest hps
    · rcases List.cons_eq_append_iff.mp hw with ⟨rfl, hps⟩ | ⟨mine, rfl, rfl⟩
      · exact hrest (show writtenBytes ps = [] ++ w :: later from hps)
      · rcases stringBytes_split hp with hchar | ⟨hne, hlast, rfl⟩
        · exact .inl ⟨p, List.mem_cons_self, hchar⟩
        · exact .inr ⟨[], p, ps, rfl, hne, hlast, rfl⟩

theorem stringsFit_iff_suits : StringsFit m ps ↔ (∀ w ∈ writtenBytes ps, m.Writable (w.1, 1)) ∧
    LastWrite.Suits (Wanted ps) m.virtualByte (writtenBytes ps) := by
  constructor
  · intro h
    refine ⟨h.writable, h.agree, ?_, ?_⟩
    · rintro _ b ⟨p, hp, i, hi, rfl⟩
      rcases Nat.lt_or_ge i (strlen p.2) with hlt | hge
      · -- the loop has written it
        rw [List.getElem?_append_left hlt] at hi
        have hne : strlen p.2 ≠ 0 := by omega
        refine .inl ⟨(p.1 + BitVec.ofNat 32 i, b), List.mem_flatMap.mpr ⟨p, hp, ?_⟩, rfl⟩
        rw [stringBytes_of_ne hne]
        exact List.mem_append_left _ (mem_charBytes.mpr ⟨i, hi, rfl⟩)
      · have hlength := (List.getElem?_eq_some_iff.mp hi).1
        rw [List.length_append, List.length_singleton] at hlength
        obtain rfl : i = strlen p.2 := Nat.le_antisymm (Nat.lt_succ_iff.mp hlength) hge
        have hzero : (p.2.val ++ [0])[strlen p.2]? = some 0 := by simp [strlen]
        cases hi.symm.trans hzero
        exact h.ended p hp
    · intro before w later hws
      rcases writtenBytes_split hws with ⟨p, hp, hw⟩ | ⟨before', p, later', hps, hne, rfl, rfl⟩
      · exact .inl (wanted_of_mem_charBytes hp hw)
      · exact h.misplaced before' p later' hps hne
  · rintro ⟨hwritable, h⟩
    refine ⟨hwritable, h.agrees, ?_, ?_⟩
    · intro p hp
      exact h.present _ 0 ⟨p, hp, strlen p.2, by simp [strlen], rfl⟩
    · intro before p later hps hne
      refine h.stays (writtenBytes before ++ charBytes p.1 0 p.2.val) (terminatorAt p, 0)
        (writtenBytes later) ?_
      rw [hps, writtenBytes, List.flatMap_append, List.flatMap_cons, stringBytes_of_ne hne,
        List.append_assoc, List.append_assoc]
      rfl

theorem StoresStrings.fit (hmapped : ∃ t, m.Mapped t) {virtAddr : Word} {strings : List CString}
    (h : StoresStrings m virtAddr strings) : StringsFit m (stringPlaces virtAddr strings) := by
  obtain ⟨ps, m', hrun, hstored⟩ := h
  rw [Sim.storeStrings_eq] at hrun
  obtain ⟨_, _, hput, ⟨⟩⟩ := Sim.bind_eq_ok_iff.mp hrun
  have hmeets := stringsStored_iff_meets.mp hstored
  rw [Sim.putBytes_after hmapped hput] at hmeets
  exact stringsFit_iff_suits.mpr ⟨Sim.putBytes_ok_iff.mp ⟨_, hput⟩, LastWrite.meets_iff.mp hmeets⟩

theorem StringsFit.stores (hmapped : ∃ t, m.Mapped t) {virtAddr : Word} {strings : List CString}
    (h : StringsFit m (stringPlaces virtAddr strings)) : StoresStrings m virtAddr strings := by
  obtain ⟨hwritable, hsuits⟩ := stringsFit_iff_suits.mp h
  obtain ⟨m', hput⟩ := Sim.putBytes_ok_iff.mpr hwritable
  have hrun : Sim.storeStrings virtAddr strings m = .ok (stringPlaces virtAddr strings) m' := by
    rw [Sim.storeStrings_eq]
    exact Sim.bind_eq_ok_iff.mpr ⟨(), m', hput, rfl⟩
  refine ⟨_, m', hrun, stringsStored_iff_meets.mpr ?_⟩
  rw [Sim.putBytes_after hmapped hput]
  exact LastWrite.meets_iff.mpr hsuits

/-! Strings that all have characters lie next to each other, and only the last terminator is
left where `WriteStrToMem` puts it. -/

section

variable {virtAddr : Word} {strings : List CString}

/-- The strings next to each other, each with its terminator. -/
def packedStrings (strings : List CString) : List UInt8 := strings.flatMap fun s => s.val ++ [0]

theorem packed_cons (s : CString) (rest : List CString) :
    packedStrings (s :: rest) = (s.val ++ [0]) ++ packedStrings rest := rfl

theorem length_packed_cons (s : CString) (rest : List CString) :
    (packedStrings (s :: rest)).length = strlen s + 1 + (packedStrings rest).length := by
  rw [packed_cons, List.length_append, List.length_append, List.length_singleton]
  rfl

theorem next_of_ne (virtAddr : Word) {s : CString} (h : strlen s ≠ 0) :
    virtAddr + BitVec.ofInt 32 (lengthWritten s) = terminatorAt (virtAddr, s) := by
  rw [lengthWritten, if_neg h, terminatorAt, ← BitVec.ofInt_natCast]
  rfl

theorem stringPlaces_split (hne : ∀ s ∈ strings, strlen s ≠ 0)
    {before later : List (Word × CString)} {p : Word × CString}
    (h : stringPlaces virtAddr strings = before ++ p :: later) :
    ∃ off rest, p.1 = virtAddr + BitVec.ofNat 32 off ∧ later = stringPlaces (terminatorAt p) rest ∧
      off + (packedStrings (p.2 :: rest)).length = (packedStrings strings).length ∧
      ∀ s ∈ p.2 :: rest, strlen s ≠ 0 := by
  induction strings generalizing virtAddr before with
  | nil => simp [stringPlaces] at h
  | cons s rest ih =>
    obtain ⟨hs, hrest⟩ := List.forall_mem_cons.mp hne
    rw [stringPlaces, next_of_ne virtAddr hs] at h
    cases before with
    | nil =>
      obtain ⟨rfl, rfl⟩ := List.cons.inj h
      exact ⟨0, rest, (BitVec.add_zero virtAddr).symm, rfl, Nat.zero_add _, hne⟩
    | cons q before =>
      obtain ⟨-, h⟩ := List.cons.inj h
      obtain ⟨off, rest', hp, hlater, hlength, hne'⟩ := ih hrest h
      refine ⟨strlen s + 1 + off, rest', ?_, hlater, ?_, hne'⟩
      · rw [hp, terminatorAt, BitVec.add_assoc, ← BitVec.ofNat_add]
      · rw [length_packed_cons s rest, Nat.add_assoc, hlength]

theorem wanted_packed (hne : ∀ s ∈ strings, strlen s ≠ 0) {v : Word} {b : UInt8}
    (h : Wanted (stringPlaces virtAddr strings) v b) :
    ∃ k, (packedStrings strings)[k]? = some b ∧ v = virtAddr + BitVec.ofNat 32 k := by
  induction strings generalizing virtAddr with
  | nil =>
    obtain ⟨p, hp, -⟩ := h
    cases hp
  | cons s rest ih =>
    obtain ⟨hs, hrest⟩ := List.forall_mem_cons.mp hne
    obtain ⟨p, hp, i, hi, hv⟩ := h
    rw [packed_cons]
    rcases List.mem_cons.mp hp with rfl | hp
    · have hlt := (List.getElem?_eq_some_iff.mp hi).1
      exact ⟨i, by rw [List.getElem?_append_left hlt, hi], hv⟩
    · rw [next_of_ne virtAddr hs] at hp
      obtain ⟨k, hk, hv⟩ := ih hrest ⟨p, hp, i, hi, hv⟩
      refine ⟨strlen s + 1 + k, ?_, ?_⟩
      · have hlength : (s.val ++ [0]).length = strlen s + 1 := by
          rw [List.length_append, List.length_singleton]
          rfl
        rw [List.getElem?_append_right (by omega), hlength, Nat.add_sub_cancel_left, hk]
      · rw [hv, terminatorAt, BitVec.add_assoc, ← BitVec.ofNat_add]

/-- What follows a string with characters writes over the place of its terminator. -/
theorem written_next {v : Word} {s : CString} (hs : strlen s ≠ 0) (rest : List CString) :
    ∃ ch ≠ 0, (v, ch) ∈ writtenBytes (stringPlaces v (s :: rest)) ∧
      Wanted (stringPlaces v (s :: rest)) v ch := by
  obtain ⟨ch, chars, hval⟩ := List.exists_cons_of_length_pos (Nat.pos_of_ne_zero hs)
  have hmem : (v, ch) ∈ charBytes v 0 s.val := by
    refine mem_charBytes.mpr ⟨0, ?_, (BitVec.add_zero v).symm⟩
    rw [hval]
    rfl
  refine ⟨ch, ?_, ?_, ?_⟩
  · rintro rfl
    exact s.property (hval ▸ List.mem_cons_self)
  · refine List.mem_flatMap.mpr ⟨(v, s), List.mem_cons_self, ?_⟩
    rw [stringBytes_of_ne hs]
    exact List.mem_append_left _ hmem
  · exact wanted_of_mem_charBytes (p := (v, s)) List.mem_cons_self hmem

/-- The misplaced terminator of the last string is behind all of them; every other one goes
to the first character of the next string. -/
theorem terminator_cases (hne : ∀ s ∈ strings, strlen s ≠ 0)
    {before later : List (Word × CString)} {p : Word × CString}
    (h : stringPlaces virtAddr strings = before ++ p :: later) :
    (later = [] ∧ terminatorAt p = virtAddr + BitVec.ofNat 32 (packedStrings strings).length) ∨
      ∃ ch ≠ 0, (terminatorAt p, ch) ∈ writtenBytes later ∧
        Wanted (stringPlaces virtAddr strings) (terminatorAt p) ch := by
  obtain ⟨off, rest, hp, rfl, hlength, hne'⟩ := stringPlaces_split hne h
  rw [length_packed_cons] at hlength
  cases rest with
  | nil =>
    refine .inl ⟨rfl, ?_⟩
    rw [terminatorAt, hp, BitVec.add_assoc, ← BitVec.ofNat_add, ← hlength]
    rfl
  | cons s rest =>
    have hs : strlen s ≠ 0 := hne' s (List.mem_cons_of_mem _ List.mem_cons_self)
    obtain ⟨ch, hch, hmem, q, hq, i, hi, hv⟩ := written_next (v := terminatorAt p) hs rest
    refine .inr ⟨ch, hch, hmem, q, ?_, i, hi, hv⟩
    rw [h]
    exact List.mem_append_right _ (List.mem_cons_of_mem p hq)

theorem wanted_unique (hne : ∀ s ∈ strings, strlen s ≠ 0)
    (hsmall : (packedStrings strings).length < 2 ^ 32) {v : Word} {b b' : UInt8}
    (h : Wanted (stringPlaces virtAddr strings) v b)
    (h' : Wanted (stringPlaces virtAddr strings) v b') : b = b' := by
  obtain ⟨k, hk, hv⟩ := wanted_packed hne h
  obtain ⟨k', hk', hv'⟩ := wanted_packed hne h'
  have hlt := (List.getElem?_eq_some_iff.mp hk).1
  have hlt' := (List.getElem?_eq_some_iff.mp hk').1
  obtain rfl := ofNat_add_inj (hlt.trans hsmall) (hlt'.trans hsmall) (hv.symm.trans hv')
  exact Option.some.inj (hk.symm.trans hk')

theorem not_wanted_behind (hne : ∀ s ∈ strings, strlen s ≠ 0)
    (hsmall : (packedStrings strings).length < 2 ^ 32) (b : UInt8) :
    ¬Wanted (stringPlaces virtAddr strings)
      (virtAddr + BitVec.ofNat 32 (packedStrings strings).length) b := by
  intro h
  obtain ⟨k, hk, hv⟩ := wanted_packed hne h
  have hlt := (List.getElem?_eq_some_iff.mp hk).1
  have heq := ofNat_add_inj hsmall (hlt.trans hsmall) hv
  omega

theorem wanted_terminator {p : Word × CString} (hp : p ∈ ps) :
    Wanted ps (p.1 + BitVec.ofNat 32 (strlen p.2)) 0 :=
  ⟨p, hp, strlen p.2, by simp [strlen], rfl⟩

/-- No terminator is written where it belongs. -/
theorem terminator_unwritten (hne : ∀ s ∈ strings, strlen s ≠ 0)
    (hsmall : (packedStrings strings).length < 2 ^ 32) {p : Word × CString}
    (hp : p ∈ stringPlaces virtAddr strings) {w : Word × UInt8}
    (hw : w ∈ writtenBytes (stringPlaces virtAddr strings)) :
    w.1 ≠ p.1 + BitVec.ofNat 32 (strlen p.2) := by
  intro hv
  have hzero := wanted_terminator hp
  rw [← hv] at hzero
  obtain ⟨before, later, hsplit⟩ := List.append_of_mem hw
  rcases writtenBytes_split hsplit with ⟨q, hq, hchar⟩ | ⟨before', q, later', hq, -, rfl, -⟩
  · have hch := wanted_unique hne hsmall (wanted_of_mem_charBytes hq hchar) hzero
    obtain ⟨i, hi, -⟩ := mem_charBytes.mp hchar
    have hmem := List.mem_of_getElem? hi
    rw [hch] at hmem
    exact q.2.property hmem
  · rcases terminator_cases hne hq with ⟨-, hend⟩ | ⟨ch, hch, -, hwanted⟩
    · rw [hend] at hzero
      exact not_wanted_behind hne hsmall 0 hzero
    · exact hch (wanted_unique hne hsmall hwanted hzero)

theorem exists_last_place (virtAddr : Word) (hne : ∀ s ∈ strings, strlen s ≠ 0)
    (hnil : strings ≠ []) : ∃ before p, stringPlaces virtAddr strings = before ++ [p] ∧
      strlen p.2 ≠ 0 ∧
      terminatorAt p = virtAddr + BitVec.ofNat 32 (packedStrings strings).length := by
  obtain ⟨s, rest, rfl⟩ := List.exists_cons_of_ne_nil hnil
  obtain ⟨before, p, hlast⟩ := (List.eq_nil_or_concat
    (stringPlaces virtAddr (s :: rest))).resolve_left (List.cons_ne_nil _ _)
  rw [List.concat_eq_append] at hlast
  obtain ⟨off, _, -, -, -, hp⟩ := stringPlaces_split hne hlast
  obtain ⟨-, hend⟩ := (terminator_cases hne hlast).resolve_right
    (by rintro ⟨ch, -, hmem, -⟩; cases hmem)
  exact ⟨before, p, hlast, hp p.2 List.mem_cons_self, hend⟩

/-- All but the last terminator goes to the buffer of the strings. -/
theorem written_writable (hne : ∀ s ∈ strings, strlen s ≠ 0)
    (hbuffer : m.HasBuffer virtAddr (packedStrings strings).length)
    (hwritable : m.Writable (virtAddr + BitVec.ofNat 32 (packedStrings strings).length, 1))
    {w : Word × UInt8} (hw : w ∈ writtenBytes (stringPlaces virtAddr strings)) :
    m.Writable (w.1, 1) := by
  have hinside {v : Word} {b : UInt8} (hv : Wanted (stringPlaces virtAddr strings) v b) :
      m.Writable (v, 1) := by
    obtain ⟨k, hk, rfl⟩ := wanted_packed hne hv
    exact hbuffer.writable k (List.getElem?_eq_some_iff.mp hk).1
  obtain ⟨before, later, hsplit⟩ := List.append_of_mem hw
  rcases writtenBytes_split hsplit with ⟨q, hq, hchar⟩ | ⟨before', q, later', hq, -, rfl, -⟩
  · exact hinside (wanted_of_mem_charBytes hq hchar)
  · rcases terminator_cases hne hq with ⟨-, hend⟩ | ⟨ch, -, -, hwanted⟩
    · rw [hend]
      exact hwritable
    · exact hinside hwanted

/-- Strings with characters are stored exactly if memory already has a zero behind each of
them, and another zero behind the last of these that can be written. -/
theorem stringsFit_iff_of_nonempty (hne : ∀ s ∈ strings, strlen s ≠ 0) (hnil : strings ≠ [])
    (hbuffer : m.HasBuffer virtAddr (packedStrings strings).length) :
    StringsFit m (stringPlaces virtAddr strings) ↔
      (∀ p ∈ stringPlaces virtAddr strings,
        m.virtualByte (p.1 + BitVec.ofNat 32 (strlen p.2)) = some 0) ∧
      m.Writable (virtAddr + BitVec.ofNat 32 (packedStrings strings).length, 1) ∧
      m.virtualByte (virtAddr + BitVec.ofNat 32 (packedStrings strings).length) = some 0 := by
  have hsmall : (packedStrings strings).length < 2 ^ 32 := hbuffer.length_le.trans_lt (by decide)
  constructor
  · intro h
    obtain ⟨before, p, hlast, hnonempty, hend⟩ := exists_last_place virtAddr hne hnil
    refine ⟨fun q hq => ?_, ?_, ?_⟩
    · refine (h.ended q hq).resolve_left ?_
      rintro ⟨w, hw, hv⟩
      exact terminator_unwritten hne hsmall hq hw hv
    · rw [← hend]
      refine h.writable (terminatorAt p, 0) (List.mem_flatMap.mpr ⟨p, ?_, ?_⟩)
      · rw [hlast]
        exact List.mem_append_right _ List.mem_cons_self
      · rw [stringBytes_of_ne hnonempty]
        exact List.mem_append_right _ List.mem_cons_self
    · rw [← hend]
      rcases h.misplaced before p [] hlast hnonempty with hwanted | ⟨w, hw, -⟩ | ⟨-, hzero⟩
      · rw [hend] at hwanted
        exact absurd hwanted (not_wanted_behind hne hsmall 0)
      · cases hw
      · exact hzero
  · rintro ⟨hzeros, hwritable, hbehind⟩
    refine ⟨fun w => written_writable hne hbuffer hwritable,
      fun v b b' => wanted_unique hne hsmall, fun p hp => .inr (hzeros p hp), ?_⟩
    intro before p later hp hnonempty
    rcases terminator_cases hne hp with ⟨-, hend⟩ | ⟨ch, -, hmem, -⟩
    · rw [hend]
      exact .inr (.inr ⟨not_wanted_behind hne hsmall, hbehind⟩)
    · exact .inr (.inl ⟨_, hmem, rfl⟩)

end

/-- `WriteStrToMem` stores strings exactly if they fit in this way. -/
theorem stores_strings_iff (hmapped : ∃ t, m.Mapped t) (virtAddr : Word)
    (strings : List CString) :
    StoresStrings m virtAddr strings ↔ StringsFit m (stringPlaces virtAddr strings) :=
  ⟨StoresStrings.fit hmapped, StringsFit.stores hmapped⟩

/-- A machine with one page, all of whose bytes are the same. -/
def filledPage (byte : UInt8) : Machine where
  registers := fun _ => 0
  mainMemory := fun _ => byte
  pageTable := some 0
  pageTableSize := 1
  tables := fun _ => AddrSpace.tableOf 0 [0]

theorem hasBuffer_filledPage (byte : UInt8) {n : ℕ} (hn : n ≤ PageSize) :
    (filledPage byte).HasBuffer 0 n :=
  Descriptors.hasBuffer_onePage rfl rfl ((Nat.zero_add n).trans_le hn)

/-- In memory that was zero, "a" and "b" come to stand next to each other. -/
theorem stores_strings_zeros : StoresStrings (filledPage 0) 0 [nameA, nameB] := by
  have hfit : StringsFit (filledPage 0) (stringPlaces 0 [nameA, nameB]) := by
    refine (stringsFit_iff_of_nonempty (by decide) (List.cons_ne_nil _ _)
      (hasBuffer_filledPage 0 (by decide))).mpr ⟨by decide, ?_, by decide⟩
    exact (hasBuffer_filledPage 0 le_rfl).writable 4 (by decide)
  exact (stores_strings_iff (hasBuffer_filledPage 0 le_rfl).mapped 0 [nameA, nameB]).mpr hfit

/-- In other memory not even one string is stored, with or without a character. -/
theorem stores_strings_filled : (filledPage 65).HasBuffer 0 PageSize ∧
    ¬StoresStrings (filledPage 65) 0 [nameA] ∧ ¬StoresStrings (filledPage 65) 0 [emptyString] := by
  have hbuffer := hasBuffer_filledPage 65 le_rfl
  refine ⟨hbuffer, fun h => ?_, fun h => ?_⟩
  · exact absurd ((h.fit hbuffer.mapped).ended (0, nameA) List.mem_cons_self) (by decide)
  · exact absurd ((h.fit hbuffer.mapped).ended (0, emptyString) List.mem_cons_self) (by decide)

end Nachos

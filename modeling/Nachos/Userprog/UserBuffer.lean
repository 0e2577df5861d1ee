import Nachos.Machine.VirtualMemory
import Nachos.Userprog.Ksyscall

/-! Buffers of the user program, and what `User2System` and `System2User` carry across. -/
namespace Nachos

namespace Machine

/-- The user program may write the `n` bytes from `v` on. -/
structure HasBuffer (m : Machine) (v : Word) (n : ℕ) : Prop where
  mapped : ∃ t, m.Mapped t
  writable : ∀ i < n, m.Writable (v + BitVec.ofNat 32 i, 1)

variable {m m' : Machine} {v : Word} {n : ℕ}

/-- The result of a system call. -/
@[simp] theorem finished_two (m : Machine) (value : Word) :
    (m.finished value).registers 2 = value := rfl

@[simp] theorem virtualByte_finished (m : Machine) (value v : Word) :
    (m.finished value).virtualByte v = m.virtualByte v := rfl

theorem HasBuffer.confined (h : m.HasBuffer v n) (hc : Confined m m') : m'.HasBuffer v n := by
  obtain ⟨t, ht⟩ := h.mapped
  obtain ⟨t', ht', -⟩ := ht.confined hc
  exact ⟨⟨t', ht'⟩, fun i hi => (hc.writable_iff _).mpr (h.writable i hi)⟩

theorem HasBuffer.mono (h : m.HasBuffer v n) {n' : ℕ} (hn : n' ≤ n) : m.HasBuffer v n' :=
  ⟨h.mapped, fun i hi => h.writable i (hi.trans_le hn)⟩

theorem HasBuffer.translated (h : m.HasBuffer v n) {t : PageTable} (ht : m.Mapped t) {i : ℕ}
    (hi : i < n) : ∃ physAddr entry,
      Translated t m.pageTableSize (v + BitVec.ofNat 32 i) 1 true physAddr entry := by
  obtain ⟨t', physAddr, entry, ht', htr⟩ := h.writable i hi
  cases ht.table.symm.trans ht'
  exact ⟨physAddr, entry, htr⟩

/-- What can be written has something in it. -/
theorem HasBuffer.shows (h : m.HasBuffer v n) : ∃ bytes, bytes.length = n ∧ m.Shows v bytes := by
  obtain ⟨t, ht⟩ := h.mapped
  choose physAddr entry htr using fun i : Fin n => h.translated ht i.isLt
  refine ⟨List.ofFn fun i => m.mainMemory (physAddr i), List.length_ofFn, ?_⟩
  intro i hi
  rw [List.length_ofFn] at hi
  have hbyte := (htr ⟨i, hi⟩).byte (.inl rfl) Nat.zero_lt_one
  have hzero : v + BitVec.ofNat 32 i + BitVec.ofNat 32 0 = v + BitVec.ofNat 32 i :=
    BitVec.add_zero _
  rw [Nat.add_zero, hzero] at hbyte
  rw [ht.virtualByte_eq, readByte_eq_some hbyte, List.getElem?_ofFn, dif_pos hi]

theorem ofNat_add_succ (v : Word) (i j : ℕ) :
    v + BitVec.ofNat 32 (i + 1) + BitVec.ofNat 32 j =
      v + BitVec.ofNat 32 i + BitVec.ofNat 32 (j + 1) := by
  rw [BitVec.add_assoc, BitVec.add_assoc, ← BitVec.ofNat_add, ← BitVec.ofNat_add]
  congr 2
  omega

theorem ofNat_add_inj {i j : ℕ} (hi : i < 2 ^ 32) (hj : j < 2 ^ 32)
    (h : v + BitVec.ofNat 32 i = v + BitVec.ofNat 32 j) : i = j := by
  have hnat := congrArg BitVec.toNat (add_left_cancel h)
  rwa [BitVec.toNat_ofNat, BitVec.toNat_ofNat, Nat.mod_eq_of_lt hi, Nat.mod_eq_of_lt hj] at hnat

/-- A table over different frames of main memory. -/
theorem mapped_tableOf {frames : List ℕ} (hnodup : frames.Nodup)
    (hlt : ∀ frame ∈ frames, frame < NumPhysPages)
    (htable : m.table = some (AddrSpace.tableOf 0 frames))
    (hsize : m.pageTableSize = frames.length) : m.Mapped (AddrSpace.tableOf 0 frames) where
  table := htable
  complete := by rw [hsize, AddrSpace.length_tableOf]
  frame_lt i _ entry he _ :=
    hlt _ (List.mem_of_getElem? (AddrSpace.entry_of_tableOf hlt he).1)
  injective i hi j _ a b ha hb _ _ hframe := by
    have hia := (AddrSpace.entry_of_tableOf hlt ha).1
    have hjb := (AddrSpace.entry_of_tableOf hlt hb).1
    rw [hsize] at hi
    exact (List.getElem?_inj hi hnodup).mp (hia.trans (hframe ▸ hjb.symm))

/-- No more bytes are mapped one after another than there are in main memory. -/
theorem Mapped.length_le {t : PageTable} (ht : m.Mapped t) {writing : Bool}
    (h : ∀ i < n, ∃ physAddr entry,
      Translated t m.pageTableSize (v + BitVec.ofNat 32 i) 1 writing physAddr entry) :
    n ≤ MemorySize := by
  by_contra hlt
  have hmore (i : Fin (MemorySize + 1)) : (i : ℕ) < n := i.isLt.trans_le (not_le.mp hlt)
  choose physAddr entry htr using fun i : Fin (MemorySize + 1) => h i (hmore i)
  have hfits (i : Fin (MemorySize + 1)) : physAddr i < MemorySize := (htr i).fits
  obtain ⟨i, j, hne, heq⟩ := Fintype.exists_ne_map_eq_of_card_lt
    (fun i => (⟨physAddr i, hfits i⟩ : Fin MemorySize)) (by simp)
  -- both bytes are at the same offset of the same page
  have hphys : physAddr i = physAddr j := congrArg Fin.val heq
  have hi := (htr i).physAddr_eq
  have hj := (htr j).physAddr_eq
  have hframe : (entry i).pageFrame = (entry j).pageFrame := by
    simp only [PageSize] at hi hj
    omega
  have hpage := ht.injective _ (htr i).inTable _ (htr j).inTable _ _ (htr i).entry_eq
    (htr j).entry_eq (htr i).valid (htr j).valid hframe
  have hword : v + BitVec.ofNat 32 i = v + BitVec.ofNat 32 j := by
    apply BitVec.eq_of_toNat_eq
    rw [hframe] at hi
    simp only [PageSize] at hi hj hpage
    omega
  have hsmall (i : Fin (MemorySize + 1)) : (i : ℕ) < 2 ^ 32 := by
    have hlt := i.isLt
    simp only [MemorySize, NumPhysPages, PageSize] at hlt
    omega
  exact hne (Fin.ext (ofNat_add_inj (hsmall i) (hsmall j) hword))

theorem HasBuffer.length_le (h : m.HasBuffer v n) : n ≤ MemorySize := by
  obtain ⟨t, ht⟩ := h.mapped
  exact ht.length_le fun i hi => h.translated ht hi

theorem Shows.length_le (hmapped : ∃ t, m.Mapped t) {bytes : List UInt8}
    (h : m.Shows v bytes) : bytes.length ≤ MemorySize := by
  obtain ⟨t, ht⟩ := hmapped
  have hmap : ∀ i < bytes.length, ∃ physAddr entry,
      Translated t m.pageTableSize (v + BitVec.ofNat 32 i) 1 false physAddr entry := by
    intro i hi
    have hbyte := (ht.virtualByte_eq _).symm.trans ((h i hi).trans (List.getElem?_eq_getElem hi))
    exact exists_translated_of_readByte hbyte
  exact ht.length_le hmap

end Machine

theorem toNat_signExtend_mod (b : BitVec 8) : (b.signExtend 32).toNat % 256 = b.toNat := by
  have hlt := b.isLt
  rw [BitVec.toNat_signExtend, BitVec.toNat_setWidth]
  split <;> omega

/-- A `char` comes through an `int` unchanged, in both directions. -/
theorem ofNat_loaded (byte : UInt8) : UInt8.ofNat (loaded [byte]).toNat = byte := by
  apply UInt8.toNat_inj.mp
  rw [UInt8.toNat_ofNat']
  exact toNat_signExtend_mod byte.toBitVec

theorem byteOf_charValue (ch : UInt8) : LittleEndian.byteOf (charValue ch) 0 = ch := by
  apply UInt8.toNat_inj.mp
  have hch : BitVec.ofNat 8 ch.toNat = ch.toBitVec := by
    rw [← UInt8.toNat_toBitVec, BitVec.ofNat_toNat, BitVec.setWidth_eq]
  rw [LittleEndian.toNat_byteOf, Nat.pow_zero, Nat.div_one, charValue, hch]
  exact toNat_signExtend_mod _

theorem loaded_eq_zero {byte : UInt8} : loaded [byte] = 0 ↔ byte = 0 := by
  constructor
  · intro h
    rw [← ofNat_loaded byte, h]
    rfl
  · rintro rfl
    rfl

namespace Sys

open EStateM Machine

variable {W : Type} (host : Host W) {k : Kernel W}

/-- User memory has been read and nothing else. -/
def Looked (k k' : Kernel W) : Prop := k.Accessed k' ∧ k.machine.Unchanged k'.machine

theorem Looked.refl (k : Kernel W) : Looked k k := ⟨.refl k, rfl, fun _ => rfl⟩

theorem Looked.trans {k' k'' : Kernel W} (h : Looked k k') (h' : Looked k' k'') : Looked k k'' :=
  ⟨h.1.trans h'.1, h'.2.1.trans h.2.1, fun v => (h'.2.2 v).trans (h.2.2 v)⟩

theorem ends_readMem_shown {v : Word} {byte : UInt8} (hmapped : ∃ t, k.machine.Mapped t)
    (hbyte : k.machine.virtualByte v = some byte) :
    Ends (hardware (Sim.readMem v 1)) k (fun value k' => value = loaded [byte] ∧ Looked k k')
      fun _ _ => False := by
  obtain ⟨t, ht⟩ := hmapped
  have hshows : k.machine.Shows v [byte] := by
    intro i hi
    obtain rfl : i = 0 := Nat.lt_one_iff.mp hi
    exact (congrArg _ (BitVec.add_zero v)).trans hbyte
  obtain ⟨m', hread⟩ := (ht.readMem_iff (.inl rfl)).mpr ⟨rfl, [byte], rfl, hshows, rfl⟩
  have haccess := ends_readMem (k := k) v (.inl rfl)
  have hunchanged := ht.read_unchanged (v := v) (.inl rfl)
  unfold Ends hardware at *
  rw [hread] at haccess hunchanged ⊢
  exact ⟨rfl, haccess, hunchanged⟩

/-- `User2System` copies the string at the address, as far as its limit, with zeros behind it. -/
theorem ends_copyIn_shown {virtAddr : Word} {copied bytes : List UInt8} {n : ℕ}
    (hmapped : ∃ t, k.machine.Mapped t)
    (hshows : k.machine.Shows (virtAddr + BitVec.ofNat 32 copied.length) bytes)
    (hn : n ≤ bytes.length ∨ 0 ∈ bytes) :
    Ends (copyIn virtAddr n copied.length (copied ++ List.replicate (n + 1) 0)) k
      (fun buffer k' => buffer = copied ++ ((bytes.take n).takeWhile (· ≠ 0)).rightpad (n + 1) 0 ∧
        Looked k k') fun _ _ => False := by
  induction n generalizing copied bytes k with
  | zero => exact ⟨rfl, .refl k⟩
  | succ n ih =>
    cases bytes with
    | nil => simp at hn
    | cons byte bytes =>
    have hbyte : k.machine.virtualByte (virtAddr + BitVec.ofNat 32 copied.length) = some byte :=
      (congrArg _ (BitVec.add_zero _).symm).trans (hshows 0 (Nat.succ_pos _))
    refine (ends_readMem_shown hmapped hbyte).bind ?_ fun _ _ h => h
    rintro _ k₁ ⟨rfl, hk₁⟩
    have hin : (0 : ℤ) ≤ copied.length ∧ (copied.length : ℤ) <
        (copied ++ List.replicate (n + 1 + 1) (0 : UInt8)).length := by
      simp only [List.length_append, List.length_replicate]
      omega
    simp only [ends_bind, ends_poke, hin, and_self, if_true, ends_ite, Int.toNat_natCast,
      ofNat_loaded, loaded_eq_zero]
    have hpoked : (copied ++ List.replicate (n + 1 + 1) 0).set copied.length byte =
        (copied ++ [byte]) ++ List.replicate (n + 1) 0 := by
      rw [List.set_append_right _ _ le_rfl, Nat.sub_self, List.append_assoc]
      rfl
    split
    · next hzero =>
      subst hzero
      refine ⟨?_, hk₁⟩
      rw [hpoked, List.append_assoc]
      rfl
    · next hne =>
      have hlength : (copied ++ [byte]).length = copied.length + 1 := by simp
      rw [hpoked, ← hlength]
      have hmapped₁ : ∃ t, k₁.machine.Mapped t := by
        obtain ⟨t, ht⟩ := hmapped
        obtain ⟨t', ht', -⟩ := ht.confined hk₁.1.confined
        exact ⟨t', ht'⟩
      have hshows₁ : k₁.machine.Shows (virtAddr + BitVec.ofNat 32 (copied ++ [byte]).length)
          bytes := by
        intro i hi
        rw [hlength, ofNat_add_succ, hk₁.2.2, hshows (i + 1) (Nat.succ_lt_succ hi)]
        rfl
      refine (ih hmapped₁ hshows₁ ?_).mono ?_ fun _ _ h => h
      · refine hn.imp Nat.le_of_succ_le_succ fun hmem => ?_
        exact (List.mem_cons.mp hmem).resolve_left fun h => hne h.symm
      · rintro buffer k₂ ⟨rfl, hk₂⟩
        refine ⟨?_, hk₁.trans hk₂⟩
        simp only [List.take_succ_cons, List.takeWhile_cons, hne, ne_eq, not_false_eq_true,
          decide_true, if_true, List.rightpad, List.length_cons, List.append_assoc,
          List.cons_append, List.nil_append, Nat.add_sub_add_right]

theorem ends_user2System_shown {virtAddr : Word} {bytes : List UInt8} {limit : ℤ} {n : ℕ}
    (hlimit : limit = n) (hmapped : ∃ t, k.machine.Mapped t)
    (hshows : k.machine.Shows virtAddr bytes) (hn : n ≤ bytes.length ∨ 0 ∈ bytes)
    (hsize : n + 1 < 2 ^ 31) :
    Ends (user2System host virtAddr limit) k (fun buffer k' =>
        buffer = ((bytes.take n).takeWhile (· ≠ 0)).rightpad (n + 1) 0 ∧ Looked k k')
      fun _ _ => False := by
  have hfits : 0 ≤ limit + 1 ∧ limit + 1 < 2 ^ 31 := by omega
  have hnat : (limit + 1).toNat = n + 1 := by omega
  have hturns : limit.toNat = n := by omega
  simp only [user2System, ends_bind, ends_newChars, hfits, and_self, if_true, List.length_map,
    List.length_range, hnat, hturns]
  show Ends (copyIn virtAddr n ([] : List UInt8).length _) _ _ _
  refine ends_copyIn_shown hmapped ?_ hn
  rw [List.length_nil]
  rwa [show virtAddr + BitVec.ofNat 32 0 = virtAddr from BitVec.add_zero _]

/-- The address of a string of the user program, with its terminator. -/
def UserString (m : Machine) (v : Word) (s : List UInt8) : Prop :=
  (∃ t, m.Mapped t) ∧ 0 ∉ s ∧ m.Shows v (s ++ [0])

/-- A user string as a name, cut after `limit` characters. -/
def nameOf (limit : ℕ) {s : List UInt8} (hs : 0 ∉ s) : CString :=
  ⟨s.take limit, fun hmem => hs (List.mem_of_mem_take hmem)⟩

theorem takeWhile_take_string {s : List UInt8} (hs : 0 ∉ s) (n : ℕ) :
    ((s ++ [0]).take n).takeWhile (· ≠ 0) = s.take n := by
  induction s generalizing n with
  | nil => cases n <;> rfl
  | cons ch s ih =>
    obtain ⟨hch, hs⟩ := not_or.mp (List.mem_cons.not.mp hs)
    cases n with
    | zero => rfl
    | succ n =>
      rw [List.cons_append, List.take_succ_cons, List.takeWhile_cons, ih hs]
      simp [Ne.symm hch]

theorem takeWhile_ne_zero {s : List UInt8} (hs : 0 ∉ s) : s.takeWhile (· ≠ 0) = s := by
  refine List.takeWhile_eq_self_iff.mpr fun ch hch => ?_
  simp only [ne_eq, decide_not, Bool.not_eq_true', decide_eq_false_iff_not]
  rintro rfl
  exact hs hch

theorem takeWhile_rightpad {s : List UInt8} (hs : 0 ∉ s) (n : ℕ) :
    (s.rightpad n 0).takeWhile (· ≠ 0) = s := by
  have hpad (k : ℕ) : (List.replicate k (0 : UInt8)).takeWhile (· ≠ 0) = [] := by
    cases k <;> rfl
  rw [List.rightpad, List.takeWhile_append, takeWhile_ne_zero hs, if_pos rfl, hpad,
    List.append_nil]

/-- A string comes in cut at the limit. -/
theorem ends_user2System_string {virtAddr : Word} {s : List UInt8} {limit : ℤ} {n : ℕ}
    (hlimit : limit = n) (h : UserString k.machine virtAddr s) (hsize : n + 1 < 2 ^ 31) :
    Ends (user2System host virtAddr limit) k (fun buffer k' =>
        cString buffer = nameOf n h.2.1 ∧ Looked k k') fun _ _ => False := by
  have hzero : (0 : UInt8) ∈ s ++ [0] := by simp
  refine (ends_user2System_shown host hlimit h.1 h.2.2 (.inr hzero) hsize).mono ?_ fun _ _ h => h
  rintro buffer k' ⟨rfl, hk'⟩
  refine ⟨?_, hk'⟩
  apply Subtype.ext
  show List.takeWhile _ _ = _
  rw [takeWhile_take_string h.2.1]
  exact takeWhile_rightpad (nameOf n h.2.1).2 _

/-- A copy of `n` bytes from index `i` on gets to index `j`: no zero stops it before. -/
def Reaches (buffer : List UInt8) (i n j : ℕ) : Prop :=
  i ≤ j ∧ j < i + n ∧ ∀ l, i ≤ l → l < j → buffer[l]? ≠ some 0

theorem reaches_succ {buffer : List UInt8} {i n j : ℕ} : Reaches buffer i (n + 1) j ↔
    j = i ∨ buffer[i]? ≠ some 0 ∧ Reaches buffer (i + 1) n j := by
  unfold Reaches
  constructor
  · rintro ⟨h0, h1, hzero⟩
    rcases Nat.eq_or_lt_of_le h0 with rfl | hlt
    · exact .inl rfl
    · refine .inr ⟨hzero i le_rfl hlt, hlt, by omega, fun l hl => hzero l (by omega)⟩
  · rintro (rfl | ⟨hne, h0, h1, hzero⟩)
    · exact ⟨le_rfl, by omega, fun l h0 h1 => by omega⟩
    · refine ⟨by omega, by omega, fun l hl hlj => ?_⟩
      rcases Nat.eq_or_lt_of_le hl with rfl | hlt
      · exact hne
      · exact hzero l hlt hlj

/-- The bytes that a copy gets to are in user memory, and all else is as before. -/
structure CopiedOut (virtAddr : Word) (buffer : List UInt8) (i n : ℕ) (m m' : Machine) : Prop where
  copied : ∀ j, Reaches buffer i n j →
    m'.virtualByte (virtAddr + BitVec.ofNat 32 j) = buffer[j]?
  others : ∀ v, (∀ j, Reaches buffer i n j → v ≠ virtAddr + BitVec.ofNat 32 j) →
    m'.virtualByte v = m.virtualByte v

theorem ends_writeMem_buffer {v : Word} (ch : UInt8) (hmapped : ∃ t, k.machine.Mapped t)
    (hwritable : k.machine.Writable (v, 1)) :
    Ends (hardware (Sim.writeMem v 1 (charValue ch))) k (fun _ k' => k.Accessed k' ∧
        k'.machine.virtualByte v = some ch ∧
        ∀ v', v' ≠ v → k'.machine.virtualByte v' = k.machine.virtualByte v') fun _ _ => False := by
  obtain ⟨t, ht⟩ := hmapped
  obtain ⟨m', hwrite⟩ := (Sim.writeMem_ok_iff (charValue ch) (.inl rfl)).mpr hwritable
  have haccess := ends_writeMem (k := k) v (charValue ch)
  have hwritten := ht.written (.inl rfl) hwrite
  unfold Ends hardware at *
  rw [hwrite] at haccess ⊢
  refine ⟨haccess, ?_, ?_⟩
  · rw [hwritten, if_pos ⟨le_rfl, Nat.lt_succ_self _⟩, Nat.sub_self, byteOf_charValue]
  · intro v' hne
    rw [hwritten, if_neg]
    rintro ⟨h0, h1⟩
    exact hne (BitVec.eq_of_toNat_eq (Nat.le_antisymm (Nat.lt_succ_iff.mp h1) h0))

/-- `System2User` copies up to the first zero, and the zero. -/
theorem ends_copyOut_buffer {virtAddr : Word} {buffer : List UInt8} (n i : ℕ)
    (hbuffer : k.machine.HasBuffer virtAddr (i + n)) (hlength : i + n ≤ buffer.length) :
    Ends (copyOut virtAddr buffer n i) k (fun _ k' => k.Accessed k' ∧
      CopiedOut virtAddr buffer i n k.machine k'.machine) fun _ _ => False := by
  induction n generalizing i k with
  | zero => exact ⟨.refl k, fun j hj => by unfold Reaches at hj; omega, fun _ _ => rfl⟩
  | succ n ih =>
    have hin : (0 : ℤ) ≤ i ∧ (i : ℤ) < buffer.length := by omega
    have hget : buffer[i]? = some (buffer.getD i 0) := by
      rw [List.getD_eq_getElem?_getD, List.getElem?_eq_getElem (by omega)]
      rfl
    simp only [copyOut, ends_bind, ends_peek, hin, and_self, if_true, Int.toNat_natCast]
    refine (ends_writeMem_buffer _ hbuffer.mapped (hbuffer.writable i (by omega))).mono ?_
      fun _ _ h => h
    rintro _ k₁ ⟨hk₁, hwritten, hrest⟩
    rw [ends_ite]
    split
    · next hzero =>
      -- the copy ends here
      rw [hzero] at hget hwritten
      have hlast {j : ℕ} : Reaches buffer i (n + 1) j ↔ j = i := by
        rw [reaches_succ, or_iff_left]
        exact fun h => h.1 hget
      refine ⟨hk₁, ⟨?_, ?_⟩⟩
      · intro j hj
        rw [hlast.mp hj, hwritten, hget]
      · intro v hv
        exact hrest v (hv i (hlast.mpr rfl))
    · next hne =>
      have hget' : buffer[i]? ≠ some 0 := by
        rw [hget]
        exact fun heq => hne (Option.some.inj heq)
      refine (ih (i + 1) ?_ (by omega)).mono ?_ fun _ _ h => h
      · rw [Nat.add_assoc, Nat.add_comm 1]
        exact hbuffer.confined hk₁.confined
      · rintro _ k₂ ⟨hk₂, ⟨hcopied, hothers⟩⟩
        have hsize := hbuffer.length_le
        have hmemory : MemorySize < 2 ^ 32 := by decide
        refine ⟨hk₁.trans hk₂, ⟨?_, ?_⟩⟩
        · intro j hj
          rcases reaches_succ.mp hj with rfl | ⟨-, hj⟩
          · rw [hothers, hwritten, hget]
            intro l hl heq
            unfold Reaches at hl
            have heq := ofNat_add_inj (by omega) (by omega) heq
            omega
          · exact hcopied j hj
        · intro v hv
          rw [hothers v fun j hj => hv j (reaches_succ.mpr (.inr ⟨hget', hj⟩)),
            hrest v (hv i (reaches_succ.mpr (.inl rfl)))]

theorem ends_system2User_buffer {virtAddr : Word} {buffer : List UInt8} {len : ℤ} {n : ℕ}
    (hlen : len = n) (hbuffer : k.machine.HasBuffer virtAddr n) (hlength : n ≤ buffer.length) :
    Ends (system2User virtAddr len buffer) k (fun _ k' => k.Accessed k' ∧
      CopiedOut virtAddr buffer 0 n k.machine k'.machine) fun _ _ => False := by
  subst hlen
  rw [system2User, if_neg (by omega), Int.toNat_natCast]
  refine ends_copyOut_buffer n 0 ?_ ?_
  · rwa [Nat.zero_add]
  · rwa [Nat.zero_add]

end Sys
end Nachos

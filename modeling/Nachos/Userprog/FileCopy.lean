import Nachos.Userprog.FileRead
import Nachos.Userprog.FileWrite

/-! The loop of `test/copy.c`, which copies a file with `Read` and `Write`. -/
namespace Nachos

variable {W : Type}

/-- The machine with a system call and its arguments in the registers. -/
def Machine.calling (m : Machine) (code arg1 arg2 arg3 : Word) : Machine :=
  { m with registers := Function.update (Function.update (Function.update
      (Function.update m.registers 2 code) 4 arg1) 5 arg2) 6 arg3 }

theorem Machine.confined_calling (m : Machine) (code arg1 arg2 arg3 : Word) :
    m.Confined (m.calling code arg1 arg2 arg3) := ⟨rfl, rfl, fun _ => rfl, fun _ _ => rfl⟩

theorem Machine.confined_finished (m : Machine) (value : Word) : m.Confined (m.finished value) :=
  ⟨rfl, rfl, fun _ => rfl, fun _ _ => rfl⟩

def Kernel.calling (k : Kernel W) (code arg1 arg2 arg3 : Word) : Kernel W :=
  { k with machine := k.machine.calling code arg1 arg2 arg3 }

theorem FileSystem.entry_setEntry_of_ne {fs : FileSystem} {id id' : ℤ} (h : id' ≠ id)
    (file : Option OpenFile) : (fs.setEntry id file).entry id' = fs.entry id' := by
  unfold setEntry entry
  split
  · split
    · have hindex : id'.toNat ≠ id.toNat := by omega
      exact Function.update_of_ne (Fin.ne_of_val_ne hindex) ..
    · rfl
  · rfl

theorem overwrite_end (content bytes : List UInt8) :
    overwrite content content.length bytes = content ++ bytes := by
  rw [overwrite, List.rightpad, Nat.sub_self, List.replicate_zero, List.append_nil,
    List.take_length, List.drop_of_length_le (Nat.le_add_right ..), List.append_nil]

namespace Sys

open EStateM Machine

/-- A system call of the user program, and what it returns. -/
def call (host : Host W) (code arg1 arg2 arg3 : Word) : Sys W Word := do
  writeRegister 2 code
  writeRegister 4 arg1
  writeRegister 5 arg2
  writeRegister 6 arg3
  let _ ← exceptionHandler host .syscallException
  readRegister 2

/-- `turns` turns of the `while` loop at most, and whether it has come to its end. -/
def copyLoop (host : Host W) (buffer len src dst : Word) : ℕ → Word → Sys W Bool
  | 0, _ => pure false
  | turns + 1, byteRead =>
    if byteRead.toInt ≥ 1 then do
      let _ ← call host 8 buffer byteRead dst
      let byteRead ← call host 7 buffer len src
      copyLoop host buffer len src dst turns byteRead
    else pure true

/-- The copy of `main`, from its first `Read` on. -/
def copyFile (host : Host W) (buffer len src dst : Word) (turns : ℕ) : Sys W Bool := do
  let byteRead ← call host 7 buffer len src
  copyLoop host buffer len src dst turns byteRead

variable {host : Host W} {view : W → HostFiles} {k k' : Kernel W} {f g : OpenFile}
  {i j p q n : ℕ} {buffer len src dst : Word} {content : List UInt8}

theorem ends_call {code arg1 arg2 arg3 : Word} {handler : Sys W Unit}
    (hcode : syscall host code.toNat = resuming handler) {Q : Word → Kernel W → Prop}
    {E : Stop → Kernel W → Prop} : Ends (call host code arg1 arg2 arg3) k Q E ↔
      Ends handler (k.calling code arg1 arg2 arg3)
        (fun _ k' => Q (k'.machine.registers 2) k') E := by
  unfold call
  simp only [ends_bind, ends_writeRegister]
  show Ends (syscall host code.toNat) _ _ _ ↔ _
  rw [hcode]
  simp only [resuming, ends_bind, ends_pure, ends_readRegister]
  rfl

/-- The files of a copy: all but the offset in the entries is as it has been, file `i` holds
`content` and is at offset `p`, and `q` bytes of it have reached file `j`. -/
structure Copying (view : W → HostFiles) (buffer len src dst : Word) (f g : OpenFile) (i j : ℕ)
    (content : List UInt8) (p q : ℕ) (k : Kernel W) : Prop where
  source : ∃ c, k.OpenOn view src.toInt { f with currentOffset := c } i
  dest : ∃ c, k.WritableOn view dst.toInt { g with currentOffset := c } j
  two_le : 2 ≤ src.toInt
  sourceContent : (view k.host).content i = content
  destContent : (view k.host).content j = content.take q
  sourceOffset : k.offset view f = p
  destOffset : k.offset view g = q
  le_length : p ≤ content.length ∧ q ≤ content.length
  buffer : k.machine.HasBuffer buffer len.toNat

/-- `Read` has answered `n`, and that many bytes wait in the buffer. -/
structure Fetched (view : W → HostFiles) (buffer len src dst : Word) (f g : OpenFile) (i j : ℕ)
    (content : List UInt8) (q n : ℕ) (k : Kernel W) : Prop where
  copying : Copying view buffer len src dst f g i j content (q + n) q k
  shows : k.machine.Shows buffer ((content.drop q).take n)
  le_len : n ≤ len.toNat
  atEnd : n = 0 → q = content.length

namespace Copying

theorem file_ne (h : Copying view buffer len src dst f g i j content p q k) (hne : i ≠ j) :
    g.file ≠ f.file := by
  obtain ⟨c, hf⟩ := h.source
  obtain ⟨c', hg⟩ := h.dest
  intro heq
  have hi : (view k.host).file f.file = some i := hf.isOpen
  have hj : (view k.host).file g.file = some j := hg.openOn.isOpen
  rw [heq, hi] at hj
  exact hne (Option.some.inj hj)

theorem index_ne (h : Copying view buffer len src dst f g i j content p q k) (hne : i ≠ j) :
    dst.toInt ≠ src.toInt := by
  obtain ⟨c, hf⟩ := h.source
  obtain ⟨c', hg⟩ := h.dest
  intro heq
  have hentry := hg.openOn.entry
  rw [heq, hf.entry] at hentry
  exact h.file_ne hne (congrArg OpenFile.file (Option.some.inj hentry)).symm

theorem length_lt (hr : host.Regular view)
    (h : Copying view buffer len src dst f g i j content p q k) : content.length < 2 ^ 31 := by
  obtain ⟨c, hf⟩ := h.source
  rw [← h.sourceContent]
  exact (hr.small k.host f.file i hf.isOpen).2

/-- `Read` brings the next bytes of the source to the buffer. -/
theorem read (hr : host.Regular view) (hlen : 2 ≤ len.toInt) (hne : i ≠ j) (hclean : 0 ∉ content)
    (h : Copying view buffer len src dst f g i j content q q k) :
    Ends (call host 7 buffer len src) k (fun r k' => ∃ n, r = BitVec.ofNat 32 n ∧
        Fetched view buffer len src dst f g i j content q n k') fun _ _ => False := by
  obtain ⟨c, hf⟩ := h.source
  obtain ⟨c', hg⟩ := h.dest
  have hnat : (len.toNat : ℤ) = len.toInt := by
    rw [BitVec.toInt_eq_toNat_cond] at hlen ⊢
    split at hlen
    · rw [if_pos ‹_›]
    · omega
  have hcall : (k.calling 7 buffer len src).ReadCall view src.toInt { f with currentOffset := c }
      i len.toNat := {
    openOn := ⟨hf.entry, hf.isOpen⟩
    two_le := h.two_le
    index := rfl
    length := hnat.symm
    length_pos := by omega
    buffer := h.buffer.confined (k.machine.confined_calling ..) }
  rw [ends_call (show syscall host (7 : Word).toNat = resuming (scRead host) from rfl)]
  refine (ends_scRead_regular hr hcall).mono ?_ fun _ _ h => h
  intro _ k' hk'
  have hcontent : (view (k.calling 7 buffer len src).host).content i = content := h.sourceContent
  have hoffset : (k.calling 7 buffer len src).offset view { f with currentOffset := c } = q :=
    h.sourceOffset
  have hle := h.le_length.2
  have hmemory := h.buffer.length_le
  have hcount : readCount view (k.calling 7 buffer len src) { f with currentOffset := c } i
      len.toNat = min (len.toNat - 1) (content.length - q) := by
    rw [readCount, hcontent, hoffset]
  rw [hcount] at hk'
  generalize hn : min (len.toNat - 1) (content.length - q) = n at hk'
  have hresult := hk'.result
  have hfiles := hk'.files
  have htable := hk'.table
  rw [hcontent, hoffset] at hresult
  rw [hoffset] at hfiles htable
  obtain ⟨_, m, -, -, hm, hfinished⟩ := hk'.machine
  refine ⟨n, ?_, ?_, ?_, by omega, fun h0 => by omega⟩
  · rw [hresult, readResult]
    split
    · rw [show n = 0 by omega]
      rfl
    · rw [if_neg (by omega)]
  · exact {
      source := by
        refine ⟨BitVec.ofNat 32 (q + n), ?_, ?_⟩
        · rw [htable]
          exact FileSystem.entry_setEntry (FileSystem.range_of_entry hf.entry) _
        · rw [hfiles]
          exact hf.isOpen
      dest := by
        refine ⟨c', ⟨?_, ?_⟩, hg.two_le, hg.normal, hg.writable⟩
        · rw [htable, FileSystem.entry_setEntry_of_ne (h.index_ne hne)]
          exact hg.openOn.entry
        · rw [hfiles]
          exact hg.openOn.isOpen
      two_le := h.two_le
      sourceContent := by
        rw [hfiles]
        exact h.sourceContent
      destContent := by
        rw [hfiles]
        exact h.destContent
      sourceOffset := by
        rw [Kernel.offset, hfiles]
        exact HostFiles.moved_offset
      destOffset := by
        rw [Kernel.offset, hfiles]
        exact (Function.update_of_ne (h.file_ne hne) ..).trans h.destOffset
      le_length := ⟨by omega, hle⟩
      buffer := by
        rw [hfinished]
        exact h.buffer.confined (((k.machine.confined_calling ..).trans hm).trans
          (m.confined_finished _)) }
  · intro l hl
    have hln : l < n := hl.trans_le (List.length_take_le ..)
    have hbyte := hk'.byte (by omega) hln
    rw [hcontent, hoffset, if_pos fun l _ hzero => hclean (List.mem_of_getElem? hzero)] at hbyte
    rw [List.getElem?_take_of_lt hln, List.getElem?_drop]
    exact hbyte

end Copying

/-- `Write` brings them from there to the destination. -/
theorem Fetched.write (hr : host.Regular view) (hne : i ≠ j) (hclean : 0 ∉ content) (hn : 1 ≤ n)
    (hfetched : Fetched view buffer len src dst f g i j content q n k) :
    Ends (call host 8 buffer (BitVec.ofNat 32 n) dst) k
      (fun _ => Copying view buffer len src dst f g i j content (q + n) (q + n))
      fun _ _ => False := by
  have h := hfetched.copying
  obtain ⟨c, hf⟩ := h.source
  obtain ⟨c', hg⟩ := h.dest
  have hle := h.le_length.1
  have hmemory := h.buffer.length_le
  have hsmall : MemorySize < 2 ^ 20 := by decide
  have hlt := h.length_lt hr
  have hlength : ((content.drop q).take n).length = n := by
    rw [List.length_take, List.length_drop]
    omega
  have hmem : 0 ∉ (content.drop q).take n := fun hzero =>
    hclean (List.mem_of_mem_drop (List.mem_of_mem_take hzero))
  have hcall : (k.calling 8 buffer (BitVec.ofNat 32 n) dst).WriteCall dst.toInt
      ((content.drop q).take n) := {
    index := rfl
    length := by
      rw [hlength]
      exact toInt_ofNat_small (by omega)
    length_pos := hlength.symm ▸ hn
    mapped := (h.buffer.confined (k.machine.confined_calling ..)).mapped
    shows := hfetched.shows }
  have hon : (k.calling 8 buffer (BitVec.ofNat 32 n) dst).WritableOn view dst.toInt
      { g with currentOffset := c' } j :=
    ⟨⟨hg.openOn.entry, hg.openOn.isOpen⟩, hg.two_le, hg.normal, hg.writable⟩
  have hoffset : (k.calling 8 buffer (BitVec.ofNat 32 n) dst).offset view
      { g with currentOffset := c' } = q := h.destOffset
  rw [ends_call (show syscall host (8 : Word).toNat = resuming (scWrite host) from rfl)]
  refine (ends_scWrite_regular hr hcall hon).mono ?_ ?_
  · intro _ k' hk'
    rw [writtenBytes_of_notMem hmem] at hk'
    have hfiles := hk'.files
    have htable := hk'.table
    have hne' : (content.drop q).take n ≠ [] := List.ne_nil_of_length_pos (by omega)
    rw [hoffset, hlength] at htable
    rw [afterWrite, if_neg hne'] at hfiles
    obtain ⟨m, hm, hfinished⟩ := hk'.machine
    exact {
      source := by
        refine ⟨c, ?_, ?_⟩
        · rw [htable, FileSystem.entry_setEntry_of_ne (h.index_ne hne).symm]
          exact hf.entry
        · rw [hfiles]
          exact hf.isOpen
      dest := by
        refine ⟨BitVec.ofNat 32 (q + n), ⟨?_, ?_⟩, hg.two_le, hg.normal, hg.writable⟩
        · rw [htable]
          exact FileSystem.entry_setEntry (FileSystem.range_of_entry hg.openOn.entry) _
        · rw [hfiles]
          exact hg.openOn.isOpen
      two_le := h.two_le
      sourceContent := by
        rw [hfiles]
        exact (Function.update_of_ne hne ..).trans h.sourceContent
      destContent := by
        have hlen : (content.take q).length = q := by
          rw [List.length_take]
          omega
        rw [hfiles, List.take_add, ← overwrite_end, hlen, ← h.destContent]
        have hat : (view k.host).offset g.file = q := h.destOffset
        rw [← hat]
        exact Function.update_self ..
      sourceOffset := by
        rw [Kernel.offset, hfiles]
        exact (Function.update_of_ne (h.file_ne hne).symm ..).trans h.sourceOffset
      destOffset := hk'.offset.trans (by rw [hoffset, hlength])
      le_length := ⟨hle, hle⟩
      buffer := by
        rw [hfinished]
        exact h.buffer.confined (((k.machine.confined_calling ..).trans hm).trans
          (m.confined_finished _)) }
  · intro _ _ hfailed
    rw [writtenBytes_of_notMem hmem, hlength, hoffset] at hfailed
    rcases hfailed with hbuffer | hfar
    · exact hbuffer ((h.buffer.confined (k.machine.confined_calling ..)).mono hfetched.le_len)
    · omega

/-- Every turn of the loop moves at least one byte, so as many turns as there are bytes are
enough. -/
theorem ends_copyLoop (hr : host.Regular view) (hlen : 2 ≤ len.toInt) (hne : i ≠ j)
    (hclean : 0 ∉ content) (turns : ℕ) (hturns : content.length < turns + q)
    (h : Fetched view buffer len src dst f g i j content q n k) :
    Ends (copyLoop host buffer len src dst turns (BitVec.ofNat 32 n)) k (fun done k' =>
        done = true ∧ Copying view buffer len src dst f g i j content content.length
          content.length k') fun _ _ => False := by
  have hle := h.copying.le_length
  have hsmall := h.copying.length_lt hr
  induction turns generalizing q n k with
  | zero => omega
  | succ turns ih =>
    simp only [copyLoop, ends_ite, toInt_ofNat_small (show n < 2 ^ 31 by omega)]
    split
    · next hn =>
      refine (h.write hr hne hclean (by omega)).bind ?_ fun _ _ h => h
      intro _ k₁ hk₁
      refine (hk₁.read hr hlen hne hclean).bind ?_ fun _ _ h => h
      rintro _ k₂ ⟨n', rfl, hk₂⟩
      exact ih (by omega) hk₂ hk₂.copying.le_length
    · next hn =>
      obtain rfl : n = 0 := by omega
      have hend := h.atEnd rfl
      refine ⟨rfl, ?_⟩
      rw [← hend]
      exact h.copying

/-- Two files open for a copy: the source at its beginning and without zeros, the destination
empty. -/
structure CopyReady (view : W → HostFiles) (k : Kernel W) (buffer len src dst : Word)
    (f g : OpenFile) (i j : ℕ) : Prop where
  source : k.OpenOn view src.toInt f i
  source_two_le : 2 ≤ src.toInt
  dest : k.WritableOn view dst.toInt g j
  ne : i ≠ j
  clean : 0 ∉ (view k.host).content i
  sourceStart : k.offset view f = 0
  destEmpty : (view k.host).content j = []
  destStart : k.offset view g = 0
  two_le_len : 2 ≤ len.toInt
  buffer : k.machine.HasBuffer buffer len.toNat

/-- The destination has become the source, and both descriptors are at the end. -/
structure CopyDone (view : W → HostFiles) (k : Kernel W) (f g : OpenFile) (i j : ℕ)
    (k' : Kernel W) : Prop where
  dest : (view k'.host).content j = (view k.host).content i
  source : (view k'.host).content i = (view k.host).content i
  sourceEnd : k'.offset view f = ((view k.host).content i).length
  destEnd : k'.offset view g = ((view k.host).content i).length

theorem CopyReady.copying (h : CopyReady view k buffer len src dst f g i j) :
    Copying view buffer len src dst f g i j ((view k.host).content i) 0 0 k where
  source := ⟨f.currentOffset, h.source⟩
  dest := ⟨g.currentOffset, h.dest⟩
  two_le := h.source_two_le
  sourceContent := rfl
  destContent := h.destEmpty
  sourceOffset := h.sourceStart
  destOffset := h.destStart
  le_length := ⟨Nat.zero_le _, Nat.zero_le _⟩
  buffer := h.buffer

/-- The loop of `Read` and `Write` ends, and the destination is then a copy of the source. -/
theorem copy_reproduces (hr : host.Regular view)
    (h : CopyReady view k buffer len src dst f g i j) :
    ∃ enough, ∀ turns ≥ enough, Ends (copyFile host buffer len src dst turns) k
      (fun done k' => done = true ∧ CopyDone view k f g i j k') fun _ _ => False := by
  refine ⟨((view k.host).content i).length + 1, fun turns hturns => ?_⟩
  refine (h.copying.read hr h.two_le_len h.ne h.clean).bind ?_ fun _ _ h => h
  rintro _ k₁ ⟨n, rfl, hk₁⟩
  refine (ends_copyLoop hr h.two_le_len h.ne h.clean turns (by omega) hk₁).mono ?_ fun _ _ h => h
  rintro done k₂ ⟨hdone, hk₂⟩
  exact ⟨hdone, {
    dest := hk₂.destContent.trans (List.take_length ..)
    source := hk₂.sourceContent
    sourceEnd := hk₂.sourceOffset
    destEnd := hk₂.destOffset }⟩

/-- The file `ab` at index 2, and an empty one at index 3. -/
def copyKernel : Kernel FileWorld where
  machine :=
    { registers := fun _ => 0
      mainMemory := fun _ => 0
      pageTable := some 0
      pageTableSize := 1
      tables := fun _ => AddrSpace.tableOf 0 [0] }
  fileSystem := (FileSystem.blank.setEntry 2 (some (OpenFile.new 7 0 0))).setEntry 3
    (some (OpenFile.new 8 0 0))
  host :=
    { files := ⟨fun fd => if fd = 7 then some 0 else if fd = 8 then some 1 else none,
        fun i => if i = 0 then [97, 98] else [], fun _ => 0⟩
      small := by
        intro fd i _
        refine ⟨show 0 < 2 ^ 31 by decide, ?_⟩
        dsimp only
        split <;> decide }

theorem copyReady_copyKernel : CopyReady FileWorld.files copyKernel 0 2 2 3
    (OpenFile.new 7 0 0) (OpenFile.new 8 0 0) 0 1 where
  source := ⟨rfl, rfl⟩
  source_two_le := by decide
  dest := ⟨⟨rfl, rfl⟩, by decide, rfl, by decide⟩
  ne := by decide
  clean := show 0 ∉ [97, 98] by decide
  sourceStart := rfl
  destEmpty := rfl
  destStart := rfl
  two_le_len := by decide
  buffer := Descriptors.hasBuffer_onePage rfl rfl (by decide)

theorem copy_reproduces_ab : ∃ enough, ∀ turns ≥ enough,
    Ends (copyFile FileWorld.host 0 2 2 3 turns) copyKernel (fun done k' => done = true ∧
      CopyDone FileWorld.files copyKernel (OpenFile.new 7 0 0) (OpenFile.new 8 0 0) 0 1 k')
      fun _ _ => False :=
  copy_reproduces FileWorld.regular copyReady_copyKernel

end Sys
end Nachos

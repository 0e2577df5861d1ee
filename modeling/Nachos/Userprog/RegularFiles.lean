import Nachos.Userprog.HandlerFrames
import Nachos.Userprog.UserBuffer

/-! Regular files of the host, and what the member functions of an open file do to them. An offset
of the host (`off_t`) has 31 bits and a sign. -/
namespace Nachos

/-- The regular files of the host, and which of its descriptors are open on them. -/
structure HostFiles where
  /-- The file a descriptor is open on. -/
  file : Word → Option ℕ
  content : ℕ → List UInt8
  offset : Word → ℕ

/-- A file after a write at an offset, with zeros up to there. -/
def overwrite (content : List UInt8) (offset : ℕ) (bytes : List UInt8) : List UInt8 :=
  (content.rightpad offset 0).take offset ++ bytes ++ content.drop (offset + bytes.length)

namespace HostFiles

def moved (v : HostFiles) (fd : Word) (offset : ℕ) : HostFiles :=
  { v with offset := Function.update v.offset fd offset }

/-- Bytes have been written through `fd` to file `i`. -/
def written (v : HostFiles) (fd : Word) (i : ℕ) (bytes : List UInt8) : HostFiles :=
  { v with
    content := Function.update v.content i (overwrite (v.content i) (v.offset fd) bytes)
    offset := Function.update v.offset fd (v.offset fd + bytes.length) }

variable {v : HostFiles} {fd : Word} {offset offset' : ℕ}

@[simp] theorem moved_file : (v.moved fd offset).file = v.file := rfl

@[simp] theorem moved_content : (v.moved fd offset).content = v.content := rfl

@[simp] theorem moved_offset : (v.moved fd offset).offset fd = offset := Function.update_self ..

@[simp] theorem moved_moved : (v.moved fd offset).moved fd offset' = v.moved fd offset' := by
  unfold moved
  simp only [Function.update_idem]

@[simp] theorem moved_self : v.moved fd (v.offset fd) = v := by
  unfold moved
  rw [Function.update_eq_self]

/-- No offset and no length is out of range. -/
def Small (v : HostFiles) : Prop :=
  ∀ fd i, v.file fd = some i → v.offset fd < 2 ^ 31 ∧ (v.content i).length < 2 ^ 31

end HostFiles

variable {W : Type}

/-- What POSIX says about a descriptor that is open on a regular file, without short transfers. -/
structure Host.Regular (host : Host W) (view : W → HostFiles) : Prop where
  small : ∀ w, (view w).Small
  seekSet : ∀ w fd i offset, (view w).file fd = some i → 0 ≤ offset.toInt →
    (host.lseek w fd offset 0).1 = offset ∧
      view (host.lseek w fd offset 0).2 = (view w).moved fd offset.toNat
  seekCur : ∀ w fd i, (view w).file fd = some i →
    (host.lseek w fd 0 1).1 = BitVec.ofNat 32 ((view w).offset fd) ∧
      view (host.lseek w fd 0 1).2 = view w
  seekEnd : ∀ w fd i, (view w).file fd = some i →
    (host.lseek w fd 0 2).1 = BitVec.ofNat 32 ((view w).content i).length ∧
      view (host.lseek w fd 0 2).2 = (view w).moved fd ((view w).content i).length
  read : ∀ w fd i count, (view w).file fd = some i → count ≤ MaxTransfer →
    let bytes := (((view w).content i).drop ((view w).offset fd)).take count
    (host.read w fd count).1.bytes = some bytes ∧
      view (host.read w fd count).2 = (view w).moved fd ((view w).offset fd + bytes.length)
  write : ∀ w fd i bytes, (view w).file fd = some i → bytes ≠ [] →
    (view w).offset fd + bytes.length < 2 ^ 31 →
    (host.write w fd bytes).1 = BitVec.ofNat 32 bytes.length ∧
      view (host.write w fd bytes).2 = (view w).written fd i bytes
  /-- Nothing is written past the largest offset. -/
  writeTooFar : ∀ w fd i bytes, (view w).file fd = some i →
    2 ^ 31 ≤ (view w).offset fd + bytes.length →
    (host.write w fd bytes).1.toInt ≠ bytes.length

/-- Entry `id` is an open file, and its descriptor is open on file `i` of the host. -/
structure Kernel.OpenOn (view : W → HostFiles) (k : Kernel W) (id : ℤ) (f : OpenFile) (i : ℕ) :
    Prop where
  entry : k.fileSystem.entry id = some f
  isOpen : (view k.host).file f.file = some i

/-- A member function has ended with entry `id` as `f` and the files of the host as `v`. -/
def Kernel.Used (view : W → HostFiles) (k : Kernel W) (id : ℤ) (f : OpenFile) (v : HostFiles)
    (k' : Kernel W) : Prop :=
  ∃ w, view w = v ∧ k' = ⟨k.machine, k.fileSystem.setEntry id (some f), w⟩

/-- The open file at another offset. -/
def OpenFile.movedTo (f : OpenFile) (p : ℕ) : OpenFile :=
  { f with currentOffset := BitVec.ofNat 32 p }

@[simp] theorem OpenFile.movedTo_file (f : OpenFile) (p : ℕ) : (f.movedTo p).file = f.file := rfl

@[simp] theorem OpenFile.movedTo_movedTo (f : OpenFile) (p q : ℕ) :
    (f.movedTo p).movedTo q = f.movedTo q := rfl

/-- The offset of the descriptor. -/
def Kernel.offset (view : W → HostFiles) (k : Kernel W) (f : OpenFile) : ℕ :=
  (view k.host).offset f.file

theorem FileSystem.setEntry_setEntry (fs : FileSystem) (id : ℤ) (file file' : Option OpenFile) :
    (fs.setEntry id file).setEntry id file' = fs.setEntry id file' := by
  unfold setEntry
  split
  · simp only [Function.update_idem]
  · rfl

theorem FileSystem.setEntry_self {fs : FileSystem} {id : ℤ} {file : Option OpenFile}
    (h : fs.entry id = file) : fs.setEntry id file = fs := by
  subst h
  unfold setEntry entry
  split
  · simp only [Function.update_eq_self]
  · rfl

namespace Kernel

variable {view : W → HostFiles} {k k' : Kernel W} {id : ℤ} {f f' : OpenFile} {i : ℕ}
  {v : HostFiles}

theorem Used.refl (h : k.OpenOn view id f i) : k.Used view id f (view k.host) k :=
  ⟨k.host, rfl, by rw [FileSystem.setEntry_self h.entry]⟩

theorem Used.openOn (hu : k.Used view id f' v k') (h : k.OpenOn view id f i)
    (hf : f'.file = f.file) (hv : v.file = (view k.host).file) : k'.OpenOn view id f' i := by
  obtain ⟨w, rfl, rfl⟩ := hu
  refine ⟨FileSystem.entry_setEntry (FileSystem.range_of_entry h.entry) _, ?_⟩
  rw [hf, hv]
  exact h.isOpen

theorem Used.machine (hu : k.Used view id f v k') : k'.machine = k.machine := by
  obtain ⟨w, -, rfl⟩ := hu
  rfl

theorem Used.files (hu : k.Used view id f v k') : view k'.host = v := by
  obtain ⟨w, hw, rfl⟩ := hu
  exact hw

theorem Used.fileSystem (hu : k.Used view id f v k') :
    k'.fileSystem = k.fileSystem.setEntry id (some f) := by
  obtain ⟨w, -, rfl⟩ := hu
  rfl

end Kernel

namespace Sys

open EStateM

variable {host : Host W} {view : W → HostFiles} {k : Kernel W} {id : ℤ} {f : OpenFile} {i : ℕ}

theorem toInt_ofNat_small {n : ℕ} (hn : n < 2 ^ 31) : (BitVec.ofNat 32 n).toInt = n := by
  rw [BitVec.toInt_ofNat']
  exact Int.bmod_eq_of_le (by omega) (by omega)

theorem toNat_ofNat_small {n : ℕ} (hn : n < 2 ^ 31) : (BitVec.ofNat 32 n).toNat = n := by
  rw [BitVec.toNat_ofNat]
  omega

theorem ofNat_add_sub (p r : ℕ) :
    BitVec.ofNat 32 (p + r) - BitVec.ofNat 32 p = BitVec.ofNat 32 r := by
  rw [BitVec.ofNat_add, BitVec.add_comm, BitVec.add_sub_cancel]

theorem ofNat_inj_small {p n : ℕ} (hp : p < 2 ^ 31) (hn : n < 2 ^ 31) :
    BitVec.ofNat 32 p = BitVec.ofNat 32 n ↔ p = n := by
  refine ⟨fun h => ?_, congrArg _⟩
  rw [← toNat_ofNat_small hp, h, toNat_ofNat_small hn]

theorem ends_getCurrentPos_regular (hr : host.Regular view) (hk : k.OpenOn view id f i) :
    Ends (onFile id (OpenFile.getCurrentPos host)) k (fun pos k' =>
        pos = BitVec.ofNat 32 (k.offset view f) ∧
        k.Used view id (f.movedTo (k.offset view f)) (view k.host) k')
      fun _ _ => False := by
  obtain ⟨hpos, hview⟩ := hr.seekCur k.host f.file i hk.isOpen
  rw [ends_onFile hk.entry]
  simp only [OpenFile.getCurrentPos, ends_bind, ends_tell, ends_pure, hpos]
  exact ⟨rfl, _, hview, rfl⟩

theorem ends_length_regular (hr : host.Regular view) (hk : k.OpenOn view id f i) :
    Ends (onFile id (OpenFile.length host)) k (fun length k' =>
        length = BitVec.ofNat 32 ((view k.host).content i).length ∧
        k.Used view id f ((view k.host).moved f.file ((view k.host).content i).length) k')
      fun _ _ => False := by
  obtain ⟨hpos, hview⟩ := hr.seekEnd k.host f.file i hk.isOpen
  have hsmall := (hr.small k.host f.file i hk.isOpen).2
  have hisOpen : (view (host.lseek k.host f.file 0 2).2).file f.file = some i := by
    rw [hview]
    exact hk.isOpen
  obtain ⟨htold, hview'⟩ := hr.seekCur _ f.file i hisOpen
  rw [ends_onFile hk.entry]
  simp only [OpenFile.length, ends_bind, ends_lseek, ends_tell, ends_pure, hpos,
    toInt_ofNat_small hsmall, Int.natCast_nonneg, if_true]
  refine ⟨?_, _, hview'.trans hview, rfl⟩
  rw [htold, hview, HostFiles.moved_offset]

theorem ends_seek_regular (hr : host.Regular view) (hk : k.OpenOn view id f i) {pos : Word}
    (h0 : 0 ≤ pos.toInt) :
    Ends (onFile id fun f => f.seek host pos) k (fun _ k' =>
        k.Used view id (f.movedTo pos.toNat) ((view k.host).moved f.file pos.toNat) k')
      fun _ _ => False := by
  obtain ⟨hpos, hview⟩ := hr.seekSet k.host f.file i pos hk.isOpen h0
  have hisOpen : (view (host.lseek k.host f.file pos 0).2).file f.file = some i := by
    rw [hview]
    exact hk.isOpen
  obtain ⟨htold, hview'⟩ := hr.seekCur _ f.file i hisOpen
  rw [hview, HostFiles.moved_offset, BitVec.ofNat_toNat, BitVec.setWidth_eq] at htold
  rw [ends_onFile hk.entry]
  simp only [OpenFile.seek, ends_bind, ends_lseek, ends_tell, ends_pure, hpos, h0, if_true, htold]
  refine ⟨_, hview'.trans hview, ?_⟩
  rw [OpenFile.movedTo, BitVec.ofNat_toNat, BitVec.setWidth_eq]

theorem ends_read_regular (hr : host.Regular view) (hk : k.OpenOn view id f i) {p n : ℕ}
    (hp : f.currentOffset = BitVec.ofNat 32 p) (hsmall : p < 2 ^ 31) {into : List UInt8}
    (hinto : n ≤ into.length) (hn : n ≤ MaxTransfer) :
    Ends (onFile id fun f => f.read host into n) k (fun r k' =>
        let bytes := (((view k.host).content i).drop p).take n
        r = (BitVec.ofNat 32 bytes.length, bytes ++ into.drop bytes.length) ∧
        k.Used view id (f.movedTo (p + bytes.length))
          ((view k.host).moved f.file (p + bytes.length)) k')
      fun _ _ => False := by
  have h0 : 0 ≤ f.currentOffset.toInt := by
    rw [hp, toInt_ofNat_small hsmall]
    exact Int.natCast_nonneg p
  obtain ⟨hpos, hview⟩ := hr.seekSet k.host f.file i f.currentOffset hk.isOpen h0
  rw [hp, toNat_ofNat_small hsmall, ← hp] at hview
  have hisOpen : (view (host.lseek k.host f.file f.currentOffset 0).2).file f.file = some i := by
    rw [hview]
    exact hk.isOpen
  have hcount : sizeT n = n := by
    have hmax : MaxTransfer < 2 ^ 31 := by decide
    have hsize := toNat_sizeT (n := n) (by omega) (by omega)
    omega
  obtain ⟨hread, hview'⟩ := hr.read _ f.file i (sizeT n) hisOpen (hcount.le.trans hn)
  rw [hview, HostFiles.moved_content, HostFiles.moved_offset] at hread hview'
  rw [HostFiles.moved_moved] at hview'
  have hbytes : (((view k.host).content i).drop p).take (sizeT n) =
      (((view k.host).content i).drop p).take n := by rw [hcount]
  have hstored := congrArg (Option.getD · []) (hread.trans (congrArg some hbytes))
  have hvalue : (host.read (host.lseek k.host f.file f.currentOffset 0).2 f.file
      (sizeT n)).1.value =
        BitVec.ofNat 32 ((((view k.host).content i).drop p).take n).length := by
    unfold Transfer.value
    rw [hread, hbytes]
  rw [hbytes] at hview'
  have hfits : ((((view k.host).content i).drop p).take n).length ≤ into.length := by
    rw [List.length_take]
    omega
  rw [ends_onFile hk.entry]
  simp only [OpenFile.read, OpenFile.readAt, ends_bind, ends_lseek, ends_readPartial, ends_pure,
    hpos, h0, if_true, hvalue, Transfer.stored, hstored, Option.getD_some, hfits]
  refine ⟨trivial, _, hview', ?_⟩
  rw [hp, OpenFile.movedTo, BitVec.ofNat_add]

theorem ends_write_regular (hr : host.Regular view) (hk : k.OpenOn view id f i) {p n : ℕ}
    (hp : f.currentOffset = BitVec.ofNat 32 p) (hn : n ≠ 0) (hsmall : p + n < 2 ^ 31)
    {src : List UInt8} (hsrc : n ≤ src.length) :
    Ends (onFile id fun f => f.write host src n) k (fun r k' =>
        r = BitVec.ofNat 32 n ∧
        k.Used view id (f.movedTo (p + n))
          (((view k.host).moved f.file p).written f.file i (src.take n)) k')
      fun _ _ => False := by
  have h0 : 0 ≤ f.currentOffset.toInt := by
    rw [hp, toInt_ofNat_small (by omega)]
    exact Int.natCast_nonneg p
  obtain ⟨hpos, hview⟩ := hr.seekSet k.host f.file i f.currentOffset hk.isOpen h0
  rw [hp, toNat_ofNat_small (by omega), ← hp] at hview
  have hisOpen : (view (host.lseek k.host f.file f.currentOffset 0).2).file f.file = some i := by
    rw [hview]
    exact hk.isOpen
  have hlength : (src.take n).length = n := by
    rw [List.length_take]
    omega
  have hne : src.take n ≠ [] := List.ne_nil_of_length_pos (by omega)
  obtain ⟨hwritten, hview'⟩ := hr.write _ f.file i (src.take n) hisOpen hne
    (by rw [hview, HostFiles.moved_offset]; omega)
  rw [hview] at hview'
  have hcount : sizeT n = n := by
    have hsize := toNat_sizeT (n := n) (by omega) (by omega)
    omega
  rw [hlength] at hwritten
  rw [ends_onFile hk.entry]
  simp only [OpenFile.write, OpenFile.writeAt, ends_bind, ends_lseek, ends_writeFile, ends_pure,
    hpos, h0, if_true, hcount, hsrc, hwritten, toInt_ofNat_small (show n < 2 ^ 31 by omega)]
  refine ⟨BitVec.ofInt_natCast .., _, hview', ?_⟩
  rw [hp, OpenFile.movedTo, BitVec.ofNat_add, BitVec.ofInt_natCast]

/-- A write that would go past the largest offset fails the assertion in `WriteFile`. -/
theorem ends_write_tooFar (hr : host.Regular view) (hk : k.OpenOn view id f i) {p n : ℕ}
    (hp : f.currentOffset = BitVec.ofNat 32 p) (hpsmall : p < 2 ^ 31) (hn : n < 2 ^ 31)
    (hfar : 2 ^ 31 ≤ p + n) {src : List UInt8} (hsrc : n ≤ src.length) :
    Ends (onFile id fun f => f.write host src n) k (fun _ _ => False)
      fun stop _ => stop = .abort := by
  have h0 : 0 ≤ f.currentOffset.toInt := by
    rw [hp, toInt_ofNat_small hpsmall]
    exact Int.natCast_nonneg p
  obtain ⟨hpos, hview⟩ := hr.seekSet k.host f.file i f.currentOffset hk.isOpen h0
  rw [hp, toNat_ofNat_small hpsmall, ← hp] at hview
  have hisOpen : (view (host.lseek k.host f.file f.currentOffset 0).2).file f.file = some i := by
    rw [hview]
    exact hk.isOpen
  have hlength : (src.take n).length = n := by
    rw [List.length_take]
    omega
  have hfailed := hr.writeTooFar _ f.file i (src.take n) hisOpen
    (by rw [hview, HostFiles.moved_offset]; omega)
  rw [hlength] at hfailed
  have hcount : sizeT n = n := by
    have hsize := toNat_sizeT (n := n) (by omega) (by omega)
    omega
  rw [ends_onFile hk.entry]
  simp only [OpenFile.write, OpenFile.writeAt, ends_bind, ends_lseek, ends_writeFile, ends_pure,
    hpos, h0, if_true, hcount, hsrc, hfailed, if_false]

/-- A handler has come from `k` to `k'` by work on one open file: user memory shows the same, the
entry is at offset `p`, and the files of the host are `v`. -/
structure Working (view : W → HostFiles) (k : Kernel W) (id : ℤ) (f : OpenFile) (i p : ℕ)
    (v : HostFiles) (k' : Kernel W) : Prop where
  confined : k.machine.Confined k'.machine
  same : ∀ a, k'.machine.virtualByte a = k.machine.virtualByte a
  table : k'.fileSystem = k.fileSystem.setEntry id (some (f.movedTo p))
  files : view k'.host = v
  range : 0 ≤ id ∧ id < 20
  isOpen : v.file f.file = some i

namespace Working

variable {k' k'' : Kernel W} {p p' : ℕ} {v v' : HostFiles}

theorem start (h : k.OpenOn view id f i) :
    Working view k id f i f.currentOffset.toNat (view k.host) k where
  confined := .refl _
  same _ := rfl
  table := by
    rw [OpenFile.movedTo, BitVec.ofNat_toNat, BitVec.setWidth_eq]
    exact (FileSystem.setEntry_self h.entry).symm
  files := rfl
  range := FileSystem.range_of_entry h.entry
  isOpen := h.isOpen

theorem openOn (h : Working view k id f i p v k') : k'.OpenOn view id (f.movedTo p) i where
  entry := by
    rw [h.table]
    exact FileSystem.entry_setEntry h.range _
  isOpen := by
    rw [h.files]
    exact h.isOpen

theorem used (h : Working view k id f i p v k') (hu : k'.Used view id (f.movedTo p') v' k'')
    (hv : v'.file = v.file) : Working view k id f i p' v' k'' where
  confined := hu.machine ▸ h.confined
  same a := by rw [hu.machine, h.same]
  table := by rw [hu.fileSystem, h.table, FileSystem.setEntry_setEntry]
  files := hu.files
  range := h.range
  isOpen := hv ▸ h.isOpen

theorem looked (h : Working view k id f i p v k') (hl : Looked k' k'') :
    Working view k id f i p v k'' where
  confined := h.confined.trans hl.1.confined
  same a := (hl.2.2 a).trans (h.same a)
  table := hl.1.fileSystem.trans h.table
  files := by rw [hl.1.host, h.files]
  range := h.range
  isOpen := h.isOpen

/-- A buffer is still one, and shows what it did. -/
theorem hasBuffer (h : Working view k id f i p v k') {a : Word} {n : ℕ}
    (hb : k.machine.HasBuffer a n) : k'.machine.HasBuffer a n := hb.confined h.confined

theorem shows (h : Working view k id f i p v k') {a : Word} {bytes : List UInt8}
    (hs : k.machine.Shows a bytes) : k'.machine.Shows a bytes := fun j hj =>
  (h.same _).trans (hs j hj)

theorem getCurrentPos (hr : host.Regular view) (h : Working view k id f i p v k') :
    Ends (onFile id (OpenFile.getCurrentPos host)) k' (fun pos k'' =>
        pos = BitVec.ofNat 32 (v.offset f.file) ∧
        Working view k id f i (v.offset f.file) v k'') fun _ _ => False := by
  refine (ends_getCurrentPos_regular hr h.openOn).mono ?_ fun _ _ h => h
  rintro _ k'' ⟨rfl, hu⟩
  rw [Kernel.offset, h.files] at *
  exact ⟨rfl, h.used hu rfl⟩

theorem length (hr : host.Regular view) (h : Working view k id f i p v k') :
    Ends (onFile id (OpenFile.length host)) k' (fun length k'' =>
        length = BitVec.ofNat 32 (v.content i).length ∧
        Working view k id f i p (v.moved f.file (v.content i).length) k'')
      fun _ _ => False := by
  refine (ends_length_regular hr h.openOn).mono ?_ fun _ _ h => h
  rintro _ k'' ⟨rfl, hu⟩
  rw [h.files] at *
  exact ⟨rfl, h.used hu rfl⟩

theorem read (hr : host.Regular view) (h : Working view k id f i p v k') (hp : p < 2 ^ 31) {n : ℕ}
    {into : List UInt8} (hinto : n ≤ into.length) (hn : n ≤ MaxTransfer) :
    Ends (onFile id fun f => f.read host into n) k' (fun r k'' =>
        let bytes := ((v.content i).drop p).take n
        r = (BitVec.ofNat 32 bytes.length, bytes ++ into.drop bytes.length) ∧
        Working view k id f i (p + bytes.length) (v.moved f.file (p + bytes.length)) k'')
      fun _ _ => False := by
  refine (ends_read_regular hr h.openOn rfl hp hinto hn).mono ?_ fun _ _ h => h
  rintro _ k'' ⟨rfl, hu⟩
  rw [h.files] at *
  exact ⟨rfl, h.used hu rfl⟩

theorem write (hr : host.Regular view) (h : Working view k id f i p v k') {n : ℕ} (hn : n ≠ 0)
    (hsmall : p + n < 2 ^ 31) {src : List UInt8} (hsrc : n ≤ src.length) :
    Ends (onFile id fun f => f.write host src n) k' (fun r k'' => r = BitVec.ofNat 32 n ∧
        Working view k id f i (p + n) ((v.moved f.file p).written f.file i (src.take n)) k'')
      fun _ _ => False := by
  refine (ends_write_regular hr h.openOn rfl hn hsmall hsrc).mono ?_ fun _ _ h => h
  rintro _ k'' ⟨rfl, hu⟩
  rw [h.files] at *
  exact ⟨rfl, h.used hu rfl⟩

end Working

end Sys

theorem length_overwrite {content bytes : List UInt8} {offset : ℕ} :
    (overwrite content offset bytes).length = max content.length (offset + bytes.length) := by
  unfold overwrite
  simp only [List.length_append, List.length_take, List.length_drop, List.length_rightpad]
  omega

namespace HostFiles

variable {v : HostFiles}

theorem Small.moved (h : v.Small) (fd : Word) {offset : ℕ} (hoffset : offset < 2 ^ 31) :
    (v.moved fd offset).Small := by
  intro fd' i hi
  refine ⟨?_, (h fd' i hi).2⟩
  show Function.update v.offset fd offset fd' < _
  rw [Function.update_apply]
  split
  · exact hoffset
  · exact (h fd' i hi).1

theorem Small.written (h : v.Small) {fd : Word} {i : ℕ} (hi : v.file fd = some i)
    {bytes : List UInt8} (hfits : v.offset fd + bytes.length < 2 ^ 31) :
    (v.written fd i bytes).Small := by
  intro fd' j hj
  refine ⟨(h.moved fd hfits fd' j hj).1, ?_⟩
  show (Function.update v.content i _ j).length < _
  rw [Function.update_apply]
  split
  · rw [length_overwrite]
    exact max_lt (h fd i hi).2 hfits
  · exact (h fd' j hj).2

end HostFiles

theorem toNat_lt_of_toInt_nonneg {offset : Word} (h : 0 ≤ offset.toInt) :
    offset.toNat < 2 ^ 31 := by
  rw [BitVec.toInt_eq_toNat_cond] at h
  split at h <;> omega

/-- A host that has regular files and nothing else. -/
structure FileWorld where
  files : HostFiles
  small : files.Small

namespace FileWorld

/-- What a call answers for a descriptor that is open on a file, and `EBADF` for any other. -/
def onFile {α : Type} (w : FileWorld) (fd : Word) (failed : α)
    (call : (i : ℕ) → w.files.file fd = some i → α × FileWorld) : α × FileWorld :=
  match h : w.files.file fd with
  | none => (failed, w)
  | some i => call i h

theorem onFile_some {α : Type} {w : FileWorld} {fd : Word} {failed : α}
    {call : (i : ℕ) → w.files.file fd = some i → α × FileWorld} {i : ℕ}
    (h : w.files.file fd = some i) : w.onFile fd failed call = call i h := by
  unfold onFile
  split
  · next hnone => cases hnone.symm.trans h
  · next j hj =>
    cases hj.symm.trans h
    rfl

/-- Only the offsets that the kernel asks for: any from the start, none from elsewhere. -/
def lseek (w : FileWorld) (fd offset : Word) (whence : ℕ) : Word × FileWorld :=
  w.onFile fd (-1) fun i hi =>
    match whence with
    | 0 =>
      if h0 : 0 ≤ offset.toInt then
        (offset, ⟨w.files.moved fd offset.toNat, w.small.moved fd (toNat_lt_of_toInt_nonneg h0)⟩)
      else (-1, w)
    | 1 => (BitVec.ofNat 32 (w.files.offset fd), w)
    | _ => (BitVec.ofNat 32 (w.files.content i).length,
        ⟨w.files.moved fd (w.files.content i).length, w.small.moved fd (w.small fd i hi).2⟩)

/-- Nothing is transferred from behind the end of a file. -/
def rest (w : FileWorld) (fd : Word) (i count : ℕ) : List UInt8 :=
  ((w.files.content i).drop (w.files.offset fd)).take (min count MaxTransfer)

theorem offset_rest_lt (w : FileWorld) (fd : Word) {i : ℕ} (hi : w.files.file fd = some i)
    (count : ℕ) : w.files.offset fd + (w.rest fd i count).length < 2 ^ 31 := by
  obtain ⟨hoffset, hcontent⟩ := w.small fd i hi
  unfold rest
  rw [List.length_take, List.length_drop]
  omega

theorem length_rest_le (w : FileWorld) (fd : Word) (i count : ℕ) :
    ∀ stored ∈ some (w.rest fd i count), stored.length ≤ min count MaxTransfer := by
  rintro stored ⟨rfl⟩
  exact List.length_take_le ..

theorem length_none_le (count : ℕ) :
    ∀ stored ∈ (none : Option (List UInt8)), stored.length ≤ min count MaxTransfer := by
  rintro stored ⟨⟩

def read (w : FileWorld) (fd : Word) (count : ℕ) : Transfer count × FileWorld :=
  w.onFile fd ⟨none, length_none_le count⟩ fun i hi =>
    (⟨some (w.rest fd i count), w.length_rest_le fd i count⟩,
      ⟨w.files.moved fd (w.files.offset fd + (w.rest fd i count).length),
        w.small.moved fd (w.offset_rest_lt fd hi count)⟩)

def write (w : FileWorld) (fd : Word) (bytes : List UInt8) : Word × FileWorld :=
  w.onFile fd (-1) fun i hi =>
    if hfits : w.files.offset fd + bytes.length < 2 ^ 31 then
      (BitVec.ofNat 32 bytes.length, ⟨w.files.written fd i bytes, w.small.written hi hfits⟩)
    else (-1, w)

def host : Host FileWorld where
  openFd w _ _ := (-1, w)
  close w _ := (0, w)
  lseek := lseek
  read := read
  write := write
  unlink w _ := (-1, w)
  socket w := (-1, w)
  connect w _ _ _ := (-1, w)
  send w _ _ := (-1, w)
  recv w _ count := (⟨none, length_none_le count⟩, w)
  errno _ := 0
  getChar w := (10, w)
  putChar w _ := w
  fresh _ _ := 0

theorem regular : host.Regular files where
  small w := w.small
  seekSet := by
    intro w fd i offset hi h0
    simp only [host, lseek, onFile_some hi, h0, dif_pos, and_self]
  seekCur := by
    intro w fd i hi
    simp only [host, lseek, onFile_some hi, and_self]
  seekEnd := by
    intro w fd i hi
    simp only [host, lseek, onFile_some hi, and_self]
  read := by
    intro w fd i count hi hcount
    simp only [host, read, rest, onFile_some hi, min_eq_left hcount, and_self]
  write := by
    intro w fd i bytes hi _ hfits
    simp only [host, write, onFile_some hi, dif_pos hfits, and_self]
  writeTooFar := by
    intro w fd i bytes hi hfar
    simp only [host, write, onFile_some hi, dif_neg (not_lt.mpr hfar)]
    change (-1 : ℤ) ≠ _
    omega

end FileWorld
end Nachos

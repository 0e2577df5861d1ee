import Nachos.Library.ByteStore
import Nachos.Threads.SynchDevice

/-! The disk of `machine/disk.cc`, as `filesys/synchdisk.cc` uses it. Its sectors are pieces of
a UNIX file, which is written and read without failing. The latency only decides when the
interrupt comes, and is left out. -/
namespace Nachos

abbrev SectorSize : ℕ := 128
abbrev SectorsPerTrack : ℕ := 32
abbrev NumTracks : ℕ := 32
abbrev NumSectors : ℕ := SectorsPerTrack * NumTracks

/-- The file begins with a magic number. -/
abbrev MagicSize : ℕ := 4

/-- The contents of a sector. -/
abbrev Sector := { data : List UInt8 // data.length = SectorSize }

inductive DiskRequest where
  | read (sectorNumber : ℤ)
  | write (sectorNumber : ℤ) (data : Sector)
  deriving DecidableEq

def DiskRequest.sectorNumber : DiskRequest → ℤ
  | .read n | .write n _ => n

/-- The second assertion of `ReadRequest` and `WriteRequest`. -/
def DiskRequest.Valid (r : DiskRequest) : Prop := 0 ≤ r.sectorNumber ∧ r.sectorNumber < NumSectors

instance (r : DiskRequest) : Decidable r.Valid := inferInstanceAs (Decidable (_ ∧ _))

structure Disk where
  active : Bool
  file : ByteStore.Store

namespace Disk

/-- Where `Lseek` goes for a sector. -/
def position (sectorNumber : ℤ) : ℤ := SectorSize * sectorNumber + MagicSize

/-- What `Read` finds there. -/
def sector (file : ByteStore.Store) (sectorNumber : ℤ) : Sector :=
  ⟨(List.range SectorSize).map fun i : ℕ => file (position sectorNumber + i), by simp⟩

/-- What `WriteFile` changes. -/
def sectorPatch (sectorNumber : ℤ) (data : Sector) : ByteStore.Patch :=
  ⟨position sectorNumber, data.val⟩

/-- `Disk::ReadRequest`, with the data it reads, and `Disk::WriteRequest`. -/
def request (disk : Disk) (r : DiskRequest) : Option (Option Sector × Disk) :=
  if disk.active then none
  else if r.Valid then
    match r with
    | .read n => some (some (sector disk.file n), { disk with active := true })
    | .write n data =>
      some (none, ⟨true, ByteStore.patch disk.file (sectorPatch n data)⟩)
  else none

/-- `Disk::CallBack`. -/
def callBack (disk : Disk) : Disk := { disk with active := false }

def device : Device DiskRequest (Option Sector) Disk := ⟨request, callBack⟩

theorem reliable :
    SynchDevice.Reliable device (fun disk => disk.active = false) DiskRequest.Valid := by
  constructor
  intro disk r hidle hvalid
  show ∃ answer d', request disk r = _ ∧ _
  unfold request
  rw [hidle, if_neg (by simp), if_pos hvalid]
  cases r with
  | read n => exact ⟨_, _, rfl, rfl⟩
  | write n data => exact ⟨_, _, rfl, rfl⟩

theorem covers_iff {n : ℤ} {data : Sector} {a : ℤ} : (sectorPatch n data).Covers a ↔
    position n ≤ a ∧ a < position n + SectorSize := by
  unfold ByteStore.Patch.Covers sectorPatch
  rw [data.property]

/-- A sector that is written holds what has been written. -/
theorem sector_patch_self (file : ByteStore.Store) (n : ℤ) (data : Sector) :
    sector (ByteStore.patch file (sectorPatch n data)) n = data := by
  apply Subtype.ext
  apply List.ext_getElem
  · simp [sector, data.property]
  intro i hi hi'
  have hlt : i < SectorSize := data.property ▸ hi'
  have hcovers : (sectorPatch n data).Covers (position n + i) := by
    rw [covers_iff]
    omega
  simp only [sector, List.getElem_map, List.getElem_range]
  rw [ByteStore.patch_of_covers hcovers]
  show data.val.getD (position n + i - position n).toNat 0 = _
  rw [add_sub_cancel_left, Int.toNat_natCast]
  exact (List.getElem_eq_getD 0).symm

/-- The other sectors keep what they hold. -/
theorem sector_patch_ne (file : ByteStore.Store) {n k : ℤ} (h : k ≠ n) (data : Sector) :
    sector (ByteStore.patch file (sectorPatch n data)) k = sector file k := by
  apply Subtype.ext
  show List.map _ _ = List.map _ _
  apply List.map_congr_left
  intro i hi
  have hi : i < 128 := List.mem_range.mp hi
  have hsize : (SectorSize : ℤ) = 128 := rfl
  apply ByteStore.patch_of_not_covers
  rw [covers_iff]
  unfold position
  rw [hsize]
  omega

/-- What the last `WriteRequest` in `calls` wrote to a sector. -/
def lastWritten (k : ℤ) (calls : List (DiskRequest × Option Sector)) : Option Sector :=
  calls.reverse.findSome? fun call => match call.1 with
    | .read _ => none
    | .write n data => if n = k then some data else none

theorem lastWritten_read {k n : ℤ} {calls : List (DiskRequest × Option Sector)}
    {answer : Option Sector} :
    lastWritten k (calls ++ [(.read n, answer)]) = lastWritten k calls := by
  simp [lastWritten]

theorem lastWritten_write {k n : ℤ} {calls : List (DiskRequest × Option Sector)} {data : Sector}
    {answer : Option Sector} : lastWritten k (calls ++ [(.write n data, answer)]) =
      if n = k then some data else lastWritten k calls := by
  by_cases h : n = k <;> simp [lastWritten, h]

/-- The file and the answers after requests that are served one after the other. -/
theorem serves_last {disk disk' : Disk} {calls : List (DiskRequest × Option Sector)}
    (h : SynchDevice.Serves device disk calls disk') :
    (∀ k, sector disk'.file k = (lastWritten k calls).getD (sector disk.file k)) ∧
      ∀ i k answer, calls[i]? = some (.read k, answer) →
        answer = some ((lastWritten k (calls.take i)).getD (sector disk.file k)) := by
  induction h with
  | nil => exact ⟨fun k => rfl, nofun⟩
  | @snoc calls r answer d d' _ hrequest ih =>
    obtain ⟨hfile, hanswers⟩ := ih
    obtain ⟨-, hrequest⟩ := Option.ite_none_left_eq_some.mp hrequest
    obtain ⟨-, hrequest⟩ := Option.ite_none_right_eq_some.mp hrequest
    have hlast : ∀ i k a, (calls ++ [(r, answer)])[i]? = some (.read k, a) →
        calls[i]? = some (.read k, a) ∨ i = calls.length ∧ r = .read k ∧ answer = a := by
      intro i k a hcall
      rw [List.getElem?_append] at hcall
      split_ifs at hcall with hi
      · exact .inl hcall
      · have hlt := (List.getElem?_eq_some_iff.mp hcall).1
        rw [List.length_singleton] at hlt
        have heq : i = calls.length := by omega
        rw [heq, Nat.sub_self, List.getElem?_cons_zero] at hcall
        cases hcall
        exact .inr ⟨heq, rfl, rfl⟩
    have hbefore : ∀ i, i ≤ calls.length → (calls ++ [(r, answer)]).take i = calls.take i :=
      fun i hi => List.take_append_of_le_length hi
    constructor
    · intro k
      cases r with
      | read n =>
        cases hrequest
        rw [lastWritten_read]
        exact hfile k
      | write n data =>
        cases hrequest
        rw [lastWritten_write]
        show sector (ByteStore.patch d.file (sectorPatch n data)) k = _
        split_ifs with h
        · rw [h, sector_patch_self, Option.getD_some]
        · rw [sector_patch_ne d.file (Ne.symm h), hfile]
    · intro i k a hcall
      rcases hlast i k a hcall with hcall | ⟨rfl, rfl, rfl⟩
      · have hi := (List.getElem?_eq_some_iff.mp hcall).1
        rw [hbefore i hi.le]
        exact hanswers i k a hcall
      · cases hrequest
        rw [hbefore _ le_rfl, List.take_length, hfile]

end Disk
end Nachos

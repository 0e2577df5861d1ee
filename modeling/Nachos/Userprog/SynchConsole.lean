import Nachos.Filesys.SynchDisk

/-! The display of `machine/console.cc`, as `userprog/synchconsole.cc` uses it, and what the two
synchronous devices of the kernel guarantee. -/
namespace Nachos

/-- `class ConsoleOutput`, with what has been written to the UNIX file. -/
structure ConsoleOutput where
  putBusy : Bool
  written : List UInt8
  deriving DecidableEq

namespace ConsoleOutput

/-- `ConsoleOutput::PutChar`. -/
def putChar (console : ConsoleOutput) (ch : UInt8) : Option (Unit × ConsoleOutput) :=
  if console.putBusy then none else some ((), ⟨true, console.written ++ [ch]⟩)

/-- `ConsoleOutput::CallBack`. -/
def callBack (console : ConsoleOutput) : ConsoleOutput := { console with putBusy := false }

def device : Device UInt8 Unit ConsoleOutput := ⟨putChar, callBack⟩

theorem reliable : SynchDevice.Reliable device (fun console => console.putBusy = false)
    fun _ => True := by
  constructor
  intro console ch hidle _
  show ∃ answer d', putChar console ch = _ ∧ _
  rw [putChar, hidle]
  exact ⟨_, _, rfl, rfl⟩

/-- What has been written after characters that are put one after the other. -/
theorem serves_written {console console' : ConsoleOutput} {calls : List (UInt8 × Unit)}
    (h : SynchDevice.Serves device console calls console') :
    console'.written = console.written ++ calls.map Prod.fst := by
  induction h with
  | nil => simp
  | snoc _ hrequest ih =>
    obtain ⟨-, hrequest⟩ := Option.ite_none_left_eq_some.mp hrequest
    cases hrequest
    show _ ++ [_] = _
    rw [ih, List.map_append, List.append_assoc]
    rfl

end ConsoleOutput

open SynchDevice (Serialised Asks)

/-- `SynchDisk` and `SynchConsoleOutput` serialise their devices: no assertion fails, a call
returns after its own interrupt, `ReadSector` brings what was last written to its sector, and
the display shows the characters in the order in which the lock was obtained. -/
theorem devices_serialised :
    (∀ (file : ByteStore.Store) s,
      Runs.Reach (SynchDevice.step Disk.device) (Asks DiskRequest.Valid)
        (SynchDevice.start ⟨false, file⟩) s →
      Serialised s ∧ ∀ n t k answer, s.made[n]? = some (t, .read k, answer) →
        answer = some ((Disk.lastWritten k ((s.made.take n).map Prod.snd)).getD
          (Disk.sector file k))) ∧
    ∀ s, Runs.Reach (SynchDevice.step ConsoleOutput.device) (fun _ _ => True)
        (SynchDevice.start ⟨false, []⟩) s →
      Serialised s ∧
        s.device.written ++ s.next.map Prod.snd = s.obtained.map Prod.snd := by
  constructor
  · intro file s hr
    have hi := SynchDevice.inv_reach Disk.reliable rfl hr
    refine ⟨hi.serialised, ?_⟩
    intro n t k answer hmade
    have hcall : (s.made.map Prod.snd)[n]? = some (.read k, answer) := by
      rw [List.getElem?_map, hmade]
      rfl
    rw [List.map_take]
    exact (Disk.serves_last hi.serves).2 n k answer hcall
  · intro s hr
    have hi := SynchDevice.inv_reach ConsoleOutput.reliable rfl
      (hr.mono fun _ _ _ _ _ => trivial)
    refine ⟨hi.serialised, ?_⟩
    have hwritten : s.device.written = s.made.map fun call => call.2.1 := by
      have hserved := ConsoleOutput.serves_written hi.serves
      rw [SynchDevice.settled_of_callBack (f := ConsoleOutput.written) fun _ => rfl] at hserved
      rw [hserved]
      simp
    rw [hwritten, hi.order, List.map_append, List.map_map]
    rfl

/-- A thread calls, makes its request, and returns after the interrupt for request `n`. -/
def wholeCall {ρ : Type} (t : ThreadId) (r : ρ) (n : ℕ) : List (SynchDevice.Label ρ) :=
  .call t r :: List.replicate 3 (.run t) ++ .interrupt n :: List.replicate 5 (.run t)

/-- A sector with the same byte everywhere. -/
def filled (b : UInt8) : Sector := ⟨List.replicate SectorSize b, List.length_replicate⟩

def diskCalls : List (SynchDevice.Label DiskRequest) :=
  wholeCall 1 (.write 5 (filled 7)) 0 ++ wholeCall 2 (.read 5) 1

def consoleCalls : List (SynchDevice.Label UInt8) := wholeCall 1 72 0 ++ wholeCall 2 105 1

theorem devices_serialised_twoCalls :
    (∃ s, Runs.exec (SynchDevice.step Disk.device) (SynchDevice.start ⟨false, fun _ => 0⟩)
        diskCalls = some s ∧ Serialised s ∧ ∃ answer, s.made[1]? = some (2, .read 5, answer) ∧
        answer = some (filled 7)) ∧
    ∃ s, Runs.exec (SynchDevice.step ConsoleOutput.device) (SynchDevice.start ⟨false, []⟩)
        consoleCalls = some s ∧ Serialised s ∧ s.device.written = [72, 105] := by
  have hdisk : (Runs.exec (SynchDevice.step Disk.device) (SynchDevice.start ⟨false, fun _ => 0⟩)
      diskCalls).map (fun s => (s.made[1]?.map fun call => (call.1, call.2.1),
        Disk.lastWritten 5 ((s.made.take 1).map Prod.snd))) =
      some (some (2, .read 5), some (filled 7)) := by
    decide +kernel
  have hconsole : (Runs.exec (SynchDevice.step ConsoleOutput.device)
      (SynchDevice.start ⟨false, []⟩) consoleCalls).map (fun s => s.device.written) =
      some [72, 105] := by
    decide +kernel
  obtain ⟨s, hs, hview⟩ := Option.map_eq_some_iff.mp hdisk
  obtain ⟨s', hs', hwritten⟩ := Option.map_eq_some_iff.mp hconsole
  obtain ⟨hmade, hlast⟩ := Prod.mk.inj hview
  obtain ⟨⟨t, r, answer⟩, hmade, hcall⟩ := Option.map_eq_some_iff.mp hmade
  cases hcall
  have hasks : ∀ l ∈ diskCalls, ∀ r ∈ l.asked, r.Valid := by decide
  obtain ⟨hserialised, hanswer⟩ := devices_serialised.1 _ s
    (Runs.reach_of_exec_allowed hs fun _ => hasks)
  refine ⟨⟨s, hs, hserialised, answer, hmade, ?_⟩, s', hs', ?_, hwritten⟩
  · rw [hanswer 1 2 5 answer hmade, hlast]
    rfl
  · exact (devices_serialised.2 s' (Runs.reach_of_exec hs')).1

end Nachos

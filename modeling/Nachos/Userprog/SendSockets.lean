import Nachos.Userprog.CallHistory

/-! `Send` on an open socket. The index is compared with `FileSystem::index`, which the constructor
sets to 2 and nobody changes; and `errno` is looked at when the host has sent, too. -/
namespace Nachos.Descriptors

open Sys EStateM

variable {W : Type}

/-- A handler accepts a descriptor if it can return anything but -1. -/
def Accepts (handler : {W : Type} → Host W → Sys W Unit) (fs : FileSystem) (id : ℤ) : Prop :=
  ∃ (W : Type) (host : Host W) (w : W) (m : Machine), (m.registers 4).toInt = id ∧
    Ends (handler host) ⟨m, fs, w⟩ (fun _ k' => k'.machine.registers 2 ≠ -1) fun _ _ => False

/-- The arguments of `Send` are this index and a buffer with these bytes. -/
structure SendsBytes (m : Machine) (i : Fin 20) (bytes : List UInt8) : Prop where
  index : m.registers 4 = BitVec.ofNat 32 i
  mapped : ∃ t, m.Mapped t
  shows : m.Shows (m.registers 5) bytes
  length : (m.registers 6).toInt = bytes.length
  ne_zero : 0 ∉ bytes

/-- The host sends the bytes with this result, and leaves `errno` as it is. -/
def HostSends (host : Host W) (s : State W) (i : Fin 20) (bytes : List UInt8) (r : Word) : Prop :=
  ∃ f w, s.fileSystem.openf i = some f ∧ host.send s.host f.file bytes = (r, w) ∧
    0 ≤ r.toInt ∧ host.errno w = host.errno s.host

def SendReturns (host : Host W) (s : State W) (m : Machine) (r : Word) : Prop :=
  Ends (scSend host) (s.kernel m) (fun _ k' => k'.machine.registers 2 = r) fun _ _ => False

section

variable {host : Host W} {fs : FileSystem} {s s' : State W} {m : Machine} {id : ℤ}
  {i : Fin 20} {bytes : List UInt8} {r : Word}

/-- The machine of a call with this descriptor and nothing else. -/
def callWithIndex (id : ℤ) : Machine where
  registers r := if r = 4 then BitVec.ofInt 32 id else 0
  mainMemory _ := 0
  pageTable := none
  pageTableSize := 0
  tables _ := []

theorem toInt_callWithIndex (hid : 0 ≤ id ∧ id < 20) :
    ((callWithIndex id).registers 4).toInt = id := by
  show (BitVec.ofInt 32 id).toInt = id
  rw [BitVec.toInt_ofInt]
  exact Int.bmod_eq_of_le (by omega) (by omega)

theorem accepts_receive_iff :
    Accepts scReceive fs id ↔ ∃ f, fs.entry id = some f ∧ f.fdType = 1 := by
  constructor
  · rintro ⟨W, host, w, m, hid, hends⟩
    simp only [scReceive, ends_bind, ends_argument, ends_openf, hid] at hends
    split at hends
    · cases hf : fs.entry id with
      | none => simp [hf] at hends
      | some f =>
        refine ⟨f, rfl, ?_⟩
        by_contra htype
        simp [hf, htype] at hends
    · exact hends.elim
  · rintro ⟨f, hf, htype⟩
    have hid := FileSystem.range_of_entry hf
    have hlen : ((callWithIndex id).registers 6).toInt = 0 := rfl
    refine ⟨SmallWorld, SmallWorld.host, ⟨[], fun _ => none⟩, callWithIndex id,
      toInt_callWithIndex hid, ?_⟩
    have hle : id ≤ 19 := by omega
    simp [scReceive, toInt_callWithIndex hid, hid, hf, htype, hle, hlen]
    exact ⟨Nat.zero_le _, show ¬ (0 : Word) = -1 by decide⟩

theorem accepts_send_iff :
    Accepts scSend fs id ↔ ∃ f, fs.entry id = some f ∧ id ≤ fs.index ∧ f.fdType = 1 := by
  constructor
  · rintro ⟨W, host, w, m, hid, hends⟩
    simp only [scSend, ends_bind, ends_argument, ends_openf, hid] at hends
    split at hends
    · cases hf : fs.entry id with
      | none => simp [hf] at hends
      | some f =>
        simp [hf] at hends
        exact ⟨f, rfl, hends.1.1, hends.2.1⟩
    · exact hends.elim
  · rintro ⟨f, hf, hindex, htype⟩
    have hid := FileSystem.range_of_entry hf
    have hlen : ((callWithIndex id).registers 6).toInt = 0 := rfl
    refine ⟨SmallWorld, SmallWorld.host, ⟨[], fun _ => none⟩, callWithIndex id,
      toInt_callWithIndex hid, ?_⟩
    simp [scSend, toInt_callWithIndex hid, hid, hf, htype, hindex, hlen, ends_user2System_of_nonpos]
    exact ⟨by decide, fun _ =>
      ⟨show 0 ≤ (0 : Word).toInt by decide, show ¬ (0 : Word) = -1 by decide⟩⟩

/-- What `Send` makes of an answer of the host. -/
def sendResult (host : Host W) (answer : Word × W) : Word :=
  if host.errno answer.2 = EPIPE then 0 else if answer.1.toInt < 0 then -1 else answer.1

/-- What `Send` answers for an index that holds a socket. -/
theorem ends_scSend_bytes {f : OpenFile} (hm : SendsBytes m i bytes)
    (hf : s.fileSystem.openf i = some f) (htype : f.fdType = 1) :
    Ends (scSend host) (s.kernel m) (fun _ k' => k'.machine.registers 2 =
      if s.fileSystem.index < (i : ℕ) then -1
      else sendResult host (host.send s.host f.file bytes)) fun _ _ => False := by
  have hindex : (m.registers 4).toInt = (i : ℕ) := by
    rw [hm.index, BitVec.toInt_ofNat']
    exact Int.bmod_eq_of_le (by omega) (by omega)
  have hrange : (0 : ℤ) ≤ (i : ℕ) ∧ ((i : ℕ) : ℤ) < 20 := by omega
  have hentry : (s.kernel m).fileSystem.entry (i : ℕ) = some f := by
    rw [FileSystem.entry_natCast]
    exact hf
  have hlen := hm.length
  have hsize := Machine.Shows.length_le hm.mapped hm.shows
  have hmemory : MemorySize < 2 ^ 30 := by decide
  simp only [scSend, ends_bind, ends_argument, ends_openf, ends_readRegister, ends_fileSystem,
    ends_deref, ends_ite, ends_finish, show (s.kernel m).machine = m from rfl,
    show (s.kernel m).fileSystem.index = s.fileSystem.index from rfl, hindex, hrange,
    and_self, if_true, hentry, reduceCtorEq, if_false, Option.elim_some, htype]
  by_cases hout : s.fileSystem.index < (i : ℕ)
  · rw [if_pos (.inl hout), if_pos hout]
    rfl
  · rw [if_neg (by omega), if_neg hout]
    refine (ends_user2System_shown host hm.length hm.mapped hm.shows (.inl le_rfl)
      (by omega)).mono ?_ fun _ _ h => h
    rintro buffer k₁ ⟨rfl, hk₁, -⟩
    have hhost : k₁.host = s.host := hk₁.host
    have htake : sizeT (m.registers 6).toInt = bytes.length := by
      have hcount := toNat_sizeT (n := (m.registers 6).toInt) (by omega) (by omega)
      omega
    have hbuffer : ((bytes.take bytes.length).takeWhile (· ≠ 0)).rightpad (bytes.length + 1) 0 =
        bytes ++ [0] := by
      rw [List.take_length, takeWhile_ne_zero hm.ne_zero, List.rightpad, Nat.add_sub_cancel_left]
      rfl
    have hfits : bytes.length ≤ (bytes ++ [(0 : UInt8)]).length := by simp
    rw [hbuffer]
    simp only [ends_bytesOf, htake, hfits, if_true, List.take_left, ends_ask, ends_errno, hhost,
      sendResult]
    split_ifs <;> rfl

end

/-- In a reachable state the bound is 2, and what `SocketTCP` has returned is a socket until it is
closed. -/
structure SocketsInPlace (fs : FileSystem) (events : List Event) : Prop where
  index : fs.index = 2
  sockets : ∀ i, SocketOpen i events → ∃ fd, fs.Holds i 1 fd

section

variable {host : Host W} {s s' : State W} {m : Machine} {events : List Event}
  {a : Option Word}

theorem SocketsInPlace.step (h : SocketsInPlace s.fileSystem events)
    (hs : Served host s m s' a) : SocketsInPlace s'.fileSystem (⟨m, a⟩ :: events) := by
  cases hs with
  | other hview hcall =>
    have hindex := congrArg FileSystem.index hview
    refine ⟨hindex.trans h.index, ?_⟩
    rintro i (⟨hsocket, ha⟩ | ⟨-, hopen⟩)
    · exact absurd hsocket (hcall i ha).2
    · obtain ⟨fd, hfd⟩ := h.sockets i hopen
      exact ⟨fd, FileSystem.holds_of_view (congrArg FileSystem.openf hview).symm hfd⟩
  | @opened j name file w hcall hname hfirst hempty =>
    refine ⟨h.index, ?_⟩
    rintro i (⟨hsocket, -⟩ | ⟨-, hopen⟩)
    · exact absurd (hsocket.symm.trans hcall) (by decide)
    · obtain ⟨fd, f, hf, hrest⟩ := h.sockets i hopen
      have hij : i ≠ j := by
        rintro rfl
        cases hempty.symm.trans hf
      exact ⟨fd, f, (Function.update_of_ne hij ..).trans hf, hrest⟩
  | @closed j w a hcall hj =>
    refine ⟨h.index, ?_⟩
    rintro i (⟨hsocket, -⟩ | ⟨hclose, hopen⟩)
    · exact absurd (hsocket.symm.trans hcall) (by decide)
    · obtain ⟨fd, f, hf, hrest⟩ := h.sockets i hopen
      have hij : i ≠ j := by
        rintro rfl
        exact hclose ⟨hcall, hj⟩
      exact ⟨fd, f, (Function.update_of_ne hij ..).trans hf, hrest⟩
  | @socket j f w hcall hempty hf =>
    refine ⟨h.index, ?_⟩
    rintro i hopen
    by_cases hij : i = j
    · subst hij
      exact ⟨f.file, f, Function.update_self .., hf, rfl⟩
    · rcases hopen with ⟨-, ha⟩ | ⟨-, hopen⟩
      · exact absurd (ofNat_index_inj (Option.some.inj ha)).symm hij
      · obtain ⟨fd, f', hf', hrest⟩ := h.sockets i hopen
        exact ⟨fd, f', (Function.update_of_ne hij ..).trans hf', hrest⟩

theorem index_boot {w : W} (hboot : boot host w m = some s) : s.fileSystem.index = 2 := by
  have hnew : Ends (FileSystem.new host) ⟨m, FileSystem.blank, w⟩ _ _ := ends_new
  unfold Ends at hnew
  unfold boot at hboot
  split at hboot <;> rename_i heq <;> rw [heq] at hnew
  · cases hboot
    obtain ⟨w₁, -, rfl⟩ := hnew
    rfl
  · cases hboot

theorem socketsInPlace_of_reach {w : W} {m₀ : Machine} {s₀ : State W} {t : Traced W}
    (hboot : boot host w m₀ = some s₀)
    (hr : Runs.Reach (Traced.step host) (fun _ _ => True) ⟨s₀, []⟩ t) :
    SocketsInPlace t.table.fileSystem t.events :=
  traced_invariant hr ⟨index_boot hboot, fun _ h => h.elim⟩ fun _ _ _ _ _ h hs => h.step hs

end

section

variable {host : Host W} {s : State W} {m : Machine} {events : List Event} {i : Fin 20}
  {bytes : List UInt8} {r : Word}

theorem SocketsInPlace.sendReturns_iff (h : SocketsInPlace s.fileSystem events)
    (hopen : SocketOpen i events) (hm : SendsBytes m i bytes)
    (hsent : HostSends host s i bytes r) :
    SendReturns host s m r ↔ (i : ℕ) ≤ 2 ∧ (host.errno s.host ≠ EPIPE ∨ r = 0) := by
  obtain ⟨f, w, hf, hsend, hr, herrno⟩ := hsent
  obtain ⟨fd, f', hf', htype, -⟩ := h.sockets i hopen
  obtain rfl : f' = f := Option.some.inj (hf'.symm.trans hf)
  have hends : Ends (scSend host) (s.kernel m) _ _ := ends_scSend_bytes hm hf htype
  -- the handler is deterministic, so `Send` returns `r` exactly if that is its answer
  have hreturns : SendReturns host s m r ↔ (if s.fileSystem.index < (i : ℕ) then -1
      else sendResult host (host.send s.host f'.file bytes)) = r := by
    unfold SendReturns
    constructor
    · intro hr
      have hboth := hends.and hr
      unfold Ends at hboth
      split at hboth
      · exact hboth.1.symm.trans hboth.2
      · exact hboth.1.elim
    · rintro rfl
      exact hends
  have hne : (-1 : Word) ≠ r := by
    rintro rfl
    exact absurd hr (by decide)
  rw [hreturns, h.index, hsend]
  unfold sendResult
  dsimp only
  rw [herrno, if_neg (not_lt.mpr hr)]
  by_cases hi : (i : ℕ) ≤ 2
  · rw [if_neg (by omega)]
    by_cases hpipe : host.errno s.host = EPIPE
    · rw [if_pos hpipe]
      exact ⟨fun h0 => ⟨hi, .inr h0.symm⟩, fun h0 => (h0.2.resolve_left (absurd hpipe)).symm⟩
    · rw [if_neg hpipe]
      exact ⟨fun _ => ⟨hi, .inl hpipe⟩, fun _ => rfl⟩
  · rw [if_pos (by omega)]
    exact ⟨fun h1 => absurd h1 hne, fun h1 => absurd h1.1 hi⟩

theorem accepts_same_iff {fs : FileSystem} (hindex : fs.index = 2) :
    (∀ id, Accepts scSend fs id ↔ Accepts scReceive fs id) ↔
      ∀ i : Fin 20, 2 < (i : ℕ) → ∀ fd, ¬ fs.Holds i 1 fd := by
  simp only [accepts_send_iff, accepts_receive_iff, hindex]
  constructor
  · rintro h i hi fd ⟨f, hf, htype, -⟩
    obtain ⟨f', -, hle, -⟩ := (h (i : ℕ)).mpr ⟨f, (fs.entry_natCast i).trans hf, htype⟩
    omega
  · intro h id
    constructor
    · rintro ⟨f, hf, -, htype⟩
      exact ⟨f, hf, htype⟩
    · rintro ⟨f, hf, htype⟩
      refine ⟨f, hf, ?_, htype⟩
      obtain ⟨i, rfl⟩ := FileSystem.exists_index (FileSystem.range_of_entry hf)
      by_contra hlt
      exact h i (by omega) f.file ⟨f, (fs.entry_natCast i).symm.trans hf, htype, rfl⟩

/-- In every reachable state, `Send` on an open socket returns what the host has sent exactly for
the indices up to 2, with no old `EPIPE` in `errno`; and it accepts what `Receive` accepts exactly
if no socket has a larger index. -/
theorem send_works_iff {w : W} {m₀ : Machine} {s₀ : State W} {t : Traced W}
    (hboot : boot host w m₀ = some s₀)
    (hr : Runs.Reach (Traced.step host) (fun _ _ => True) ⟨s₀, []⟩ t) :
    (∀ i m bytes r, SocketOpen i t.events → SendsBytes m i bytes →
      HostSends host t.table i bytes r → (SendReturns host t.table m r ↔
        (i : ℕ) ≤ 2 ∧ (host.errno t.table.host ≠ EPIPE ∨ r = 0))) ∧
    ((∀ id, Accepts scSend t.table.fileSystem id ↔ Accepts scReceive t.table.fileSystem id) ↔
      ∀ i : Fin 20, 2 < (i : ℕ) → ∀ fd, ¬ t.table.fileSystem.Holds i 1 fd) := by
  have h := socketsInPlace_of_reach hboot hr
  exact ⟨fun i m bytes r hopen hm hsent => h.sendReturns_iff hopen hm hsent,
    accepts_same_iff h.index⟩

end

/-- A machine about to send the byte `a` on a descriptor. -/
def callSend (id : Word) : Machine where
  registers r := if r = 2 then 101 else if r = 4 then id else if r = 6 then 1 else 0
  mainMemory a := if a = 0 then 97 else 0
  pageTable := some 0
  pageTableSize := 1
  tables _ := AddrSpace.tableOf 0 [0]

theorem sendsBytes_callSend (i : Fin 20) : SendsBytes (callSend (BitVec.ofNat 32 i)) i [97] where
  index := rfl
  mapped := ⟨_, mapped_onePage rfl rfl⟩
  shows := by
    show ∀ i < 1, (callSend 0).virtualByte (0 + BitVec.ofNat 32 i) = [97][i]?
    decide
  length := rfl
  ne_zero := by decide

theorem send_works_first : ∃ s₀ t,
    boot SmallWorld.host ⟨[], fun _ => none⟩ (callWithName 0) = some s₀ ∧
    Runs.Reach (Traced.step SmallWorld.host) (fun _ _ => True) ⟨s₀, []⟩ t ∧
    SocketOpen 2 t.events ∧ SendReturns SmallWorld.host t.table (callSend 2) 1 := by
  have hrun : ((boot SmallWorld.host ⟨[], fun _ => none⟩ (callWithName 0)).bind fun s₀ =>
      (Runs.exec (Traced.step SmallWorld.host) ⟨s₀, []⟩ [.call (callWithName 99)]).map fun t =>
        (t.events.map fun e => (e.machine.registers 2, e.answer),
          (t.table.fileSystem.openf 2).isSome)) = some ([(99, some 2)], true) := by decide +kernel
  obtain ⟨s₀, hboot, hrun⟩ := Option.bind_eq_some_iff.mp hrun
  obtain ⟨t, hexec, hrun⟩ := Option.map_eq_some_iff.mp hrun
  obtain ⟨hevents, hfull⟩ := by simpa only [Prod.mk.injEq] using hrun
  have hr := Runs.reach_of_exec hexec
  have hopen : SocketOpen 2 t.events := by
    obtain ⟨e, events, ht, he, -⟩ := List.map_eq_cons_iff.mp hevents
    rw [ht]
    exact .inl ⟨congrArg Prod.fst he, congrArg Prod.snd he⟩
  obtain ⟨f, hf⟩ := Option.isSome_iff_exists.mp hfull
  refine ⟨s₀, t, hboot, hr, hopen, ?_⟩
  have hsent : HostSends SmallWorld.host t.table 2 [97] 1 := ⟨f, _, hf, rfl, by decide, rfl⟩
  refine ((send_works_iff hboot hr).1 2 _ [97] 1 hopen (sendsBytes_callSend 2) hsent).mpr ?_
  exact ⟨by decide, .inl (show (0 : Word) ≠ EPIPE by decide)⟩

/-- The second socket gets index 3, and `Send` refuses it. -/
theorem send_refuses_second : ∃ s₀ t,
    boot SmallWorld.host ⟨[], fun _ => none⟩ (callWithName 0) = some s₀ ∧
    Runs.Reach (Traced.step SmallWorld.host) (fun _ _ => True) ⟨s₀, []⟩ t ∧
    SocketOpen 3 t.events ∧ SendsBytes (callSend 3) 3 [97] ∧
    HostSends SmallWorld.host t.table 3 [97] 1 ∧
    ¬ SendReturns SmallWorld.host t.table (callSend 3) 1 ∧
    ¬ ∀ id, Accepts scSend t.table.fileSystem id ↔ Accepts scReceive t.table.fileSystem id := by
  have hrun : ((boot SmallWorld.host ⟨[], fun _ => none⟩ (callWithName 0)).bind fun s₀ =>
      (Runs.exec (Traced.step SmallWorld.host) ⟨s₀, []⟩
        [.call (callWithName 99), .call (callWithName 99)]).map fun t =>
        (t.events.map fun e => (e.machine.registers 2, e.answer),
          (t.table.fileSystem.openf 3).isSome)) =
      some ([(99, some 3), (99, some 2)], true) := by decide +kernel
  obtain ⟨s₀, hboot, hrun⟩ := Option.bind_eq_some_iff.mp hrun
  obtain ⟨t, hexec, hrun⟩ := Option.map_eq_some_iff.mp hrun
  obtain ⟨hevents, hfull⟩ := by simpa only [Prod.mk.injEq] using hrun
  have hr := Runs.reach_of_exec hexec
  have hopen : SocketOpen 3 t.events := by
    obtain ⟨e, events, ht, he, -⟩ := List.map_eq_cons_iff.mp hevents
    rw [ht]
    exact .inl ⟨congrArg Prod.fst he, congrArg Prod.snd he⟩
  obtain ⟨f, hf⟩ := Option.isSome_iff_exists.mp hfull
  have h := socketsInPlace_of_reach hboot hr
  have hm : SendsBytes (callSend 3) 3 [97] := sendsBytes_callSend 3
  have hsent : HostSends SmallWorld.host t.table 3 [97] 1 := ⟨f, _, hf, rfl, by decide, rfl⟩
  refine ⟨s₀, t, hboot, hr, hopen, hm, hsent, ?_, ?_⟩
  · rw [h.sendReturns_iff hopen hm hsent]
    exact fun h3 => absurd h3.1 (by decide)
  · rw [accepts_same_iff h.index]
    obtain ⟨fd, hfd⟩ := h.sockets 3 hopen
    exact fun hnone => hnone 3 (by decide) fd hfd

end Nachos.Descriptors

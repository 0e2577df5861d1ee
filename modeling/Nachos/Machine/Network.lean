import Mathlib.Data.List.TakeWhile
import Nachos.Library.LittleEndian

/-! The simulated network (`machine/network.cc`, `lib/sysdep.cc`): the names of its sockets, and
the packets that go through them. -/
namespace Nachos

section Names

/-- What `%d` prints, and what an `int` is written to a stream as. -/
def decimal (n : ℤ) : List Char :=
  if n < 0 then '-' :: Nat.toDigits 10 n.natAbs else Nat.toDigits 10 n.natAbs

/-- `s << n` and then `s >> token`, which takes the first word. -/
def streamed (n : ℤ) : List Char :=
  ((decimal n).dropWhile Char.isWhitespace).takeWhile fun c => !c.isWhitespace

theorem mem_decimal {n : ℤ} {c : Char} (h : c ∈ decimal n) : c.isDigit ∨ c = '-' := by
  unfold decimal at h
  split_ifs at h
  · rcases List.mem_cons.mp h with h | h
    · exact .inr h
    · exact .inl (Nat.isDigit_of_mem_toDigits (by decide) (by decide) h)
  · exact .inl (Nat.isDigit_of_mem_toDigits (by decide) (by decide) h)

theorem not_isWhitespace {c : Char} (h : c.isDigit ∨ c = '-') : c.isWhitespace = false := by
  rcases h with h | rfl
  · simp only [Char.isDigit, Char.isWhitespace, Bool.and_eq_true, decide_eq_true_eq] at h ⊢
    obtain ⟨hlo, hhi⟩ := h
    have hne : ∀ d : Char, d.val < 48 → c ≠ d := by
      rintro d hd rfl
      exact absurd hlo (by simpa using hd)
    simp [hne ' ' (by decide), hne '\t' (by decide), hne '\r' (by decide), hne '\n' (by decide)]
  · decide

theorem streamed_eq (n : ℤ) : streamed n = decimal n := by
  have hspace : ∀ c ∈ decimal n, c.isWhitespace = false :=
    fun c hc => not_isWhitespace (mem_decimal hc)
  have hdrop : (decimal n).dropWhile Char.isWhitespace = decimal n := by
    cases h : decimal n with
    | nil => rfl
    | cons c rest =>
      rw [List.dropWhile_cons_of_neg]
      simp [hspace c (h ▸ List.mem_cons_self)]
  rw [streamed, hdrop]
  apply List.takeWhile_eq_self_iff.mpr
  intro c hc
  simp [hspace c hc]

theorem toDigits_injective : Function.Injective (Nat.toDigits 10) := by
  intro a b h
  have h := congrArg (fun l => Nat.ofDigitChars 10 l 0) h
  simpa only [Nat.ofDigitChars_ten_toDigits] using h

theorem decimal_injective : Function.Injective decimal := by
  intro a b h
  have hdash : ∀ n : ℕ, '-' ∉ Nat.toDigits 10 n := by
    intro n hn
    have := Nat.isDigit_of_mem_toDigits (by decide) (by decide) hn
    revert this
    decide
  unfold decimal at h
  split_ifs at h with ha hb hb
  · have := toDigits_injective (List.cons.inj h).2
    omega
  · exact absurd (h ▸ List.mem_cons_self) (hdash _)
  · exact absurd (h.symm ▸ List.mem_cons_self) (hdash _)
  · have := toDigits_injective h
    omega

/-- `sprintf(name, "SOCKET_%d", host)`. -/
def socketName (host : ℤ) : List Char := "SOCKET_".toList ++ decimal host

namespace NetworkOutput

/-- `toName` in `NetworkOutput::Send`, for a packet with `hdr.to = to`. -/
def toName (hdrTo : ℤ) : List Char := socketName hdrTo

end NetworkOutput

/-- The name to which `AssignNameToSocket` binds. Its array `realName` has no place for the
terminator of the string; the name is what `strcpy` copies there. -/
def assignedName (ip port : ℤ) : List Char := streamed ip ++ ['_'] ++ streamed port

namespace NetworkInput

/-- `sockName`, which the destructor removes. -/
def sockName (hostName : ℤ) : List Char := socketName hostName

/-- The name to which the constructor binds the socket. -/
def boundName (hostName : ℤ) : List Char := assignedName hostName 0

end NetworkInput

open NetworkInput NetworkOutput

theorem not_mem_boundName (hostName : ℤ) : 'S' ∉ boundName hostName := by
  have hdecimal : ∀ n, 'S' ∉ decimal n := by
    intro n hn
    have := mem_decimal hn
    revert this
    decide
  simp only [boundName, assignedName, streamed_eq, List.mem_append, not_or]
  exact ⟨⟨hdecimal hostName, by decide⟩, hdecimal 0⟩

theorem boundName_injective : Function.Injective boundName := by
  intro a b h
  simp only [boundName, assignedName, streamed_eq, List.append_cancel_right_eq] at h
  exact decimal_injective h

/-- Packets for host `h` go to the name its input socket is bound to, which is no other host's
and is removed in the end. -/
def AddressesAgree (h : ℤ) : Prop :=
  toName h = boundName h ∧ (∀ h', h' ≠ h → boundName h' ≠ boundName h) ∧
    sockName h = boundName h

/-- Input sockets have names of their own, but no packet is ever sent to one of these names,
and none of them is ever removed. -/
theorem addresses_disagree (h : ℤ) :
    Function.Injective boundName ∧ (∀ h', toName h ≠ boundName h' ∧ sockName h ≠ boundName h') ∧
      ¬ AddressesAgree h := by
  have hne : ∀ h', socketName h ≠ boundName h' := by
    intro h' heq
    exact not_mem_boundName h' (heq ▸ List.mem_cons_self)
  exact ⟨boundName_injective, fun h' => ⟨hne h', hne h'⟩, fun hagree => hne h hagree.1⟩

theorem addresses_disagree_zero :
    toName 0 = "SOCKET_0".toList ∧ boundName 0 = "0_0".toList ∧ ¬ AddressesAgree 0 := by
  have hto : toName 0 = "SOCKET_0".toList := by decide
  have hbound : boundName 0 = "0_0".toList := by decide
  refine ⟨hto, hbound, ?_⟩
  rintro ⟨heq, -⟩
  rw [hto, hbound] at heq
  revert heq
  decide

end Names

/-- `NetworkAddress`, the number of a host. -/
abbrev NetworkAddress := BitVec 32

/-- `class PacketHeader`, with the source's `to` and `from`. -/
structure PacketHeader where
  toHost : NetworkAddress
  fromHost : NetworkAddress
  /-- Bytes of data after this header. -/
  length : BitVec 32
  deriving DecidableEq

/-- `sizeof(PacketHeader)`, which is also `sizeof(MailHeader)`. -/
abbrev HeaderSize : ℕ := 12

abbrev MaxWireSize : ℕ := 64

abbrev MaxPacketSize : ℕ := MaxWireSize - HeaderSize

/-- Three words in memory. -/
def threeWords (a b c : BitVec 32) : List UInt8 :=
  LittleEndian.bytesOf a 4 ++ LittleEndian.bytesOf b 4 ++ LittleEndian.bytesOf c 4

/-- The word at index `i` of an array of words. -/
def wordAt (bytes : List UInt8) (i : ℕ) : BitVec 32 :=
  BitVec.ofNat 32 (LittleEndian.value ((bytes.drop (4 * i)).take 4))

def PacketHeader.bytes (hdr : PacketHeader) : List UInt8 :=
  threeWords hdr.toHost hdr.fromHost hdr.length

/-- `*(PacketHeader *)buffer`. -/
def PacketHeader.ofBytes (buffer : List UInt8) : PacketHeader :=
  ⟨wordAt buffer 0, wordAt buffer 1, wordAt buffer 2⟩

/-- `bcopy(source, array, n)`. -/
def bcopy (source : List UInt8) (n : ℕ) (array : List UInt8) : List UInt8 :=
  source.take n ++ array.drop n

/-- An array that has just been allocated, with what is found in it. -/
def freshArray (heap : ℕ → UInt8) (n : ℕ) : List UInt8 := (List.range n).map heap

/-- `class NetworkOutput`. -/
structure NetworkOutput where
  hostName : NetworkAddress
  sendBusy : Bool
  /-- What each `Send` has put into the socket, and for which host: nothing when the packet is
  lost. -/
  sent : List (Option (NetworkAddress × List UInt8))

namespace NetworkOutput

/-- `NetworkOutput::Send`, which draws a number to see whether the packet is lost. -/
def send (network : NetworkOutput) (hdr : PacketHeader) (data : List UInt8) (lost : Bool)
    (heap : ℕ → UInt8) : Option NetworkOutput :=
  if network.sendBusy = false ∧ hdr.length.toNat > 0 ∧ hdr.length.toNat ≤ MaxPacketSize ∧
      hdr.fromHost = network.hostName then
    let buffer :=
      hdr.bytes ++ bcopy data hdr.length.toNat ((freshArray heap MaxWireSize).drop HeaderSize)
    some { network with
      sent := network.sent ++ [if lost then none else some (hdr.toHost, buffer)] }
  else none

/-- `NetworkOutput::CallBack`. -/
def callBack (network : NetworkOutput) : NetworkOutput := { network with sendBusy := false }

end NetworkOutput

/-- The buffers of `class NetworkInput`. -/
structure NetworkInput where
  inHdr : PacketHeader
  inbox : List UInt8
  deriving DecidableEq

namespace NetworkInput

/-- `NetworkInput::CallBack` on host `hostName`, when no packet is buffered and `packet` is the
next one in the socket. -/
def callBack (network : NetworkInput) (hostName : NetworkAddress) (packet : List UInt8) :
    Option NetworkInput :=
  let inHdr := PacketHeader.ofBytes packet
  if packet.length = MaxWireSize ∧ inHdr.toHost = hostName ∧
      inHdr.length.toNat ≤ MaxPacketSize then
    some ⟨inHdr, bcopy (packet.drop HeaderSize) inHdr.length.toNat network.inbox⟩
  else none

/-- `NetworkInput::Receive` into an array. No interrupt comes between its statements. -/
def receive (network : NetworkInput) (data : List UInt8) :
    PacketHeader × List UInt8 × NetworkInput :=
  let hdr := network.inHdr
  (hdr, if hdr.length = 0 then data else bcopy network.inbox hdr.length.toNat data,
    { network with inHdr := { hdr with length := 0 } })

end NetworkInput

section Formats

theorem length_threeWords (a b c : BitVec 32) : (threeWords a b c).length = HeaderSize := by
  simp [threeWords, LittleEndian.length_bytesOf]

/-- Words read back from where they have been written. -/
theorem wordAt_threeWords (a b c : BitVec 32) (rest : List UInt8) :
    wordAt (threeWords a b c ++ rest) 0 = a ∧ wordAt (threeWords a b c ++ rest) 1 = b ∧
      wordAt (threeWords a b c ++ rest) 2 = c := by
  have hread : ∀ (before after : List UInt8) (v : BitVec 32) (i : ℕ), before.length = 4 * i →
      wordAt (before ++ (LittleEndian.bytesOf v 4 ++ after)) i = v := by
    intro before after v i hlength
    rw [wordAt, ← hlength, List.drop_left]
    rw [List.take_append_of_le_length (by rw [LittleEndian.length_bytesOf]),
      List.take_of_length_le (by rw [LittleEndian.length_bytesOf])]
    exact LittleEndian.ofNat_value_bytesOf (by decide) v
  simp only [threeWords, List.append_assoc]
  refine ⟨hread [] _ a 0 rfl, hread _ _ b 1 (LittleEndian.length_bytesOf a 4), ?_⟩
  rw [← List.append_assoc]
  apply hread _ _ c 2
  simp [LittleEndian.length_bytesOf]

theorem PacketHeader.ofBytes_bytes (hdr : PacketHeader) (rest : List UInt8) :
    PacketHeader.ofBytes (hdr.bytes ++ rest) = hdr := by
  obtain ⟨hto, hfrom, hlength⟩ := wordAt_threeWords hdr.toHost hdr.fromHost hdr.length rest
  simp only [PacketHeader.ofBytes, PacketHeader.bytes, hto, hfrom, hlength]

theorem PacketHeader.length_bytes (hdr : PacketHeader) : hdr.bytes.length = HeaderSize :=
  length_threeWords ..

end Formats

end Nachos

import Nachos.Machine.Network
import Nachos.Threads.SynchDevice
import Nachos.Threads.SynchList

/-! The post office of `network/post.cc` on every host of a network. `PostOfficeOutput::Send`
follows the pattern of `SynchDevice`, and every mailbox is a `SynchList`. The socket of a host
brings the packets that another host sent to it in order, and may drop some of them. -/
namespace Nachos

/-- `class MailHeader`, with the source's `to` and `from`. -/
structure MailHeader where
  toBox : BitVec 32
  fromBox : BitVec 32
  /-- Bytes of message data. -/
  length : BitVec 32
  deriving DecidableEq

abbrev MaxMailSize : ℕ := MaxPacketSize - HeaderSize

def MailHeader.bytes (hdr : MailHeader) : List UInt8 :=
  threeWords hdr.toBox hdr.fromBox hdr.length

/-- `*(MailHeader *)buffer`. -/
def MailHeader.ofBytes (buffer : List UInt8) : MailHeader :=
  ⟨wordAt buffer 0, wordAt buffer 1, wordAt buffer 2⟩

/-- `class Mail`, with the bytes of `data` that have been stored. -/
structure Mail where
  pktHdr : PacketHeader
  mailHdr : MailHeader
  data : List UInt8
  deriving DecidableEq

/-- `Mail::Mail`. -/
def Mail.new (pktHdr : PacketHeader) (mailHdr : MailHeader) (msgData : List UInt8) : Option Mail :=
  if mailHdr.length.toNat ≤ MaxMailSize then
    some ⟨pktHdr, mailHdr, msgData.take mailHdr.length.toNat⟩
  else none

/-- A `Mail *`, numbered in the order of allocation on its host. -/
structure Letter where
  number : ℕ
  mail : Mail
  deriving DecidableEq

/-- A call of `PostOfficeOutput::Send`, whether its packet is going to be lost, and what it finds
in the arrays it allocates. -/
structure Message where
  pktHdr : PacketHeader
  mailHdr : MailHeader
  data : List UInt8
  length_data : data.length = mailHdr.length.toNat
  lost : Bool
  heap : ℕ → UInt8

/-- `pktHdr` as `Send` fills it in. -/
def Message.filled (m : Message) (hostName : NetworkAddress) : PacketHeader :=
  { m.pktHdr with fromHost := hostName, length := m.mailHdr.length + HeaderSize }

/-- The concatenation of the mail header and the data. -/
def Message.buffer (m : Message) : List UInt8 :=
  m.mailHdr.bytes ++
    bcopy m.data m.mailHdr.length.toNat ((freshArray m.heap MaxPacketSize).drop HeaderSize)

namespace PostOfficeOutput

/-- What `Send` does up to its wait: its assertions, and `network->Send`. -/
def send (network : NetworkOutput) (m : Message) : Option (Unit × NetworkOutput) :=
  if m.mailHdr.length.toNat ≤ MaxMailSize ∧ 0 ≤ m.mailHdr.toBox.toInt then
    (network.send (m.filled network.hostName) m.buffer m.lost m.heap).map fun network =>
      ((), network)
  else none

def device : Device Message Unit NetworkOutput := ⟨send, NetworkOutput.callBack⟩

end PostOfficeOutput

/-- Where the postal worker is. -/
inductive Worker where
  /-- At `messageAvailable->P()`, in the loop. -/
  | waiting
  /-- At `network->Receive(buffer)`. -/
  | receiving
  /-- In `boxes[box].Put`. -/
  | putting (box : ℕ)
  deriving DecidableEq

/-- The thread that runs `PostalDelivery`. -/
def postalWorker : ThreadId := 0

/-- `class PostOfficeInput`, with its network and the locals of its worker. -/
structure PostOfficeInput where
  network : NetworkInput
  messageAvailable : Semaphore
  worker : Worker
  buffer : List UInt8
  boxes : ℕ → SynchList.State Letter
  /-- How many `Mail` have been allocated. -/
  allocated : ℕ
  /-- The packets that have been read from the socket: who sent them, and with which `Send`. -/
  taken : List (NetworkAddress × ℕ)

namespace PostOfficeInput

/-- The worker takes the packet that is buffered and begins to put it into its mailbox. -/
def deliver (office : PostOfficeInput) (numBoxes : ℕ) : Option PostOfficeInput :=
  let (pktHdr, buffer, network) := office.network.receive office.buffer
  let mailHdr := MailHeader.ofBytes buffer
  let box := mailHdr.toBox.toInt.toNat
  if 0 ≤ mailHdr.toBox.toInt ∧ box < numBoxes ∧ mailHdr.length.toNat ≤ MaxMailSize then do
    let mail ← Mail.new pktHdr mailHdr (buffer.drop HeaderSize)
    let messages ← SynchList.step (office.boxes box) (.append postalWorker ⟨office.allocated, mail⟩)
    return { office with
      network := network, buffer := buffer, worker := .putting box,
      boxes := Function.update office.boxes box messages, allocated := office.allocated + 1 }
  else none

/-- A step of one of the mailboxes. -/
def inBox (office : PostOfficeInput) (box : ℕ) (l : SynchList.Label Letter) :
    Option PostOfficeInput :=
  (SynchList.step (office.boxes box) l).map fun messages =>
    { office with boxes := Function.update office.boxes box messages }

/-- The next statement of the worker. -/
def work (office : PostOfficeInput) (numBoxes : ℕ) : Option PostOfficeInput :=
  match office.worker with
  | .waiting =>
    if postalWorker ∈ office.messageAvailable.queue then none
    else
      let turn := office.messageAvailable.P postalWorker
      some { office with
        messageAvailable := turn.2, worker := if turn.1 then .receiving else .waiting }
  | .receiving => office.deliver numBoxes
  | .putting box =>
    match (office.boxes box).task postalWorker with
    | .idle => some { office with worker := .waiting }
    | _ => office.inBox box (.run postalWorker)

/-- The packet is later than all that have been read from the same sender. -/
def Later (office : PostOfficeInput) (sender : NetworkAddress) (k : ℕ) : Prop :=
  ∀ packet ∈ office.taken, packet.1 = sender → packet.2 < k

instance (office : PostOfficeInput) (sender : NetworkAddress) (k : ℕ) :
    Decidable (office.Later sender k) := inferInstanceAs (Decidable (∀ _ ∈ _, _ → _))

/-- `NetworkInput::CallBack` with a packet in the socket, and the `CallBack` of the office. -/
def arrive (office : PostOfficeInput) (hostName sender : NetworkAddress) (k : ℕ)
    (packet : List UInt8) : Option PostOfficeInput :=
  if office.network.inHdr.length ≠ 0 then some office
  else (office.network.callBack hostName packet).map fun network =>
    { office with
      network := network, messageAvailable := office.messageAvailable.V.2,
      taken := office.taken ++ [(sender, k)] }

end PostOfficeInput

namespace Post

structure State where
  out : NetworkAddress → SynchDevice.State Message Unit NetworkOutput
  office : NetworkAddress → PostOfficeInput

inductive Label where
  /-- A step of a call of `Send` on host `h`, or the interrupt after one. -/
  | send (h : NetworkAddress) (l : SynchDevice.Label Message)
  /-- The network interrupt on host `h` finds the packet of `Send` number `k` of `sender`, or
  an empty socket. -/
  | poll (h : NetworkAddress) (packet : Option (NetworkAddress × ℕ))
  /-- A statement of the postal worker on host `h`. -/
  | work (h : NetworkAddress)
  /-- A call of `Receive`, and a statement in it. -/
  | receive (h : NetworkAddress) (t : ThreadId) (box : ℕ)
  | run (h : NetworkAddress) (t : ThreadId) (box : ℕ)

namespace State

def setOffice (s : State) (h : NetworkAddress) (office : PostOfficeInput) : State :=
  { s with office := Function.update s.office h office }

end State

/-- The packet with which `Send` number `k` of `sender` went to host `h`. -/
def State.packet (s : State) (h sender : NetworkAddress) (k : ℕ) : Option (List UInt8) :=
  match (s.out sender).device.sent[k]? with
  | some (some (dest, packet)) => if dest = h then some packet else none
  | _ => none

/-- A step; `numBoxes` says how many mailboxes each host has. -/
def step (numBoxes : NetworkAddress → ℕ) (s : State) : Label → Option State
  | .send h l => (SynchDevice.step PostOfficeOutput.device (s.out h) l).map fun out =>
      { s with out := Function.update s.out h out }
  | .poll _ none => some s
  | .poll h (some (sender, k)) =>
    if (s.office h).Later sender k then do
      let packet ← s.packet h sender k
      let office ← (s.office h).arrive h sender k packet
      return s.setOffice h office
    else none
  | .work h => ((s.office h).work (numBoxes h)).map (s.setOffice h)
  | .receive h t box =>
    if t ≠ postalWorker ∧ box < numBoxes h then
      ((s.office h).inBox box (.removeFront t)).map (s.setOffice h)
    else none
  | .run h t box =>
    if t ≠ postalWorker then ((s.office h).inBox box (.run t)).map (s.setOffice h) else none

/-- The start; the buffers hold anything. -/
def start (inbox buffer : NetworkAddress → List UInt8) : State where
  out := fun h => SynchDevice.start ⟨h, false, []⟩
  office := fun h =>
    { network := ⟨⟨0, 0, 0⟩, inbox h⟩
      messageAvailable := Semaphore.new 0
      worker := .waiting
      buffer := buffer h
      boxes := fun _ => SynchList.start
      allocated := 0
      taken := [] }

/-- Messages whose length fits and whose mailbox exists where they go. -/
def Addressed (numBoxes : NetworkAddress → ℕ) (m : Message) : Prop :=
  m.mailHdr.length.toNat ≤ MaxMailSize ∧ 0 ≤ m.mailHdr.toBox.toInt ∧
    m.mailHdr.toBox.toInt < numBoxes m.pktHdr.toHost

/-- Every `Send` is given such a message. -/
def Sends (numBoxes : NetworkAddress → ℕ) (s : State) : Label → Prop
  | .send h l => SynchDevice.Asks (Addressed numBoxes) (s.out h) l
  | _ => True

end Post
end Nachos

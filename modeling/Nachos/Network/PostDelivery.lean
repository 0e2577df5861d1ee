import Nachos.Network.Post

/-! Mail is delivered in order, once and uncorrupted. A letter carries the number of its packet
among those that its host has read from the socket, and this says which `Send` it comes from. -/
namespace Nachos

/-- The mail that `Send` means to deliver when it is called on host `sender`. -/
def Message.mail (m : Message) (sender : NetworkAddress) : Mail :=
  ⟨m.filled sender, m.mailHdr, m.data⟩

/-- The mailbox it is addressed to. -/
def Message.box (m : Message) : ℕ := m.mailHdr.toBox.toInt.toNat

/-- What goes through the socket. -/
def Message.packet (m : Message) (sender : NetworkAddress) : List UInt8 :=
  (m.filled sender).bytes ++
    bcopy m.buffer (m.filled sender).length.toNat
      ((freshArray m.heap MaxWireSize).drop HeaderSize)

/-- What `Send` puts into the socket, if anything. -/
def Message.sent (m : Message) (sender : NetworkAddress) :
    Option (NetworkAddress × List UInt8) :=
  if m.lost then none else some (m.pktHdr.toHost, m.packet sender)

namespace Post

section Formats

variable {m : Message} {sender : NetworkAddress}

theorem toNat_filled_length (h : m.mailHdr.length.toNat ≤ MaxMailSize) :
    (m.filled sender).length.toNat = m.mailHdr.length.toNat + HeaderSize := by
  show (m.mailHdr.length + 12).toNat = _
  rw [BitVec.toNat_add]
  have h : m.mailHdr.length.toNat ≤ 40 := h
  exact Nat.mod_eq_of_lt (by change _ + 12 < 2 ^ 32; omega)

theorem length_freshArray (heap : ℕ → UInt8) (n : ℕ) : (freshArray heap n).length = n := by
  simp [freshArray]

theorem length_bcopy {source array : List UInt8} {n : ℕ} (hsource : n ≤ source.length)
    (harray : n ≤ array.length) : (bcopy source n array).length = array.length := by
  simp only [bcopy, List.length_append, List.length_take, List.length_drop]
  omega

theorem take_bcopy {source array : List UInt8} {n : ℕ} (hsource : n ≤ source.length) :
    (bcopy source n array).take n = source.take n := by
  rw [bcopy, List.take_append_of_le_length (by simp [hsource]), List.take_take, min_self]

/-- The buffer begins with the mail header and the data. -/
theorem take_buffer (h : m.mailHdr.length.toNat ≤ MaxMailSize) :
    m.buffer.take (m.filled sender).length.toNat = m.mailHdr.bytes ++ m.data := by
  have hheader : m.mailHdr.bytes.length = HeaderSize := length_threeWords ..
  rw [toNat_filled_length h, Message.buffer, Nat.add_comm, ← hheader, List.take_length_add_append,
    take_bcopy (by rw [m.length_data]), List.take_of_length_le (by rw [m.length_data])]

theorem length_buffer (h : m.mailHdr.length.toNat ≤ MaxMailSize) :
    m.buffer.length = MaxPacketSize := by
  have hheader : m.mailHdr.bytes.length = HeaderSize := length_threeWords ..
  have hfresh : ((freshArray m.heap MaxPacketSize).drop HeaderSize).length = MaxMailSize := by
    rw [List.length_drop, length_freshArray]
  rw [Message.buffer, List.length_append, hheader,
    length_bcopy (by rw [m.length_data]) (by rw [hfresh]; exact h), hfresh]
  rfl

theorem length_filled_le (h : m.mailHdr.length.toNat ≤ MaxMailSize) :
    (m.filled sender).length.toNat ≤ MaxPacketSize := by
  rw [toNat_filled_length h]
  have : MaxPacketSize = MaxMailSize + HeaderSize := rfl
  omega

theorem length_packet (h : m.mailHdr.length.toNat ≤ MaxMailSize) :
    (m.packet sender).length = MaxWireSize := by
  have hfresh : ((freshArray m.heap MaxWireSize).drop HeaderSize).length = MaxPacketSize := by
    rw [List.length_drop, length_freshArray]
  have hle : (m.filled sender).length.toNat ≤ MaxPacketSize := length_filled_le h
  rw [Message.packet, List.length_append, PacketHeader.length_bytes,
    length_bcopy (by rw [length_buffer h]; exact hle) (by rw [hfresh]; exact hle), hfresh]
  rfl

/-- Reading a packet from the socket brings the header and the data that were sent. -/
theorem callBack_packet {network : NetworkInput} {hostName : NetworkAddress}
    (h : m.mailHdr.length.toNat ≤ MaxMailSize) (hto : m.pktHdr.toHost = hostName) :
    ∃ inbox, network.callBack hostName (m.packet sender) = some ⟨m.filled sender, inbox⟩ ∧
      inbox.take (m.filled sender).length.toNat = m.mailHdr.bytes ++ m.data := by
  have hhdr : PacketHeader.ofBytes (m.packet sender) = m.filled sender :=
    PacketHeader.ofBytes_bytes ..
  have hle : (m.filled sender).length.toNat ≤ MaxPacketSize := length_filled_le h
  have hlength := (length_buffer h).symm ▸ hle
  refine ⟨bcopy ((m.packet sender).drop HeaderSize) (m.filled sender).length.toNat network.inbox,
    ?_, ?_⟩
  · unfold NetworkInput.callBack
    rw [hhdr]
    exact if_pos ⟨length_packet h, hto, hle⟩
  · have hdrop : (m.packet sender).drop HeaderSize = bcopy m.buffer (m.filled sender).length.toNat
        ((freshArray m.heap MaxWireSize).drop HeaderSize) := by
      rw [Message.packet, ← PacketHeader.length_bytes (m.filled sender), List.drop_left]
    have hlong : (m.filled sender).length.toNat ≤ ((m.packet sender).drop HeaderSize).length := by
      rw [List.length_drop, length_packet h]
      exact hle
    rw [take_bcopy hlong, hdrop, take_bcopy hlength, take_buffer h]

/-- The mail header and the data are parsed out of the buffer of the worker. -/
theorem parse_buffer {buffer : List UInt8} {n : ℕ}
    (hbuffer : buffer.take n = m.mailHdr.bytes ++ m.data) :
    MailHeader.ofBytes buffer = m.mailHdr ∧
      (buffer.drop HeaderSize).take m.mailHdr.length.toNat = m.data := by
  have hheader : m.mailHdr.bytes.length = HeaderSize := length_threeWords ..
  have hsplit : buffer = m.mailHdr.bytes ++ (m.data ++ buffer.drop n) := by
    rw [← List.append_assoc, ← hbuffer, List.take_append_drop]
  obtain ⟨hto, hfrom, hlength⟩ := wordAt_threeWords m.mailHdr.toBox m.mailHdr.fromBox
    m.mailHdr.length (m.data ++ buffer.drop n)
  constructor
  · rw [hsplit]
    simp only [MailHeader.ofBytes, MailHeader.bytes, hto, hfrom, hlength]
  · rw [hsplit, ← hheader, List.drop_left, ← m.length_data, List.take_left]

end Formats

section Sender

variable {numBoxes : NetworkAddress → ℕ} {g : NetworkAddress}

/-- The network takes every message that fits. -/
theorem send_reliable (valid : Message → Prop)
    (hvalid : ∀ m, valid m → m.mailHdr.length.toNat ≤ MaxMailSize ∧ 0 ≤ m.mailHdr.toBox.toInt) :
    SynchDevice.Reliable PostOfficeOutput.device
      (fun network => network.sendBusy = false ∧ network.hostName = g) valid := by
  constructor
  intro network m hready hm
  obtain ⟨hlength, hbox⟩ := hvalid m hm
  have hpos : (m.filled network.hostName).length.toNat > 0 := by
    rw [toNat_filled_length hlength]
    exact Nat.succ_pos _
  show ∃ answer d', PostOfficeOutput.send network m = _ ∧ _
  unfold PostOfficeOutput.send NetworkOutput.send
  rw [if_pos ⟨hlength, hbox⟩,
    if_pos ⟨hready.1, hpos, length_filled_le hlength, rfl⟩]
  exact ⟨(), _, rfl, rfl, hready.2⟩

/-- What a host has put into its socket. -/
theorem serves_sent {network network' : NetworkOutput} {calls : List (Message × Unit)}
    (h : SynchDevice.Serves PostOfficeOutput.device network calls network') :
    network'.hostName = network.hostName ∧
      network'.sent = network.sent ++ calls.map fun call => call.1.sent network.hostName := by
  induction h with
  | nil => simp
  | @snoc calls m answer d d' _ hrequest ih =>
    obtain ⟨hname, hsent⟩ := ih
    obtain ⟨-, hrequest⟩ := Option.ite_none_right_eq_some.mp hrequest
    obtain ⟨d'', hsend, heq⟩ := Option.map_eq_some_iff.mp hrequest
    cases heq
    obtain ⟨-, hsend⟩ := Option.ite_none_right_eq_some.mp hsend
    cases hsend
    refine ⟨hname, ?_⟩
    show _ ++ [_] = _
    rw [hsent, List.map_append, List.append_assoc, ← hname]
    rfl

end Sender

/-- `Send` number `k` of `sender` has been made with `m`, is not lost, and goes to host `h`. -/
def Sent (s : State) (h sender : NetworkAddress) (k : ℕ) (m : Message) : Prop :=
  ∃ t u, (s.out sender).made[k]? = some (t, m, u) ∧ m.lost = false ∧ m.pktHdr.toHost = h

/-- The messages that were sent to one host, with the numbers of their `Send`s. -/
abbrev SentTo := NetworkAddress → ℕ → Message → Prop

/-- The letter comes from a `Send` to mailbox `box`. -/
def Genuine (sent : SentTo) (taken : List (NetworkAddress × ℕ)) (box : ℕ) (l : Letter) : Prop :=
  ∃ sender k m, taken[l.number]? = some (sender, k) ∧ sent sender k m ∧ m.box = box ∧
    l.mail = m.mail sender

/-- What holds of a mailbox when `allocated` letters have been made. -/
structure BoxInv (genuine : Letter → Prop) (allocated : ℕ) (messages : SynchList.State Letter) :
    Prop where
  list : SynchList.Inv messages
  running : messages.failed = false
  letters : ∀ l ∈ messages.appended, genuine l ∧ l.number < allocated
  sorted : (messages.appended.map Letter.number).Pairwise (· < ·)
  hand : ∀ l, messages.task postalWorker = .appendAcquire l →
    genuine l ∧ l.number < allocated ∧ ∀ l' ∈ messages.appended, l'.number < l.number
  producer : (messages.task postalWorker).produces = true
  consumers : ∀ t, t ≠ postalWorker → (messages.task t).consumes = true
  returned : ∀ t l, (messages.task t).item = some l → l ∈ messages.taken

section Boxes

variable {genuine genuine' : Letter → Prop} {allocated allocated' : ℕ}
  {messages messages' : SynchList.State Letter} {t : ThreadId}

theorem BoxInv.mono (h : BoxInv genuine allocated messages) (hgenuine : ∀ l, genuine l → genuine' l)
    (hle : allocated ≤ allocated') : BoxInv genuine' allocated' messages := by
  refine ⟨h.list, h.running, ?_, h.sorted, ?_, h.producer, h.consumers, h.returned⟩
  · intro l hl
    obtain ⟨hg, hlt⟩ := h.letters l hl
    exact ⟨hgenuine l hg, hlt.trans_le hle⟩
  · intro l hl
    obtain ⟨hg, hlt, hall⟩ := h.hand l hl
    exact ⟨hgenuine l hg, hlt.trans_le hle, hall⟩

/-- What a step leaves of the letters that are in the box, or on their way into it. -/
def Keeps (messages messages' : SynchList.State Letter) : Prop :=
  (∀ l ∈ messages.appended, l ∈ messages'.appended) ∧
    ∀ l, messages.task postalWorker = .appendAcquire l →
      messages'.task postalWorker = .appendAcquire l ∨ l ∈ messages'.appended

theorem task_goto {m : Monitor.State} {task : SynchList.Task Letter} {u : ThreadId} :
    ({ messages.goto t task with monitor := m } : SynchList.State Letter).task u =
      if u = t then task else messages.task u := by
  show Function.update messages.task t task u = _
  rw [Function.update_apply]

/-- A statement that leaves the list alone. -/
theorem BoxInv.goto {m : Monitor.State} {task : SynchList.Task Letter}
    (h : BoxInv genuine allocated messages)
    (hlist : SynchList.Inv { messages.goto t task with monitor := m })
    (hproduces : t = postalWorker → task.produces = true)
    (hconsumes : t ≠ postalWorker → task.consumes = true)
    (hhand : ∀ l, task = .appendAcquire l → t = postalWorker →
      genuine l ∧ l.number < allocated ∧ ∀ l' ∈ messages.appended, l'.number < l.number)
    (hitem : ∀ l, task.item = some l → l ∈ messages.taken) :
    BoxInv genuine allocated { messages.goto t task with monitor := m } := by
  refine ⟨hlist, h.running, h.letters, h.sorted, ?_, ?_, ?_, ?_⟩
  · intro l hl
    rw [task_goto] at hl
    split_ifs at hl with ht
    · exact hhand l hl ht.symm
    · exact h.hand l hl
  · rw [task_goto]
    split_ifs with ht
    · exact hproduces ht.symm
    · exact h.producer
  · intro u hu
    rw [task_goto]
    split_ifs with hut
    · exact hconsumes (hut ▸ hu)
    · exact h.consumers u hu
  · intro u l hl
    rw [task_goto] at hl
    split_ifs at hl with hut
    · exact hitem l hl
    · exact h.returned u l hl

/-- The worker begins to put a new letter into the box. -/
theorem BoxInv.append {l : Letter} (h : BoxInv genuine allocated messages) (hgenuine : genuine l)
    (hnumber : l.number = allocated)
    (hs : SynchList.step messages (.append postalWorker l) = some messages') :
    BoxInv genuine (allocated + 1) messages' ∧ messages'.appended = messages.appended ∧
      messages'.task postalWorker = .appendAcquire l := by
  have hlist := h.list.step hs
  obtain ⟨m, rfl⟩ := SynchList.step_append hs
  refine ⟨?_, rfl, task_goto.trans (if_pos rfl)⟩
  apply (h.mono (fun _ => id) (Nat.le_succ allocated)).goto hlist (fun _ => rfl)
    (fun ht => absurd rfl ht)
  · intro l' hl' _
    cases hl'
    refine ⟨hgenuine, by omega, ?_⟩
    intro l' hl'
    rw [hnumber]
    exact (h.letters l' hl').2
  · nofun

/-- A receiver begins to look for a letter. -/
theorem BoxInv.removeFront (h : BoxInv genuine allocated messages) (ht : t ≠ postalWorker)
    (hs : SynchList.step messages (.removeFront t) = some messages') :
    BoxInv genuine allocated messages' ∧ messages'.appended = messages.appended ∧
      messages'.task postalWorker = messages.task postalWorker := by
  have hlist := h.list.step hs
  obtain ⟨m, rfl⟩ := SynchList.step_removeFront hs
  refine ⟨?_, rfl, task_goto.trans (if_neg ht.symm)⟩
  exact h.goto hlist (fun hw => absurd hw ht) (fun _ => rfl) nofun nofun

/-- The letter in the worker's hand goes into the box. -/
theorem BoxInv.insert {l : Letter} (h : BoxInv genuine allocated messages)
    (htask : messages.task postalWorker = .appendAcquire l)
    (hlist : SynchList.Inv { messages.goto postalWorker .appendInserted with
      list := messages.list ++ [l], appended := messages.appended ++ [l] }) :
    BoxInv genuine allocated { messages.goto postalWorker .appendInserted with
      list := messages.list ++ [l], appended := messages.appended ++ [l] } := by
  obtain ⟨hgenuine, hlt, hall⟩ := h.hand l htask
  have htask (u : ThreadId) : (messages.goto postalWorker .appendInserted).task u =
      if u = postalWorker then .appendInserted else messages.task u :=
    task_goto (m := messages.monitor)
  refine ⟨hlist, h.running, ?_, ?_, ?_, ?_, ?_, ?_⟩
  · intro l' hl'
    rcases List.mem_append.mp hl' with hl' | hl'
    · exact h.letters l' hl'
    · rw [List.mem_singleton.mp hl']
      exact ⟨hgenuine, hlt⟩
  · rw [List.map_append, List.pairwise_append]
    refine ⟨h.sorted, List.pairwise_singleton _ _, ?_⟩
    intro a ha b hb
    obtain ⟨l', hl', rfl⟩ := List.mem_map.mp ha
    rw [List.mem_singleton.mp hb]
    exact hall l' hl'
  · intro l' hl'
    cases ((htask postalWorker).trans (if_pos rfl)).symm.trans hl'
  · exact congrArg _ ((htask postalWorker).trans (if_pos rfl))
  · intro u hu
    exact (congrArg _ ((htask u).trans (if_neg hu))).trans (h.consumers u hu)
  · intro u l' hl'
    by_cases hu : u = postalWorker
    · subst hu
      cases (congrArg SynchList.Task.item ((htask postalWorker).trans (if_pos rfl))).symm.trans hl'
    · exact h.returned u l' ((congrArg _ ((htask u).trans (if_neg hu))).symm.trans hl')

/-- A receiver takes the first letter. -/
theorem BoxInv.remove {l : Letter} {list : List Letter} (h : BoxInv genuine allocated messages)
    (ht : t ≠ postalWorker) (hlist : SynchList.Inv { messages.goto t (.removeTaken l) with
      list := list, taken := messages.taken ++ [l] }) :
    BoxInv genuine allocated { messages.goto t (.removeTaken l) with
      list := list, taken := messages.taken ++ [l] } := by
  have htask (u : ThreadId) : (messages.goto t (.removeTaken l)).task u =
      if u = t then .removeTaken l else messages.task u :=
    task_goto (m := messages.monitor)
  have hworker := (htask postalWorker).trans (if_neg ht.symm)
  refine ⟨hlist, h.running, h.letters, h.sorted, ?_, ?_, ?_, ?_⟩
  · intro l' hl'
    exact h.hand l' (hworker.symm.trans hl')
  · exact (congrArg _ hworker).trans h.producer
  · intro u hu
    by_cases hut : u = t
    · exact congrArg SynchList.Task.consumes ((htask u).trans (if_pos hut))
    · exact (congrArg _ ((htask u).trans (if_neg hut))).trans (h.consumers u hu)
  · intro u l' hl'
    by_cases hut : u = t
    · cases (congrArg SynchList.Task.item ((htask u).trans (if_pos hut))).symm.trans hl'
      exact List.mem_append_right _ List.mem_cons_self
    · apply List.mem_append_left
      exact h.returned u l' ((congrArg _ ((htask u).trans (if_neg hut))).symm.trans hl')

/-- A statement of the worker in the box, or of a receiver. -/
theorem BoxInv.run (h : BoxInv genuine allocated messages)
    (hs : SynchList.step messages (.run t) = some messages') :
    BoxInv genuine allocated messages' ∧ Keeps messages messages' ∧
      (t ≠ postalWorker → messages'.task postalWorker = messages.task postalWorker) := by
  have hlist := h.list.step hs
  have hnotHere {l : Letter} (htask : messages.task t = .appendAcquire l) : t = postalWorker := by
    by_contra ht
    have hc := h.consumers t ht
    rw [htask] at hc
    cases hc
  cases h.list.effect hs with
  | monitor m =>
    refine ⟨⟨hlist, h.running, h.letters, h.sorted, h.hand, h.producer, h.consumers, h.returned⟩,
      ⟨fun _ => id, fun _ => .inl⟩, fun _ => rfl⟩
  | next m hnext =>
    refine ⟨h.goto hlist ?_ ?_ ?_ ?_, ⟨fun _ => id, ?_⟩, ?_⟩
    · intro ht
      exact hnext.produces (ht ▸ h.producer)
    · intro ht
      exact hnext.consumes (h.consumers t ht)
    · intro l hl
      exact absurd hl (hnext.not_appendAcquire l).2
    · intro l hl
      exact h.returned t l (hnext.item hl)
    · intro l hl
      by_cases ht : postalWorker = t
      · exact absurd (ht ▸ hl) (hnext.not_appendAcquire l).1
      · exact .inl (task_goto.trans ((if_neg ht).trans hl))
    · intro ht
      exact task_goto.trans (if_neg ht.symm)
  | @duplicate l htask hmem =>
    -- the letter in the worker's hand has a number of its own
    obtain rfl := hnotHere htask
    have happended : l ∈ messages.appended := by
      rw [h.list.fifo]
      exact List.mem_append_right _ hmem
    exact absurd ((h.hand l htask).2.2 l happended) (lt_irrefl _)
  | @insert l htask =>
    obtain rfl := hnotHere htask
    refine ⟨h.insert htask hlist, ⟨fun l' hl' => List.mem_append_left _ hl', ?_⟩,
      fun ht => absurd rfl ht⟩
    intro l' hl'
    cases htask.symm.trans hl'
    exact .inr (List.mem_append_right _ List.mem_cons_self)
  | @remove l list htask hfirst =>
    have ht : t ≠ postalWorker := by
      rintro rfl
      have hp := h.producer
      rw [htask] at hp
      cases hp
    have hworker : (messages.goto t (.removeTaken l)).task postalWorker =
        if postalWorker = t then .removeTaken l else messages.task postalWorker :=
      task_goto (m := messages.monitor)
    refine ⟨h.remove ht hlist, ⟨fun _ => id, ?_⟩, fun _ => hworker.trans (if_neg ht.symm)⟩
    intro l' hl'
    exact .inl ((hworker.trans (if_neg ht.symm)).trans hl')

end Boxes

end Post
end Nachos

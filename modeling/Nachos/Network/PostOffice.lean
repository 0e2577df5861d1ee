import Nachos.Network.PostDelivery

/-! The receiving side of a post office. The inbox holds at most one packet, which
`messageAvailable` promises to the worker: no packet is read from the socket before the worker
has taken the last one out. -/
namespace Nachos

namespace PostOfficeInput

/-- How many packets are buffered in the inbox. -/
def pending (office : PostOfficeInput) : ℕ := if office.network.inHdr.length = 0 then 0 else 1

/-- A packet is buffered in the inbox, as it was sent. -/
def Buffered (sent : Post.SentTo) (office : PostOfficeInput) : Prop :=
  ∃ sender k m, office.taken[office.allocated]? = some (sender, k) ∧ sent sender k m ∧
    office.network.inHdr = m.filled sender ∧
    office.network.inbox.take (m.filled sender).length.toNat = m.mailHdr.bytes ++ m.data

end PostOfficeInput

namespace Post

/-- The letter is in the mailbox, or has been in it, or the worker is putting it there. -/
def Holds (messages : SynchList.State Letter) (l : Letter) : Prop :=
  l ∈ messages.appended ∨ messages.task postalWorker = .appendAcquire l

/-- Messages that were sent to a host with `numBoxes` mailboxes. -/
structure SentTo.Valid (sent : SentTo) (numBoxes : ℕ) : Prop where
  unique : ∀ {sender k m m'}, sent sender k m → sent sender k m' → m = m'
  fits : ∀ {sender k m}, sent sender k m → m.mailHdr.length.toNat ≤ MaxMailSize
  box : ∀ {sender k m}, sent sender k m →
    0 ≤ m.mailHdr.toBox.toInt ∧ m.mailHdr.toBox.toInt < numBoxes

/-- What holds of a host that receives mail. -/
structure OfficeInv (sent : SentTo) (office : PostOfficeInput) : Prop where
  boxes : ∀ b, BoxInv (Genuine sent office.taken b) office.allocated (office.boxes b)
  genuine : ∀ packet ∈ office.taken, ∃ m, sent packet.1 packet.2 m
  order : office.taken.Pairwise fun p q => p.1 = q.1 → p.2 < q.2
  count : office.taken.length = office.allocated + office.pending
  permits : office.messageAvailable.value + (if office.worker = .receiving then 1 else 0) =
    office.pending
  queue : ∀ t ∈ office.messageAvailable.queue, office.messageAvailable.queue = [postalWorker] ∧
    office.worker = .waiting ∧ office.pending = 0
  buffered : office.pending ≠ 0 → office.Buffered sent
  covered : ∀ n < office.allocated, ∃ b l, l.number = n ∧ Holds (office.boxes b) l
  putting : ∀ b, (office.boxes b).task postalWorker ≠ .idle → office.worker = .putting b

section

variable {sent sent' : SentTo} {office office' : PostOfficeInput} {numBoxes : ℕ}
  {taken taken' : List (NetworkAddress × ℕ)} {box : ℕ} {messages messages' : SynchList.State Letter}
  {l : Letter}

theorem Keeps.holds (h : Keeps messages messages') (hl : Holds messages l) : Holds messages' l := by
  rcases hl with hl | hl
  · exact .inl (h.1 l hl)
  · rcases h.2 l hl with hl | hl
    · exact .inr hl
    · exact .inl hl

theorem Genuine.mono (h : Genuine sent taken box l)
    (hsent : ∀ sender k m, sent sender k m → sent' sender k m) (htaken : taken <+: taken') :
    Genuine sent' taken' box l := by
  obtain ⟨sender, k, m, hpacket, hm, hrest⟩ := h
  obtain ⟨later, rfl⟩ := htaken
  have hlt := (List.getElem?_eq_some_iff.mp hpacket).1
  exact ⟨sender, k, m, (List.getElem?_append_left hlt).trans hpacket, hsent _ _ _ hm, hrest⟩

/-- More messages may be sent. -/
theorem OfficeInv.mono (h : OfficeInv sent office)
    (hsent : ∀ sender k m, sent sender k m → sent' sender k m) : OfficeInv sent' office := by
  refine ⟨?_, ?_, h.order, h.count, h.permits, h.queue, ?_, h.covered, h.putting⟩
  · intro b
    exact (h.boxes b).mono (fun l hl => hl.mono hsent List.prefix_rfl) le_rfl
  · intro packet hpacket
    obtain ⟨m, hm⟩ := h.genuine packet hpacket
    exact ⟨m, hsent _ _ _ hm⟩
  · intro hpending
    obtain ⟨sender, k, m, htaken, hm, hrest⟩ := h.buffered hpending
    exact ⟨sender, k, m, htaken, hsent _ _ _ hm, hrest⟩

theorem pending_le_one : office.pending ≤ 1 := by
  unfold PostOfficeInput.pending
  split <;> omega

theorem OfficeInv.tail_queue (h : OfficeInv sent office) :
    office.messageAvailable.queue.tail = [] := by
  cases hq : office.messageAvailable.queue with
  | nil => rfl
  | cons t queue =>
    have ht := (h.queue t (hq ▸ List.mem_cons_self)).1
    rw [hq] at ht
    cases ht
    rfl

/-- The network interrupt finds a packet. -/
theorem OfficeInv.arrive {hostName sender : NetworkAddress} {k : ℕ} {m : Message}
    (h : OfficeInv sent office) (hvalid : sent.Valid numBoxes) (hm : sent sender k m)
    (hto : m.pktHdr.toHost = hostName) (hlater : office.Later sender k) :
    ∃ office', office.arrive hostName sender k (m.packet sender) = some office' ∧
      OfficeInv sent office' := by
  unfold PostOfficeInput.arrive
  split_ifs with hfull
  · exact ⟨office, rfl, h⟩
  rw [not_not] at hfull
  obtain ⟨inbox, hread, hinbox⟩ : ∃ inbox, office.network.callBack hostName (m.packet sender) =
      some ⟨m.filled sender, inbox⟩ ∧
        inbox.take (m.filled sender).length.toNat = m.mailHdr.bytes ++ m.data :=
    callBack_packet (hvalid.fits hm) hto
  rw [hread]
  refine ⟨_, rfl, ?_⟩
  have hempty : office.pending = 0 := if_pos hfull
  have hlength : office.taken.length = office.allocated := by
    rw [h.count, hempty, Nat.add_zero]
  have hpositive : (m.filled sender).length ≠ 0 := by
    intro hzero
    have hnat : (m.filled sender).length.toNat = m.mailHdr.length.toNat + HeaderSize :=
      toNat_filled_length (hvalid.fits hm)
    rw [hzero] at hnat
    exact absurd hnat (by simp)
  have hpermits := h.permits
  rw [hempty] at hpermits
  refine ⟨?_, ?_, ?_, ?_, ?_, ?_, ?_, h.covered, h.putting⟩
  · intro b
    exact (h.boxes b).mono
      (fun l hl => hl.mono (fun _ _ _ => id) (List.prefix_append _ _)) le_rfl
  · intro packet hpacket
    rcases List.mem_append.mp hpacket with hpacket | hpacket
    · exact h.genuine packet hpacket
    · rw [List.mem_singleton.mp hpacket]
      exact ⟨m, hm⟩
  · rw [List.pairwise_append]
    refine ⟨h.order, List.pairwise_singleton _ _, ?_⟩
    intro p hp q hq hpq
    rw [List.mem_singleton] at hq
    subst hq
    exact hlater p hp hpq
  · show (office.taken ++ [(sender, k)]).length = office.allocated + _
    rw [List.length_append, hlength]
    exact congrArg _ (if_neg hpositive).symm
  · show office.messageAvailable.value + 1 + _ = _
    refine Eq.trans ?_ (if_neg hpositive).symm
    show office.messageAvailable.value + 1 + (if office.worker = .receiving then 1 else 0) = 1
    omega
  · intro t ht
    rw [show office.messageAvailable.V.2.queue = [] from h.tail_queue] at ht
    cases ht
  · intro _
    refine ⟨sender, k, m, ?_, hm, rfl, hinbox⟩
    show (office.taken ++ [(sender, k)])[office.allocated]? = _
    rw [← hlength]
    exact List.getElem?_concat_length

/-- One turn of the loop in `messageAvailable->P()`. -/
theorem OfficeInv.turn (h : OfficeInv sent office) (hworker : office.worker = .waiting)
    (hawake : postalWorker ∉ office.messageAvailable.queue) :
    OfficeInv sent { office with
      messageAvailable := (office.messageAvailable.P postalWorker).2
      worker := if (office.messageAvailable.P postalWorker).1 then .receiving else .waiting } := by
  have hempty : office.messageAvailable.queue = [] := by
    apply List.eq_nil_iff_forall_not_mem.mpr
    intro t ht
    apply hawake
    rw [(h.queue t ht).1]
    exact List.mem_singleton_self _
  have hidle : ∀ b, (office.boxes b).task postalWorker = .idle := by
    intro b
    by_contra hb
    cases hworker.symm.trans (h.putting b hb)
  have hpermits := h.permits
  rw [hworker, if_neg nofun, Nat.add_zero] at hpermits
  by_cases hvalue : office.messageAvailable.value = 0
  · rw [Semaphore.P_of_zero hvalue]
    refine ⟨h.boxes, h.genuine, h.order, h.count, hpermits, ?_, h.buffered, h.covered, ?_⟩
    · intro t _
      refine ⟨?_, rfl, hpermits.symm.trans hvalue⟩
      show office.messageAvailable.queue ++ [postalWorker] = _
      rw [hempty]
      rfl
    · intro b hb
      exact absurd (hidle b) hb
  · rw [Semaphore.P_of_ne_zero hvalue]
    refine ⟨h.boxes, h.genuine, h.order, h.count, ?_, ?_, h.buffered, h.covered, ?_⟩
    · show office.messageAvailable.value - 1 + 1 = office.pending
      omega
    · intro t ht
      rw [show office.messageAvailable.queue = [] from hempty] at ht
      cases ht
    · intro b hb
      exact absurd (hidle b) hb

/-- The worker has put the letter into its mailbox. -/
theorem OfficeInv.finish (h : OfficeInv sent office) (hworker : office.worker = .putting box)
    (hidle : (office.boxes box).task postalWorker = .idle) :
    OfficeInv sent { office with worker := .waiting } := by
  have hpermits := h.permits
  rw [hworker, if_neg nofun] at hpermits
  refine ⟨h.boxes, h.genuine, h.order, h.count, hpermits, ?_, h.buffered, h.covered, ?_⟩
  · intro t ht
    cases hworker.symm.trans (h.queue t ht).2.1
  · intro b hb
    cases hworker.symm.trans (h.putting b hb)
    exact absurd hidle hb

/-- A step in one of the mailboxes. -/
theorem OfficeInv.inBox (h : OfficeInv sent office)
    (hbox : BoxInv (Genuine sent office.taken box) office.allocated messages')
    (hkeeps : Keeps (office.boxes box) messages')
    (hputting : messages'.task postalWorker ≠ .idle → office.worker = .putting box) :
    OfficeInv sent { office with boxes := Function.update office.boxes box messages' } := by
  refine ⟨?_, h.genuine, h.order, h.count, h.permits, h.queue, h.buffered, ?_, ?_⟩
  · apply (Function.forall_update_iff office.boxes fun b messages =>
      BoxInv (Genuine sent office.taken b) office.allocated messages).mpr
    exact ⟨hbox, fun b _ => h.boxes b⟩
  · intro n hn
    obtain ⟨b, l, hl, hholds⟩ := h.covered n hn
    refine ⟨b, l, hl, ?_⟩
    show Holds (Function.update office.boxes box messages' b) l
    by_cases hb : b = box
    · subst hb
      rw [Function.update_self]
      exact hkeeps.holds hholds
    · rw [Function.update_of_ne hb]
      exact hholds
  · apply (Function.forall_update_iff office.boxes fun b messages =>
      messages.task postalWorker ≠ .idle → office.worker = .putting b).mpr
    exact ⟨hputting, fun b _ => h.putting b⟩

/-- The letter that the worker makes of the packet in the inbox. -/
theorem OfficeInv.letter (h : OfficeInv sent office) (hvalid : sent.Valid numBoxes)
    (hworker : office.worker = .receiving) :
    ∃ sender k m, office.taken[office.allocated]? = some (sender, k) ∧ sent sender k m ∧
      office.pending = 1 ∧ office.messageAvailable.value = 0 ∧ ∃ buffer,
      office.network.receive office.buffer =
        (m.filled sender, buffer, { office.network with
          inHdr := { office.network.inHdr with length := 0 } }) ∧
      MailHeader.ofBytes buffer = m.mailHdr ∧
      Mail.new (m.filled sender) m.mailHdr (buffer.drop HeaderSize) = some (m.mail sender) := by
  have hpermits := h.permits
  rw [if_pos hworker] at hpermits
  have hle : office.pending ≤ 1 := pending_le_one
  obtain ⟨sender, k, m, htaken, hm, hhdr, hinbox⟩ := h.buffered (by omega)
  have hfits := hvalid.fits hm
  have hfull : office.network.inHdr.length ≠ 0 := by
    intro hzero
    have hnone : office.pending = 0 := if_pos hzero
    omega
  have hlong : (m.filled sender).length.toNat ≤ office.network.inbox.length := by
    have hlength := congrArg List.length hinbox
    have hheader : m.mailHdr.bytes.length = HeaderSize := length_threeWords ..
    have hfilled : (m.filled sender).length.toNat = m.mailHdr.length.toNat + HeaderSize :=
      toNat_filled_length hfits
    rw [List.length_take, List.length_append, hheader, m.length_data, Nat.add_comm, ← hfilled]
      at hlength
    omega
  refine ⟨sender, k, m, htaken, hm, by omega, by omega,
    bcopy office.network.inbox (m.filled sender).length.toNat office.buffer, ?_, ?_⟩
  · unfold NetworkInput.receive
    dsimp only
    rw [if_neg hfull, hhdr]
  · have hbuffer : (bcopy office.network.inbox (m.filled sender).length.toNat office.buffer).take
        (m.filled sender).length.toNat = m.mailHdr.bytes ++ m.data := by
      rw [take_bcopy hlong, hinbox]
    obtain ⟨hmailHdr, hdata⟩ := parse_buffer hbuffer
    refine ⟨hmailHdr, ?_⟩
    unfold Mail.new
    rw [if_pos hfits, hdata]
    rfl

/-- The worker takes the packet out of the inbox. -/
theorem OfficeInv.deliver (h : OfficeInv sent office) (hvalid : sent.Valid numBoxes)
    (hworker : office.worker = .receiving) :
    ∃ office', office.deliver numBoxes = some office' ∧ OfficeInv sent office' := by
  obtain ⟨sender, k, m, htaken, hm, hpending, hvalue, buffer, hreceive, hmailHdr, hmail⟩ :=
    h.letter hvalid hworker
  obtain ⟨hbox, hexists⟩ := hvalid.box hm
  have hidle : ∀ b, (office.boxes b).task postalWorker = .idle := by
    intro b
    by_contra hb
    cases hworker.symm.trans (h.putting b hb)
  have hboxes := h.boxes m.box
  obtain ⟨messages, hs⟩ := hboxes.list.exists_append hboxes.running (hidle m.box)
    (⟨office.allocated, m.mail sender⟩ : Letter)
  obtain ⟨hinv, happended, htask⟩ :=
    hboxes.append ⟨sender, k, m, htaken, hm, rfl, rfl⟩ rfl hs
  have hdeliver : office.deliver numBoxes = some { office with
      network := { office.network with inHdr := { office.network.inHdr with length := 0 } }
      buffer := buffer
      worker := .putting m.box
      boxes := Function.update office.boxes m.box messages
      allocated := office.allocated + 1 } := by
    unfold PostOfficeInput.deliver
    rw [hreceive]
    dsimp only
    rw [hmailHdr, if_pos ⟨hbox, by omega, hvalid.fits hm⟩, hmail]
    change (SynchList.step (office.boxes m.box) _).bind _ = _
    rw [hs]
    rfl
  refine ⟨_, hdeliver, ?_, h.genuine, h.order, ?_, ?_, ?_, fun hne => absurd rfl hne, ?_, ?_⟩
  · apply (Function.forall_update_iff office.boxes fun b messages =>
      BoxInv (Genuine sent office.taken b) (office.allocated + 1) messages).mpr
    exact ⟨hinv, fun b _ => (h.boxes b).mono (fun _ => id) (Nat.le_succ _)⟩
  · exact h.count.trans (congrArg _ hpending)
  · exact hvalue
  · intro t ht
    cases hworker.symm.trans (h.queue t ht).2.1
  · intro n hn
    rcases Nat.lt_succ_iff_lt_or_eq.mp hn with hn | rfl
    · obtain ⟨b, l, hl, hholds⟩ := h.covered n hn
      refine ⟨b, l, hl, .inl ?_⟩
      have hin : l ∈ (office.boxes b).appended := by
        rcases hholds with hin | hhand
        · exact hin
        · cases (hidle b).symm.trans hhand
      show l ∈ (Function.update office.boxes m.box messages b).appended
      by_cases hb : b = m.box
      · subst hb
        rw [Function.update_self, happended]
        exact hin
      · rw [Function.update_of_ne hb]
        exact hin
    · refine ⟨m.box, ⟨office.allocated, m.mail sender⟩, rfl, .inr ?_⟩
      show (Function.update office.boxes m.box messages m.box).task postalWorker = _
      rw [Function.update_self]
      exact htask
  · apply (Function.forall_update_iff office.boxes fun b messages =>
      messages.task postalWorker ≠ .idle → Worker.putting m.box = .putting b).mpr
    exact ⟨fun _ => rfl, fun b _ hb => absurd (hidle b) hb⟩

/-- A statement of the worker. -/
theorem OfficeInv.work (h : OfficeInv sent office) (hvalid : sent.Valid numBoxes)
    (hs : office.work numBoxes = some office') : OfficeInv sent office' := by
  unfold PostOfficeInput.work at hs
  cases hworker : office.worker with
  | waiting =>
    rw [hworker] at hs
    obtain ⟨hawake, hs⟩ := Option.ite_none_left_eq_some.mp hs
    cases hs
    exact h.turn hworker hawake
  | receiving =>
    rw [hworker] at hs
    obtain ⟨office'', hdeliver, hinv⟩ := h.deliver hvalid hworker
    cases hdeliver.symm.trans hs
    exact hinv
  | putting box =>
    rw [hworker] at hs
    dsimp only at hs
    by_cases hidle : (office.boxes box).task postalWorker = .idle
    · rw [hidle] at hs
      cases hs
      exact h.finish hworker hidle
    · have hs : office.inBox box (.run postalWorker) = some office' := by
        split at hs
        · next hi => exact absurd hi hidle
        · exact hs
      obtain ⟨messages, hm, rfl⟩ := Option.map_eq_some_iff.mp hs
      obtain ⟨hinv, hkeeps, -⟩ := (h.boxes box).run hm
      exact h.inBox hinv hkeeps fun _ => hworker

/-- A statement of a receiver. -/
theorem OfficeInv.run {t : ThreadId} (h : OfficeInv sent office) (ht : t ≠ postalWorker)
    (hs : office.inBox box (.run t) = some office') : OfficeInv sent office' := by
  obtain ⟨messages, hm, rfl⟩ := Option.map_eq_some_iff.mp hs
  obtain ⟨hinv, hkeeps, htask⟩ := (h.boxes box).run hm
  apply h.inBox hinv hkeeps
  rw [htask ht]
  exact h.putting box

/-- The call of `Receive`. -/
theorem OfficeInv.receive {t : ThreadId} (h : OfficeInv sent office) (ht : t ≠ postalWorker)
    (hs : office.inBox box (.removeFront t) = some office') : OfficeInv sent office' := by
  obtain ⟨messages, hm, rfl⟩ := Option.map_eq_some_iff.mp hs
  obtain ⟨hinv, happended, htask⟩ := (h.boxes box).removeFront ht hm
  apply h.inBox hinv
  · exact ⟨fun l hl => happended ▸ hl, fun l hl => .inl (htask.trans hl)⟩
  · rw [htask]
    exact h.putting box

end

end Post
end Nachos

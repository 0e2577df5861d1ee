import Nachos.Network.PostOffice

/-! Every host of the network sends and receives mail, in any interleaving. The numbers of the
letters in a mailbox increase, and so do those of the `Send`s of one sender among the packets
that a host has read. -/
namespace Nachos

/-- The `Send` that a letter comes from: on which host, and which one there. -/
def PostOfficeInput.origin (office : PostOfficeInput) (l : Letter) : Option (NetworkAddress × ℕ) :=
  office.taken[l.number]?

namespace Post

/-- What holds between any two steps. -/
structure Inv (numBoxes : NetworkAddress → ℕ) (s : State) : Prop where
  out : ∀ g, SynchDevice.Inv PostOfficeOutput.device
    (fun network => network.sendBusy = false ∧ network.hostName = g) (Addressed numBoxes)
    ⟨g, false, []⟩ (s.out g)
  office : ∀ h, OfficeInv (Sent s h) (s.office h)

/-- What is guaranteed of the mail of every host. -/
structure Delivered (numBoxes : NetworkAddress → ℕ) (s : State) : Prop where
  /-- What `Receive` takes out of a mailbox is the mail of a `Send` to this mailbox. -/
  genuine : ∀ h box, ∀ l ∈ ((s.office h).boxes box).taken,
    ∃ sender k m, (s.office h).origin l = some (sender, k) ∧ Sent s h sender k m ∧ m.box = box ∧
      l.mail = m.mail sender
  /-- A call of `Receive` returns what it has taken out. -/
  returned : ∀ h box t l, ((s.office h).boxes box).task t = .removeRelease l →
    l ∈ ((s.office h).boxes box).taken
  /-- No `Send` is received twice. -/
  once : ∀ h h', ∀ (box box' i i' : ℕ) (l l' : Letter),
    ((s.office h).boxes box).taken[i]? = some l →
    ((s.office h').boxes box').taken[i']? = some l' →
    (s.office h).origin l = (s.office h').origin l' → h = h' ∧ box = box' ∧ i = i'
  /-- What one sender sends to one mailbox is received in the order in which it is sent. -/
  order : ∀ h, ∀ (box i i' : ℕ) (l l' : Letter), ∀ sender k k', i < i' →
    ((s.office h).boxes box).taken[i]? = some l → ((s.office h).boxes box).taken[i']? = some l' →
    (s.office h).origin l = some (sender, k) → (s.office h).origin l' = some (sender, k') → k < k'
  /-- A packet that has been read is in the inbox as it was sent, or has gone into its mailbox. -/
  intact : ∀ h, ∀ n : ℕ, ∀ sender k, (s.office h).taken[n]? = some (sender, k) →
    ∃ m, Sent s h sender k m ∧
      (n = (s.office h).allocated ∧ (s.office h).network.inHdr = m.filled sender ∧
          (s.office h).network.inbox.take (m.filled sender).length.toNat =
            m.mailHdr.bytes ++ m.data ∨
        ∃ l, l.number = n ∧ l.mail = m.mail sender ∧ Holds ((s.office h).boxes m.box) l)
  /-- No assertion fails, neither of the devices and the lists nor at the next packet. -/
  running : (∀ h, (s.out h).failed = false ∧ (s.out h).monitor.failure = none) ∧
    (∀ h box, ((s.office h).boxes box).failed = false ∧
      ((s.office h).boxes box).monitor.failure = none) ∧
    (∀ h sender k packet, s.packet h sender k = some packet →
      (s.office h).Later sender k → ((s.office h).arrive h sender k packet).isSome) ∧
    ∀ h, (s.office h).worker = .receiving → ((s.office h).deliver (numBoxes h)).isSome

section

variable {numBoxes : NetworkAddress → ℕ} {s s' : State} {h sender : NetworkAddress} {k : ℕ}

theorem Inv.valid (hi : Inv numBoxes s) (h : NetworkAddress) :
    SentTo.Valid (Sent s h) (numBoxes h) := by
  have haddressed : ∀ {sender k m}, Sent s h sender k m →
      Addressed numBoxes m ∧ m.pktHdr.toHost = h := by
    intro sender k m hm
    obtain ⟨t, u, hmade, -, hto⟩ := hm
    exact ⟨(hi.out sender).allValid _ (List.mem_of_getElem? hmade), hto⟩
  refine ⟨?_, fun hm => (haddressed hm).1.1, ?_⟩
  · intro sender k m m' hm hm'
    obtain ⟨t, u, hmade, -⟩ := hm
    obtain ⟨t', u', hmade', -⟩ := hm'
    cases hmade.symm.trans hmade'
    rfl
  · intro sender k m hm
    obtain ⟨⟨-, hbox, hlt⟩, hto⟩ := haddressed hm
    rw [hto] at hlt
    exact ⟨hbox, hlt⟩

/-- A message is sent to one host. -/
theorem Sent.host {h' : NetworkAddress} {m m' : Message} (hm : Sent s h sender k m)
    (hm' : Sent s h' sender k m') : h = h' ∧ m = m' := by
  obtain ⟨t, u, hmade, -, hto⟩ := hm
  obtain ⟨t', u', hmade', -, hto'⟩ := hm'
  cases hmade.symm.trans hmade'
  exact ⟨hto.symm.trans hto', rfl⟩

/-- The packets in the sockets are those that have been sent. -/
theorem Inv.packet (hi : Inv numBoxes s) {packet : List UInt8}
    (hp : s.packet h sender k = some packet) :
    ∃ m, Sent s h sender k m ∧ packet = m.packet sender ∧ m.pktHdr.toHost = h := by
  have hsent := (serves_sent (hi.out sender).serves).2
  rw [SynchDevice.settled_of_callBack (f := NetworkOutput.sent) fun _ => rfl, List.nil_append]
    at hsent
  unfold State.packet at hp
  split at hp
  · next dest bytes hfound =>
    obtain ⟨rfl, hbytes⟩ := Option.ite_none_right_eq_some.mp hp
    cases hbytes
    rw [hsent, List.getElem?_map, List.getElem?_map] at hfound
    obtain ⟨call, hcall, hm⟩ := Option.map_eq_some_iff.mp hfound
    obtain ⟨⟨t, m, u⟩, hmade, rfl⟩ := Option.map_eq_some_iff.mp hcall
    obtain ⟨hlost, hm⟩ := Option.ite_none_left_eq_some.mp hm
    cases hm
    exact ⟨m, ⟨t, u, hmade, by simpa using hlost, rfl⟩, rfl, rfl⟩
  · cases hp

/-- The office on one host goes on. -/
theorem Inv.setOffice {office : PostOfficeInput} (hi : Inv numBoxes s)
    (ho : OfficeInv (Sent s h) office) : Inv numBoxes (s.setOffice h office) := by
  refine ⟨hi.out, ?_⟩
  apply (Function.forall_update_iff s.office fun h office => OfficeInv (Sent s h) office).mpr
  exact ⟨ho, fun h' _ => hi.office h'⟩

theorem Inv.step {l : Label} (hi : Inv numBoxes s) (ha : Sends numBoxes s l)
    (hs : Post.step numBoxes s l = some s') : Inv numBoxes s' := by
  cases l with
  | send g l =>
    obtain ⟨out, hout, rfl⟩ := Option.map_eq_some_iff.mp hs
    have hreliable := send_reliable (g := g) (Addressed numBoxes) fun m hm => ⟨hm.1, hm.2.1⟩
    have hmade := SynchDevice.step_made hout
    constructor
    · apply (Function.forall_update_iff s.out fun g out => SynchDevice.Inv PostOfficeOutput.device
        (fun network => network.sendBusy = false ∧ network.hostName = g) (Addressed numBoxes)
        ⟨g, false, []⟩ out).mpr
      exact ⟨(hi.out g).step hreliable ha hout, fun g' _ => hi.out g'⟩
    · intro h
      apply (hi.office h).mono
      rintro sender k m ⟨t, u, hm, hrest⟩
      refine ⟨t, u, ?_, hrest⟩
      show (Function.update s.out g out sender).made[k]? = _
      by_cases hg : sender = g
      · subst hg
        rw [Function.update_self]
        obtain ⟨later, hlater⟩ := hmade
        rw [← hlater, List.getElem?_append_left (List.getElem?_eq_some_iff.mp hm).1]
        exact hm
      · rw [Function.update_of_ne hg]
        exact hm
  | poll h packet =>
    cases packet with
    | none =>
      cases hs
      exact hi
    | some packet =>
      obtain ⟨sender, k⟩ := packet
      obtain ⟨hlater, hs⟩ := Option.ite_none_right_eq_some.mp hs
      obtain ⟨packet, hpacket, hs⟩ := Option.bind_eq_some_iff.mp hs
      obtain ⟨office, harrive, hs⟩ := Option.bind_eq_some_iff.mp hs
      cases hs
      obtain ⟨m, hm, rfl, hto⟩ := hi.packet hpacket
      obtain ⟨office', harrive', ho⟩ := (hi.office h).arrive (hi.valid h) hm hto hlater
      cases harrive'.symm.trans harrive
      exact hi.setOffice ho
  | work h =>
    obtain ⟨office, hwork, rfl⟩ := Option.map_eq_some_iff.mp hs
    exact hi.setOffice ((hi.office h).work (hi.valid h) hwork)
  | receive h t box =>
    obtain ⟨⟨ht, -⟩, hs⟩ := Option.ite_none_right_eq_some.mp hs
    obtain ⟨office, hreceive, rfl⟩ := Option.map_eq_some_iff.mp hs
    exact hi.setOffice ((hi.office h).receive ht hreceive)
  | run h t box =>
    obtain ⟨ht, hs⟩ := Option.ite_none_right_eq_some.mp hs
    obtain ⟨office, hrun, rfl⟩ := Option.map_eq_some_iff.mp hs
    exact hi.setOffice ((hi.office h).run ht hrun)

theorem inv_start (inbox buffer : NetworkAddress → List UInt8) :
    Inv numBoxes (start inbox buffer) where
  out := fun _ => SynchDevice.inv_start ⟨rfl, rfl⟩
  office := fun _ =>
    { boxes := fun _ =>
        { list := SynchList.inv_start
          running := rfl
          letters := nofun
          sorted := List.Pairwise.nil
          hand := nofun
          producer := rfl
          consumers := fun _ _ => rfl
          returned := nofun }
      genuine := nofun
      order := List.Pairwise.nil
      count := rfl
      permits := rfl
      queue := nofun
      buffered := fun hne => absurd rfl hne
      covered := nofun
      putting := fun _ hb => absurd rfl hb }

/-- What has been taken out of a mailbox, in order. -/
theorem OfficeInv.number_lt {office : PostOfficeInput} {sent : SentTo} (ho : OfficeInv sent office)
    {box i i' : ℕ} {l l' : Letter} (hi : (office.boxes box).taken[i]? = some l)
    (hi' : (office.boxes box).taken[i']? = some l') (hlt : i < i') : l.number < l'.number := by
  have happended {i : ℕ} {l : Letter} (hi : (office.boxes box).taken[i]? = some l) :
      ((office.boxes box).appended.map Letter.number)[i]? = some l.number := by
    rw [List.getElem?_map, (ho.boxes box).list.fifo,
      List.getElem?_append_left (List.getElem?_eq_some_iff.mp hi).1, hi]
    rfl
  obtain ⟨hbound, hl⟩ := List.getElem?_eq_some_iff.mp (happended hi)
  obtain ⟨hbound', hl'⟩ := List.getElem?_eq_some_iff.mp (happended hi')
  rw [← hl, ← hl']
  exact List.pairwise_iff_getElem.mp (ho.boxes box).sorted i i' hbound hbound' hlt

/-- What has been read from the socket, in order. -/
theorem OfficeInv.later {office : PostOfficeInput} {sent : SentTo} (ho : OfficeInv sent office)
    {n n' : ℕ} {k' : ℕ} (hn : office.taken[n]? = some (sender, k))
    (hn' : office.taken[n']? = some (sender, k')) (hlt : n < n') : k < k' := by
  obtain ⟨hbound, hp⟩ := List.getElem?_eq_some_iff.mp hn
  obtain ⟨hbound', hp'⟩ := List.getElem?_eq_some_iff.mp hn'
  have hpair := List.pairwise_iff_getElem.mp ho.order n n' hbound hbound' hlt
  rw [hp, hp'] at hpair
  exact hpair rfl

theorem Inv.genuine (hi : Inv numBoxes s) {box : ℕ} {l : Letter}
    (hl : l ∈ ((s.office h).boxes box).taken) :
    Genuine (Sent s h) (s.office h).taken box l := by
  apply (((hi.office h).boxes box).letters l _).1
  rw [((hi.office h).boxes box).list.fifo]
  exact List.mem_append_left _ hl

/-- A packet gives one letter. -/
theorem Inv.once (hi : Inv numBoxes s) {h' : NetworkAddress} {box box' i i' : ℕ} {l l' : Letter}
    (hl : ((s.office h).boxes box).taken[i]? = some l)
    (hl' : ((s.office h').boxes box').taken[i']? = some l')
    (horigin : (s.office h).origin l = (s.office h').origin l') :
    h = h' ∧ box = box' ∧ i = i' := by
  obtain ⟨sender, k, m, hpacket, hm, hbox, -⟩ := hi.genuine (List.mem_of_getElem? hl)
  obtain ⟨sender', k', m', hpacket', hm', hbox', -⟩ := hi.genuine (List.mem_of_getElem? hl')
  cases hpacket.symm.trans (horigin.trans hpacket')
  obtain ⟨rfl, rfl⟩ := hm.host hm'
  cases hbox.symm.trans hbox'
  refine ⟨rfl, rfl, ?_⟩
  have ho := hi.office h
  -- two positions would give two numbers, and these two numbers of one `Send`
  rcases lt_trichotomy i i' with hlt | heq | hlt
  · exact absurd (ho.later hpacket hpacket' (ho.number_lt hl hl' hlt)) (lt_irrefl k)
  · exact heq
  · exact absurd (ho.later hpacket' hpacket (ho.number_lt hl' hl hlt)) (lt_irrefl k)

/-- Where a packet is that has been read from the socket. -/
theorem Inv.intact (hi : Inv numBoxes s) {n : ℕ}
    (hn : (s.office h).taken[n]? = some (sender, k)) :
    ∃ m, Sent s h sender k m ∧
      (n = (s.office h).allocated ∧ (s.office h).network.inHdr = m.filled sender ∧
          (s.office h).network.inbox.take (m.filled sender).length.toNat =
            m.mailHdr.bytes ++ m.data ∨
        ∃ l, l.number = n ∧ l.mail = m.mail sender ∧ Holds ((s.office h).boxes m.box) l) := by
  have ho := hi.office h
  have hlt := (List.getElem?_eq_some_iff.mp hn).1
  rw [ho.count] at hlt
  by_cases hallocated : n < (s.office h).allocated
  · obtain ⟨b, l, rfl, hholds⟩ := ho.covered n hallocated
    have hgenuine : Genuine (Sent s h) (s.office h).taken b l := by
      rcases hholds with hin | hhand
      · exact ((ho.boxes b).letters l hin).1
      · exact ((ho.boxes b).hand l hhand).1
    obtain ⟨sender', k', m, hpacket, hm, rfl, hmail⟩ := hgenuine
    cases hpacket.symm.trans hn
    exact ⟨m, hm, .inr ⟨l, rfl, hmail, hholds⟩⟩
  · have hpending : (s.office h).pending ≤ 1 := pending_le_one
    obtain rfl : n = (s.office h).allocated := by omega
    obtain ⟨sender', k', m, hpacket, hm, hhdr, hinbox⟩ := ho.buffered (by omega)
    cases hpacket.symm.trans hn
    exact ⟨m, hm, .inl ⟨rfl, hhdr, hinbox⟩⟩

theorem Inv.delivered (hi : Inv numBoxes s) : Delivered numBoxes s where
  genuine := fun h box l hl => hi.genuine hl
  returned := by
    intro h box t l ht
    apply ((hi.office h).boxes box).returned t l
    rw [ht]
    rfl
  once := fun h h' box box' i i' l l' => hi.once
  order := by
    intro h box i i' l l' sender k k' hlt hl hl' hk hk'
    exact (hi.office h).later hk hk' ((hi.office h).number_lt hl hl' hlt)
  intact := fun h n sender k => hi.intact
  running := by
    refine ⟨?_, ?_, ?_, ?_⟩
    · exact fun h => ⟨(hi.out h).running, (hi.out h).sound.2.1⟩
    · exact fun h box =>
        ⟨((hi.office h).boxes box).running, ((hi.office h).boxes box).list.sound.2.1⟩
    · intro h sender k packet hpacket hlater
      obtain ⟨m, hm, rfl, hto⟩ := hi.packet hpacket
      obtain ⟨office, harrive, -⟩ := (hi.office h).arrive (hi.valid h) hm hto hlater
      rw [harrive]
      rfl
    · intro h hworker
      obtain ⟨office, hdeliver, -⟩ := (hi.office h).deliver (hi.valid h) hworker
      rw [hdeliver]
      rfl

end

end Post

/-- Mail is delivered in order, once and uncorrupted, on every network whose hosts have any
numbers of mailboxes. -/
theorem mail_delivered (numBoxes : NetworkAddress → ℕ) (inbox buffer : NetworkAddress → List UInt8)
    {s : Post.State} (hr : Runs.Reach (Post.step numBoxes) (Post.Sends numBoxes)
      (Post.start inbox buffer) s) : Post.Delivered numBoxes s := by
  have hi : Post.Inv numBoxes s :=
    hr.invariant (Post.inv_start inbox buffer) fun _ _ _ hi ha hs => hi.step ha hs
  exact hi.delivered

instance (numBoxes : NetworkAddress → ℕ) (m : Message) : Decidable (Post.Addressed numBoxes m) :=
  inferInstanceAs (Decidable (_ ∧ _ ∧ _))

/-- A message for mailbox 0 on host 2. -/
def greeting : Message where
  pktHdr := ⟨2, 0, 0⟩
  mailHdr := ⟨0, 0, 2⟩
  data := [72, 105]
  length_data := rfl
  lost := false
  heap := fun _ => 7

def sendGreeting : List (SynchDevice.Label Message) := .call 1 greeting :: List.replicate 3 (.run 1)

/-- Host 1 sends it; on host 2 it arrives, the worker puts it into its mailbox, and a thread
receives it. -/
def mailGreeting : List Post.Label :=
  sendGreeting.map (.send 1) ++ .poll 2 (some (1, 0)) :: List.replicate 13 (.work 2) ++
    .receive 2 1 0 :: List.replicate 8 (.run 2 1 0)

theorem mail_delivered_greeting :
    ∃ s, Runs.exec (Post.step fun _ => 1) (Post.start (fun _ => []) fun _ => []) mailGreeting =
        some s ∧ (((s.office 2).boxes 0).taken.map fun l => l.mail.data) = [[72, 105]] ∧
      Post.Delivered (fun _ => 1) s := by
  have hview : (Runs.exec (Post.step fun _ => 1) (Post.start (fun _ => []) fun _ => [])
      mailGreeting).map (fun s => ((s.office 2).boxes 0).taken.map fun l => l.mail.data) =
      some [[72, 105]] := by
    decide +kernel
  obtain ⟨s, hs, hdata⟩ := Option.map_eq_some_iff.mp hview
  have haddressed : ∀ l ∈ sendGreeting, ∀ m ∈ l.asked, Post.Addressed (fun _ => 1) m := by decide
  refine ⟨s, hs, hdata, mail_delivered _ _ _ (Runs.reach_of_exec_allowed hs ?_)⟩
  intro u l hl
  cases l with
  | send h l =>
    obtain ⟨l', hl', heq⟩ : ∃ l' ∈ sendGreeting, Post.Label.send 1 l' = .send h l := by
      simpa [mailGreeting] using hl
    cases heq
    exact haddressed l hl'
  | _ => trivial

end Nachos

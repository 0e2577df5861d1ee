import Nachos.Userprog.Ksyscall
import Nachos.Userprog.NumberText

/-! `readUntilBlank` and `SysReadNum` (`userprog/ksyscall.h`): a number from the console. -/
namespace Nachos

open EStateM ReadNum

namespace Sys

variable {W : Type} (host : Host W)

/-- The loop of `readUntilBlank` at index `n`, with the character `c`. The index leaves the buffer
before `room` runs out. -/
def readToken : (room n : ℕ) → (c : UInt8) → List UInt8 → Sys W (List UInt8)
  | 0, _, _, _ => throw .badIndex
  | room + 1, n, c, numberBuffer =>
    if isBlank c ∨ charInt c = EOF then pure numberBuffer
    else do
      let numberBuffer ← poke numberBuffer n c
      if n + 1 > MAX_NUM_LENGTH then pure numberBuffer
      else do
        let c ← ask host.getChar
        readToken room (n + 1) c numberBuffer

/-- `readUntilBlank`, with what it leaves in `_numberBuffer`. -/
def readUntilBlank : Sys W (List UInt8) := do
  let numberBuffer := List.replicate (MAX_NUM_LENGTH + 2) 0
  let c ← ask host.getChar
  if charInt c = EOF then pure numberBuffer
  else if isBlank c then pure numberBuffer
  else readToken host (numberBuffer.length + 1) 0 c numberBuffer

def sysReadNum : Sys W Word := do
  let numberBuffer ← readUntilBlank host
  match parseNum numberBuffer with
  | none => throw .badIndex
  | some num => pure num

/-- The next characters from the console. -/
def Typed (host : Host W) : W → List UInt8 → Prop
  | _, [] => True
  | w, c :: cs => (host.getChar w).1 = c ∧ Typed host (host.getChar w).2 cs

end Sys

namespace ReadNum

/-- A character that belongs to a token. -/
def TokenChar (c : UInt8) : Prop := isBlank c = false ∧ charInt c ≠ EOF ∧ c ≠ 0

/-- The value of an `int` in its canonical form, and 0 for any other text. -/
structure Parsed (token : List UInt8) (num : Word) : Prop where
  value : ∀ x : ℤ, -2 ^ 31 ≤ x → x < 2 ^ 31 → token = Decimal.ofInt x → num.toInt = x
  other : (∀ x : ℤ, -2 ^ 31 ≤ x → x < 2 ^ 31 → token ≠ Decimal.ofInt x) → num = 0

variable {num : Word}

theorem length_ofInt_le {x : ℤ} (hlow : -2 ^ 31 ≤ x) (hhigh : x < 2 ^ 31) :
    (Decimal.ofInt x).length ≤ MAX_NUM_LENGTH := by
  have hlen : (Decimal.ofNat x.natAbs).length ≤ 10 :=
    Decimal.length_ofNat_le (by decide) (by omega)
  have hbody := length_body (Decimal.ofInt x)
  rw [body_ofInt] at hbody
  show _ ≤ 11
  omega

theorem parsed_of_take {token : List UInt8} (h : token.take 12 = Decimal.ofInt num.toInt ∨
    num = 0 ∧ ∀ x : ℤ, -2 ^ 31 ≤ x → x < 2 ^ 31 → token.take 12 ≠ Decimal.ofInt x) :
    Parsed token num := by
  have hshort (x : ℤ) (hlow : -2 ^ 31 ≤ x) (hhigh : x < 2 ^ 31) :
      token.take 12 = Decimal.ofInt x ↔ token = Decimal.ofInt x := by
    have hlen : (Decimal.ofInt x).length ≤ 11 := length_ofInt_le hlow hhigh
    constructor
    · intro heq
      rw [← heq, List.length_take] at hlen
      rw [← heq, List.take_of_length_le (by omega)]
    · intro heq
      rw [heq, List.take_of_length_le (by omega)]
  have hrange : -2 ^ 31 ≤ num.toInt ∧ num.toInt < 2 ^ 31 := ⟨BitVec.le_toInt num, BitVec.toInt_lt⟩
  rcases h with heq | ⟨rfl, hother⟩
  · refine ⟨fun x hlow hhigh hx => ?_, fun hnone => ?_⟩
    · exact ofInt_inj (heq.symm.trans ((hshort x hlow hhigh).mpr hx))
    · exact absurd ((hshort _ hrange.1 hrange.2).mp heq) (hnone _ hrange.1 hrange.2)
  · refine ⟨fun x hlow hhigh hx => ?_, fun _ => rfl⟩
    exact absurd ((hshort x hlow hhigh).mpr hx) (hother x hlow hhigh)

end ReadNum

namespace Sys

variable {host : Host W} {k : Kernel W} {buffer token rest : List UInt8} {n room : ℕ}
  {c stop : UInt8}

theorem Typed.next {w : W} (h : Typed host w (token ++ [stop])) :
    (token ++ [stop]).head? = some (host.getChar w).1 ∧
      Typed host (host.getChar w).2 (token ++ [stop]).tail := by
  cases token with
  | nil => exact ⟨congrArg some h.1.symm, h.2⟩
  | cons d rest => exact ⟨congrArg some h.1.symm, h.2⟩

/-- What `readToken` has passed stays, and so does the end of the buffer. -/
theorem ends_readToken (hroom : 13 ≤ room + n) (hn : n ≤ 11) (hlen : buffer.length = 13) :
    Ends (readToken host room n c buffer) k (fun after _ => after.length = 13 ∧
      after.take n = buffer.take n ∧ after.drop 12 = buffer.drop 12) fun _ _ => False := by
  induction room generalizing n c buffer k with
  | zero => omega
  | succ room ih =>
    have hin : 0 ≤ (n : ℤ) ∧ (n : ℤ) < buffer.length := by omega
    have htake : (buffer.set n c).take n = buffer.take n := List.take_set_of_le le_rfl
    have hdrop : (buffer.set n c).drop 12 = buffer.drop 12 := List.drop_set_of_lt (by omega)
    simp only [readToken, ends_ite, ends_pure, ends_bind, ends_ask, ends_poke, hin, and_self,
      if_true, Int.toNat_natCast]
    split
    · exact ⟨hlen, trivial⟩
    split
    · exact ⟨by rw [List.length_set, hlen], htake, hdrop⟩
    · next hmore =>
      have hmore : n + 1 ≤ 11 := Nat.le_of_not_lt hmore
      refine (ih (by omega) hmore (by rw [List.length_set, hlen])).mono ?_ fun _ _ h => h
      rintro after k' ⟨hlength, hstart, hend⟩
      refine ⟨hlength, ?_, hend.trans hdrop⟩
      have hbefore := congrArg (List.take n) hstart
      rwa [List.take_take, List.take_take, Nat.min_eq_left (Nat.le_succ n), htake] at hbefore

theorem holds_zeros (hzero : 0 ∉ token) (rest : List UInt8) : Holds (token ++ 0 :: rest) token := by
  refine ⟨?_, by simp⟩
  have hall : ∀ d ∈ token, (decide (d ≠ 0)) = true := by
    intro d hd
    exact decide_eq_true fun h0 => hzero (h0 ▸ hd)
  rw [text, List.takeWhile_append_of_pos hall]
  simp

theorem zeros_succ (h : n < 13) :
    List.replicate (13 - n) (0 : UInt8) = 0 :: List.replicate (12 - n) 0 := by
  rw [show 13 - n = 12 - n + 1 by omega, List.replicate_succ]

/-- One more character of the token. -/
theorem ends_poke_token {Q : List UInt8 → Kernel W → Prop} {E : Stop → Kernel W → Prop}
    (h : token.length < 13) :
    Ends (poke (token ++ List.replicate (13 - token.length) 0) token.length c) k Q E ↔
      Q (token ++ c :: List.replicate (12 - token.length) 0) k := by
  rw [ends_poke, if_pos, Int.toNat_natCast, List.set_append_right _ _ le_rfl, Nat.sub_self,
    zeros_succ h]
  · rfl
  · rw [List.length_append, List.length_replicate]
    omega

theorem readToken_of_stop (hstop : ¬ TokenChar stop) (hne : stop ≠ 0) (token : List UInt8) :
    readToken host (room + 1) n stop token = pure token := by
  rw [readToken, if_pos]
  by_contra hboth
  rw [not_or] at hboth
  exact hstop ⟨by simpa using hboth.1, hboth.2, hne⟩

/-- The buffer while a token is read: `token` is in it, and `rest` follows. -/
theorem ends_readToken_token (hroom : 13 ≤ room + token.length) (hlen : token.length ≤ 11)
    (hzero : 0 ∉ token) (hrest : ∀ d ∈ rest, TokenChar d) (hstop : ¬ TokenChar stop)
    (hc : (rest ++ [stop]).head? = some c) (htyped : Typed host k.host (rest ++ [stop]).tail) :
    Ends (readToken host room token.length c
        (token ++ List.replicate (13 - token.length) 0)) k
      (fun after _ => Holds after ((token ++ rest).take 12)) fun _ _ => False := by
  obtain ⟨room, rfl⟩ : ∃ m, room = m + 1 := ⟨room - 1, by omega⟩
  induction rest generalizing token room c k with
  | nil =>
    obtain rfl : stop = c := Option.some.inj hc
    rw [List.append_nil, List.take_of_length_le (by omega)]
    by_cases hnul : stop = 0
    · subst hnul
      rw [readToken, if_neg (by decide)]
      simp only [ends_bind, ends_poke_token (show token.length < 13 by omega), ends_ite,
        ends_pure, ends_ask]
      split
      · exact holds_zeros hzero _
      · next hmore =>
        have hmore : token.length + 1 ≤ 11 := Nat.le_of_not_lt hmore
        have hlength :
            (token ++ 0 :: List.replicate (12 - token.length) (0 : UInt8)).length = 13 := by
          rw [← zeros_succ (by omega), List.length_append, List.length_replicate]
          omega
        refine (ends_readToken (by omega) hmore hlength).mono ?_ fun _ _ h => h
        rintro after k' ⟨-, hstart, -⟩
        rw [← List.take_append_drop (token.length + 1) after, hstart, List.take_append,
          List.take_of_length_le (Nat.le_succ _), Nat.add_sub_cancel_left, List.append_assoc]
        exact holds_zeros hzero _
    · rw [readToken_of_stop hstop hnul, zeros_succ (by omega)]
      exact holds_zeros hzero _
  | cons d rest ih =>
    obtain rfl : d = c := Option.some.inj hc
    obtain ⟨hblank, heof, hnul⟩ := hrest d List.mem_cons_self
    rw [readToken, if_neg (by simp [hblank, heof])]
    simp only [ends_bind, ends_poke_token (show token.length < 13 by omega), ends_ite,
      ends_pure, ends_ask]
    have hzero : 0 ∉ token ++ [d] := by
      simpa [hzero] using hnul.symm
    have hlength : (token ++ [d]).length = token.length + 1 := List.length_append
    split
    · next hfull =>
      have hfull : token.length = 11 := le_antisymm hlen (Nat.le_of_lt_succ hfull)
      have htake : (token ++ d :: rest).take 12 = token ++ [d] := by
        rw [List.take_append, List.take_of_length_le (by omega), hfull]
        rfl
      rw [htake, hfull]
      simpa using holds_zeros hzero []
    · next hmore =>
      have hmore : token.length + 1 ≤ 11 := Nat.le_of_not_lt hmore
      have hbuffer : token ++ d :: List.replicate (12 - token.length) 0 =
          (token ++ [d]) ++ List.replicate (13 - (token ++ [d]).length) 0 := by
        rw [hlength, List.append_assoc, show 13 - (token.length + 1) = 12 - token.length by omega]
        rfl
      obtain ⟨hhead, hlater⟩ := htyped.next
      rw [hbuffer, ← hlength, show token ++ d :: rest = (token ++ [d]) ++ rest by simp]
      obtain ⟨room, rfl⟩ : ∃ m, room = m + 1 := ⟨room - 1, by omega⟩
      exact ih (by omega) hzero (fun e he => hrest e (List.mem_cons_of_mem _ he)) hhead hlater room
        (by omega)

/-- The loop makes the checks in front of it once more. -/
theorem readUntilBlank_eq : readUntilBlank host =
    ask host.getChar >>= fun c => readToken host 14 0 c (List.replicate 13 0) := by
  unfold readUntilBlank
  refine bind_congr fun c => ?_
  by_cases heof : charInt c = EOF
  · rw [if_pos heof, readToken, if_pos (.inr heof)]
  by_cases hblank : isBlank c
  · rw [if_neg heof, if_pos hblank, readToken, if_pos (.inl hblank)]
  · rw [if_neg heof, if_neg hblank]
    rfl

theorem ends_readUntilBlank {k : Kernel W} (htoken : ∀ d ∈ token, TokenChar d)
    (hstop : ¬ TokenChar stop) (htyped : Typed host k.host (token ++ [stop])) :
    Ends (readUntilBlank host) k (fun after _ => Holds after (token.take 12)) fun _ _ => False := by
  rw [readUntilBlank_eq, ends_bind, ends_ask]
  obtain ⟨hhead, hlater⟩ := htyped.next
  exact ends_readToken_token (by decide) (by decide) List.not_mem_nil htoken hstop hhead hlater

/-- The value of a token in its canonical form is read from the console, and 0 otherwise. -/
theorem sysReadNum_exact (k : Kernel W) (token : List UInt8) (stop : UInt8)
    (htoken : ∀ d ∈ token, TokenChar d) (hstop : ¬ TokenChar stop)
    (htyped : Typed host k.host (token ++ [stop])) :
    ∃ num k', sysReadNum host k = .ok num k' ∧ Parsed token num := by
  have hread := ends_readUntilBlank htoken hstop htyped
  unfold Ends at hread
  split at hread
  · next after k' hafter =>
    obtain ⟨num, hnum, hspec⟩ := parseNum_spec hread
    refine ⟨num, k', ?_, parsed_of_take hspec⟩
    rw [sysReadNum, bind_eq_ok_iff]
    refine ⟨after, k', hafter, ?_⟩
    rw [hnum]
    rfl
  · exact hread.elim

/-- A host where the characters that come from the console are all there is. -/
def typing : Host (List UInt8) where
  openFd w _ _ := (-1, w)
  close w _ := (-1, w)
  lseek w _ _ _ := (-1, w)
  read w _ _ := (⟨none, by simp⟩, w)
  write w _ _ := (-1, w)
  unlink w _ := (-1, w)
  socket w := (-1, w)
  connect w _ _ _ := (-1, w)
  send w _ _ := (-1, w)
  recv w _ _ := (⟨none, by simp⟩, w)
  errno _ := 0
  getChar w := (w.headD eofChar, w.tail)
  putChar w _ := w
  fresh _ _ := 0

/-- A kernel on that host. -/
def typed (console : List UInt8) : Kernel (List UInt8) where
  machine :=
    { registers := fun _ => 0
      mainMemory := fun _ => 0
      pageTable := none
      pageTableSize := 0
      tables := fun _ => AddrSpace.tableOf 0 [0] }
  fileSystem := FileSystem.blank
  host := console

theorem sysReadNum_minText : ∃ num k',
    sysReadNum typing (typed (minText ++ [10])) = .ok num k' ∧ Parsed minText num := by
  refine sysReadNum_exact (typed (minText ++ [10])) minText 10 ?_ ?_ ?_
  · unfold TokenChar
    decide +kernel
  · unfold TokenChar
    decide
  · exact ⟨rfl, rfl, rfl, rfl, rfl, rfl, rfl, rfl, rfl, rfl, rfl, rfl, trivial⟩

end Sys

end Nachos

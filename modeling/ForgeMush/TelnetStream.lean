import ForgeMush.Codes
import Mathlib.Tactic.SplitIfs

/-!
What a stream of bytes says as telnet.

`reading` is the reference: it takes a stream apart into plain bytes and the sequences that
begin with IAC, up to an incomplete sequence at the end, or to the first subnegotiation,
which is not taken apart here.
-/

namespace ForgeMush

namespace TelnetStream

/-- A plain byte, or a complete sequence. -/
inductive Token
  | data (b : UInt8) (plain : b ≠ TelnetCode.IAC)
  | escapedIAC
  | negotiation (command option : TelnetCode)
  | command (code : TelnetCode)

def Token.bytes : Token → Bytes
  | .data b _ => [b]
  | .escapedIAC => [TelnetCode.IAC, TelnetCode.IAC]
  | .negotiation cmd option => [TelnetCode.IAC, cmd, option]
  | .command code => [TelnetCode.IAC, code]

def Token.message : Token → TelnetMessage
  | .data b _ => .appData [b]
  | .escapedIAC => .appData [TelnetCode.IAC]
  | .negotiation cmd option => .negotiation cmd option
  | .command code => .command code

def Token.isData : Token → Bool
  | .data _ _ => true
  | _ => false

/-- The telnet reading of a stream: its tokens, and the bytes left over. -/
def reading : Bytes → List Token × Bytes
  | [] => ([], [])
  | b :: rest =>
    if hb : b = TelnetCode.IAC then
      match rest with
      | [] => ([], [b])
      | code :: rest =>
        if code = TelnetCode.IAC then (.escapedIAC :: (reading rest).1, (reading rest).2)
        else if TelnetCode.isNegotiation code then
          match rest with
          | [] => ([], [b, code])
          | option :: rest =>
            (.negotiation code option :: (reading rest).1, (reading rest).2)
        else if code = TelnetCode.SB then ([], b :: code :: rest)
        else (.command code :: (reading rest).1, (reading rest).2)
    else (.data b hb :: (reading rest).1, (reading rest).2)

def tokens (w : Bytes) : List Token := (reading w).1

def rest (w : Bytes) : Bytes := (reading w).2

/-- The reading of the stream comes to no IAC SB. -/
def NoSubnegotiation (w : Bytes) : Prop := ¬ [TelnetCode.IAC, TelnetCode.SB] <+: rest w

instance (w : Bytes) : Decidable (NoSubnegotiation w) := inferInstanceAs (Decidable (¬ _))

/-- What the reference hands on: one message for every token. -/
def decode (w : Bytes) : List TelnetMessage × Bytes := ((tokens w).map Token.message, rest w)

@[simp] lemma reading_nil : reading [] = ([], []) := rfl

lemma reading_data {b : UInt8} (hb : b ≠ TelnetCode.IAC) (w : Bytes) :
    reading (b :: w) = (.data b hb :: tokens w, rest w) := by
  rw [reading.eq_def]
  exact dif_neg hb

lemma reading_escaped (w : Bytes) :
    reading (TelnetCode.IAC :: TelnetCode.IAC :: w) = (.escapedIAC :: tokens w, rest w) := by
  rw [reading.eq_def]
  simp [tokens, rest]

lemma reading_negotiation {code : TelnetCode} (h : code ≠ TelnetCode.IAC)
    (hn : TelnetCode.isNegotiation code = true) (option : TelnetCode) (w : Bytes) :
    reading (TelnetCode.IAC :: code :: option :: w) =
      (.negotiation code option :: tokens w, rest w) := by
  rw [reading.eq_def]
  simp [h, hn, tokens, rest]

lemma reading_sub (w : Bytes) :
    reading (TelnetCode.IAC :: TelnetCode.SB :: w) =
      ([], TelnetCode.IAC :: TelnetCode.SB :: w) := by
  rw [reading.eq_def]
  simp +decide

lemma reading_command {code : TelnetCode} (h : code ≠ TelnetCode.IAC)
    (hn : ¬ TelnetCode.isNegotiation code = true) (hs : code ≠ TelnetCode.SB) (w : Bytes) :
    reading (TelnetCode.IAC :: code :: w) = (.command code :: tokens w, rest w) := by
  rw [reading.eq_def]
  simp [h, hn, hs, tokens, rest]

/-- A subnegotiation that stops the reading stops it as well when more follows. -/
lemma sub_prefix_rest_append (u v : Bytes)
    (h : [TelnetCode.IAC, TelnetCode.SB] <+: rest u) :
    [TelnetCode.IAC, TelnetCode.SB] <+: rest (u ++ v) := by
  induction u using reading.induct with
  | case1 => simp [rest] at h
  | case2 => simp [rest, reading] at h
  | case3 w ih =>
      simp only [List.cons_append, rest, reading_escaped] at h ⊢
      exact ih h
  | case4 code hc hn =>
      obtain rfl : TelnetCode.SB = code := by simpa [rest, reading, hc, hn] using h
      exact absurd hn (by decide)
  | case5 code hc hn option w ih =>
      simp only [List.cons_append, rest, reading_negotiation hc hn] at h ⊢
      exact ih h
  | case6 w _ _ =>
      simp only [List.cons_append, rest, reading_sub]
      exact ⟨w ++ v, rfl⟩
  | case7 code w hc hn hs ih =>
      simp only [List.cons_append, rest, reading_command hc hn hs] at h ⊢
      exact ih h
  | case8 b w hb ih =>
      simp only [List.cons_append, rest, reading_data hb] at h ⊢
      exact ih h

lemma NoSubnegotiation.left {u v : Bytes} (h : NoSubnegotiation (u ++ v)) :
    NoSubnegotiation u :=
  fun hu => h (sub_prefix_rest_append u v hu)

/-- **Reading in parts**: the tokens of the first part stand, and the reading goes on with
what it left over. -/
theorem reading_append {u : Bytes} (h : NoSubnegotiation u) (v : Bytes) :
    reading (u ++ v) = (tokens u ++ tokens (rest u ++ v), rest (rest u ++ v)) := by
  induction u using reading.induct with
  | case1 => simp [tokens, rest]
  | case2 => simp [tokens, rest, reading]
  | case3 w ih =>
      have := ih (by simpa [NoSubnegotiation, rest, reading_escaped] using h)
      simp [tokens, rest, reading_escaped, this]
  | case4 code hc hn => simp [tokens, rest, reading, hc, hn]
  | case5 code hc hn option w ih =>
      have := ih (by simpa [NoSubnegotiation, rest, reading_negotiation hc hn] using h)
      simp [tokens, rest, reading_negotiation hc hn, this]
  | case6 w _ _ =>
      refine absurd ?_ h
      rw [rest, reading_sub]
      exact ⟨w, rfl⟩
  | case7 code w hc hn hs ih =>
      have := ih (by simpa [NoSubnegotiation, rest, reading_command hc hn hs] using h)
      simp [tokens, rest, reading_command hc hn hs, this]
  | case8 b w hb ih =>
      have := ih (by simpa [NoSubnegotiation, rest, reading_data hb] using h)
      simp [tokens, rest, reading_data hb, this]

lemma tokens_append {u : Bytes} (h : NoSubnegotiation u) (v : Bytes) :
    tokens (u ++ v) = tokens u ++ tokens (rest u ++ v) := by
  rw [tokens, reading_append h]

lemma rest_append {u : Bytes} (h : NoSubnegotiation u) (v : Bytes) :
    rest (u ++ v) = rest (rest u ++ v) := by
  rw [rest, reading_append h]

lemma NoSubnegotiation.right {u v : Bytes} (h : NoSubnegotiation (u ++ v)) :
    NoSubnegotiation (rest u ++ v) := by
  rw [NoSubnegotiation, ← rest_append h.left]
  exact h

/-- Nothing is lost: the tokens and the rest make up the stream. -/
theorem bytes_reading (w : Bytes) : (tokens w).flatMap Token.bytes ++ rest w = w := by
  induction w using reading.induct with
  | case1 => rfl
  | case2 => simp [tokens, rest, reading]
  | case3 w ih => simpa [tokens, rest, reading_escaped, Token.bytes] using ih
  | case4 code hc hn => simp [tokens, rest, reading, hc, hn]
  | case5 code hc hn option w ih =>
      simpa [tokens, rest, reading_negotiation hc hn, Token.bytes] using ih
  | case6 w _ _ => simp [tokens, rest, reading_sub]
  | case7 code w hc hn hs ih =>
      simpa [tokens, rest, reading_command hc hn hs, Token.bytes] using ih
  | case8 b w hb ih => simpa [tokens, rest, reading_data hb, Token.bytes] using ih

lemma IAC_mem_rest {w : Bytes} (h : rest w ≠ []) : TelnetCode.IAC ∈ rest w := by
  induction w using reading.induct with
  | case1 => exact absurd rfl h
  | case2 => simp [rest, reading]
  | case3 w ih =>
      rw [rest, reading_escaped] at h ⊢
      exact ih h
  | case4 code hc hn => simp [rest, reading, hc, hn]
  | case5 code hc hn option w ih =>
      rw [rest, reading_negotiation hc hn] at h ⊢
      exact ih h
  | case6 w _ _ => simp [rest, reading_sub]
  | case7 code w hc hn hs ih =>
      rw [rest, reading_command hc hn hs] at h ⊢
      exact ih h
  | case8 b w hb ih =>
      rw [rest, reading_data hb] at h ⊢
      exact ih h

/-! ### Streams in which data comes last -/

/-- Nothing but plain bytes comes after a plain byte. -/
def DataLast : List Token → Bytes → Prop
  | [], _ => True
  | t :: ts, r => if t.isData then (∀ u ∈ ts, u.isData = true) ∧ r = [] else DataLast ts r

instance DataLast.decidable : (ts : List Token) → (r : Bytes) → Decidable (DataLast ts r)
  | [], _ => inferInstanceAs (Decidable True)
  | t :: ts, r =>
    have := DataLast.decidable ts r
    inferInstanceAs (Decidable (if t.isData then _ else _))

/-- No IAC comes after a plain byte in the telnet reading of the stream. -/
def Orderly (w : Bytes) : Prop := DataLast (tokens w) (rest w)

instance (w : Bytes) : Decidable (Orderly w) := inferInstanceAs (Decidable (DataLast _ _))

lemma dataLast_of_forall_isData {ts : List Token} (h : ∀ t ∈ ts, t.isData = true) :
    DataLast ts [] := by
  cases ts with
  | nil => trivial
  | cons t ts =>
      rw [DataLast, if_pos (h t (by simp))]
      exact ⟨fun u hu => h u (by simp [hu]), rfl⟩

lemma dataLast_of_noData {ts : List Token} (h : ∀ t ∈ ts, t.isData = false) (r : Bytes) :
    DataLast ts r := by
  induction ts with
  | nil => trivial
  | cons t ts ih =>
      have ht := h t (by simp)
      rw [DataLast, ht]
      exact ih fun u hu => h u (by simp [hu])

lemma DataLast.right {ts us : List Token} {r : Bytes} (h : DataLast (ts ++ us) r) :
    DataLast us r := by
  induction ts with
  | nil => exact h
  | cons t ts ih =>
      rw [List.cons_append, DataLast] at h
      split_ifs at h
      · obtain ⟨hall, rfl⟩ := h
        exact dataLast_of_forall_isData fun u hu => hall u (by simp [hu])
      · exact ih h

lemma DataLast.left {ts us : List Token} {r r' : Bytes} (h : DataLast (ts ++ us) r)
    (hr : (∀ u ∈ us, u.isData = true) → r = [] → r' = []) : DataLast ts r' := by
  induction ts with
  | nil => trivial
  | cons t ts ih =>
      rw [List.cons_append, DataLast] at h
      rw [DataLast]
      split_ifs at h ⊢
      · obtain ⟨hall, rfl⟩ := h
        exact ⟨fun u hu => hall u (by simp [hu]), hr (fun u hu => hall u (by simp [hu])) rfl⟩
      · exact ih h

lemma Orderly.right {u v : Bytes} (hu : NoSubnegotiation u) (h : Orderly (u ++ v)) :
    Orderly (rest u ++ v) := by
  rw [Orderly, tokens_append hu, rest_append hu] at h
  exact h.right

lemma IAC_mem_bytes_iff {t : Token} : TelnetCode.IAC ∈ t.bytes ↔ t.isData = false := by
  cases t with
  | data b hb => simp [Token.bytes, Token.isData, hb.symm]
  | _ => simp [Token.bytes, Token.isData]

lemma Orderly.left {u v : Bytes} (hu : NoSubnegotiation u) (h : Orderly (u ++ v)) :
    Orderly u := by
  rw [Orderly, tokens_append hu, rest_append hu] at h
  refine h.left fun hdata hrest => ?_
  -- a rest that is not empty has an IAC, which plain bytes do not
  by_contra hne
  have hbytes := bytes_reading (rest u ++ v)
  rw [hrest, List.append_nil] at hbytes
  have hmem : TelnetCode.IAC ∈ (tokens (rest u ++ v)).flatMap Token.bytes := by
    rw [hbytes]
    exact List.mem_append_left _ (IAC_mem_rest hne)
  obtain ⟨t, ht, hIAC⟩ := List.mem_flatMap.mp hmem
  rw [IAC_mem_bytes_iff, hdata t ht] at hIAC
  cases hIAC

end TelnetStream

end ForgeMush

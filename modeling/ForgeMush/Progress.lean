import ForgeMush.Subnegotiation

/-!
Whether `onReceive` returns, and what the passes of its loop get done.

A pass of the outer loop takes something out of `inbox`, unless it enters the search for the
end of a subnegotiation: that is never left again.
-/

namespace ForgeMush

open TelnetStream

namespace TelnetStream

/-- The reading comes to a subnegotiation of which at least five bytes are there, with no plain
byte before it. -/
def EntersSearch (w : Bytes) : Prop :=
  [TelnetCode.IAC, TelnetCode.SB] <+: rest w ∧ 5 ≤ (rest w).length ∧
    ∀ t ∈ tokens w, t.isData = false

lemma entersSearch_cons {w v : Bytes} {t : Token} (ht : t.isData = false)
    (h : reading w = (t :: tokens v, rest v)) : EntersSearch w ↔ EntersSearch v := by
  have htokens : tokens w = t :: tokens v := by rw [tokens, h]
  have hrest : rest w = rest v := by rw [rest, h]
  rw [EntersSearch, htokens, hrest, List.forall_mem_cons]
  simp only [ht, true_and]
  rfl

lemma not_entersSearch_nil : ¬ EntersSearch [] := by
  rintro ⟨-, hlen, -⟩
  simp [rest] at hlen

end TelnetStream

def Frame.connection : Frame → TelnetMudConnection
  | .outer c => c
  | .scan s => s.c

namespace TelnetMudConnection

def ScanStep (f g : Frame) : Prop := ∃ s, f = .scan s ∧ scanTurn s = .next g

/-- A pass of the outer loop, begun in the frame `f`, comes to `g`. -/
def WithinPass : Frame → Frame → Prop := Relation.ReflTransGen ScanStep

/-- `onReceive` returns. A pass that goes on to the next takes bytes out of `inbox`; the search
in it looks at ever later bytes, and there is one message at most. -/
structure Progresses (c : TelnetMudConnection) : Prop where
  returns : ∃ d, OnReceive c d
  consumes : ∀ e f d, Loop.Reaches onReceiveTurn (.outer c) (.outer e) → e.outerTurn = .next f →
    WithinPass f (.outer d) → d.inbox.length < e.inbox.length
  searches : ∀ e f s t, Loop.Reaches onReceiveTurn (.outer c) (.outer e) → e.outerTurn = .next f →
    WithinPass f (.scan s) → scanTurn s = .next (.scan t) → s.b < t.b
  delivers : ∀ e f g, Loop.Reaches onReceiveTurn (.outer c) (.outer e) → e.outerTurn = .next f →
    WithinPass f g → g.connection.received.length ≤ e.received.length + 1

variable {c : TelnetMudConnection}

lemma outerTurn_cases (h : ¬ EntersSearch c.inbox) :
    c.outerTurn = .done (.ok c) ∨ ∃ d msg, c.outerTurn = .next (.outer d) ∧
      d.inbox.length < c.inbox.length ∧ ¬ EntersSearch d.inbox ∧
      d.received = c.received ++ [msg] := by
  have hnext : ∀ (n : ℕ) (msg : TelnetMessage) (w : Bytes), 0 < n → w = c.inbox.drop n →
      c.inbox ≠ [] → ¬ EntersSearch w →
      ((c.onReceiveMessage msg).consume n).inbox.length < c.inbox.length ∧
        ¬ EntersSearch ((c.onReceiveMessage msg).consume n).inbox ∧
        ((c.onReceiveMessage msg).consume n).received = c.received ++ [msg] := by
    rintro n msg w hn rfl hne hw
    have hpos := List.length_pos_iff.mpr hne
    refine ⟨?_, by simpa [consume] using hw, by simp⟩
    simp only [consume, onReceiveMessage_inbox, List.length_drop]
    omega
  generalize hw : c.inbox = w at h
  induction w using reading.induct generalizing c with
  | case1 => exact Or.inl (outerTurn_nil hw)
  | case2 => exact Or.inl (outerTurn_IAC hw)
  | case3 w _ =>
      rw [entersSearch_cons rfl (reading_escaped w)] at h
      exact Or.inr ⟨_, _, outerTurn_escaped hw,
        hw ▸ hnext 2 (.appData [TelnetCode.IAC]) w (by decide) (by rw [hw]; rfl) (by simp [hw]) h⟩
  | case4 code hc hn => exact Or.inl (outerTurn_unfinished hw hc hn)
  | case5 code hc hn option w _ =>
      rw [entersSearch_cons rfl (reading_negotiation hc hn option w)] at h
      exact Or.inr ⟨_, _, outerTurn_negotiation hw hc hn,
        hw ▸ hnext 3 (.negotiation code option) w (by decide) (by rw [hw]; rfl) (by simp [hw]) h⟩
  | case6 w _ _ =>
      refine Or.inl (outerTurn_short hw ?_)
      by_contra hlen
      refine h ⟨?_, ?_, ?_⟩
      · rw [rest, reading_sub]
        exact ⟨w, rfl⟩
      · rw [rest, reading_sub]
        simp only [List.length_cons]
        omega
      · rw [tokens, reading_sub]
        exact fun t ht => absurd ht List.not_mem_nil
  | case7 code w hc hn hs _ =>
      rw [entersSearch_cons rfl (reading_command hc hn hs w)] at h
      exact Or.inr ⟨_, _, outerTurn_command hw hc hn hs,
        hw ▸ hnext 2 (.command code) w (by decide) (by rw [hw]; rfl) (by simp [hw]) h⟩
  | case8 b w hb _ =>
      have hempty : (c.consume (w.length + 1)).inbox = [] := by simp [consume, hw]
      refine Or.inr ⟨_, .appData (b :: w), outerTurn_data hw hb, ?_, ?_, by simp⟩
      · rw [onReceiveMessage_inbox, hempty]
        simp
      · rw [onReceiveMessage_inbox, hempty]
        exact not_entersSearch_nil

lemma reaches_search (h : EntersSearch c.inbox) :
    ∃ d, Loop.Reaches onReceiveTurn (.outer c) (.outer d) ∧ d.inbox = rest c.inbox := by
  generalize hw : c.inbox = w at h
  induction w using reading.induct generalizing c with
  | case1 => exact absurd h not_entersSearch_nil
  | case2 => simp [EntersSearch, rest, reading] at h
  | case3 w ih =>
      rw [entersSearch_cons rfl (reading_escaped w)] at h
      obtain ⟨d, hreach, hd⟩ := ih
        (c := (c.onReceiveMessage (.appData [TelnetCode.IAC])).consume 2) (by simp [consume, hw]) h
      refine ⟨d, .head (outerTurn_escaped hw) hreach, ?_⟩
      rw [hd, rest, rest, reading_escaped, rest]
  | case4 code hc hn => simp [EntersSearch, rest, reading, hc, hn] at h
  | case5 code hc hn option w ih =>
      rw [entersSearch_cons rfl (reading_negotiation hc hn option w)] at h
      obtain ⟨d, hreach, hd⟩ := ih
        (c := (c.onReceiveMessage (.negotiation code option)).consume 3) (by simp [consume, hw]) h
      refine ⟨d, .head (outerTurn_negotiation hw hc hn) hreach, ?_⟩
      rw [hd, rest, rest, reading_negotiation hc hn, rest]
  | case6 w _ _ =>
      refine ⟨c, .refl, ?_⟩
      rw [rest, reading_sub]
      exact hw
  | case7 code w hc hn hs ih =>
      rw [entersSearch_cons rfl (reading_command hc hn hs w)] at h
      obtain ⟨d, hreach, hd⟩ := ih (c := (c.onReceiveMessage (.command code)).consume 2)
        (by simp [consume, hw]) h
      refine ⟨d, .head (outerTurn_command hw hc hn hs) hreach, ?_⟩
      rw [hd, rest, rest, reading_command hc hn hs, rest]
  | case8 b w hb _ =>
      have hdata := h.2.2 (.data b hb) (by simp [tokens, reading_data hb])
      cases hdata

lemma withinPass_outer {d : TelnetMudConnection} {g : Frame} (h : WithinPass (.outer d) g) :
    g = .outer d := by
  rcases h.cases_head with rfl | ⟨_, ⟨s, hs, -⟩, -⟩
  · rfl
  · cases hs

lemma not_entersSearch_reaches {d : TelnetMudConnection} (h : ¬ EntersSearch c.inbox)
    (hreach : Loop.Reaches onReceiveTurn (.outer c) (.outer d)) : ¬ EntersSearch d.inbox := by
  have hclosed : ∀ f g : Frame, (∃ e, f = .outer e ∧ ¬ EntersSearch e.inbox) →
      onReceiveTurn f = .next g → ∃ e, g = .outer e ∧ ¬ EntersSearch e.inbox := by
    rintro f g ⟨e, rfl, he⟩ hstep
    rcases outerTurn_cases he with hdone | ⟨d, msg, hnext, -, hd, -⟩
    · rw [onReceiveTurn, hdone] at hstep
      cases hstep
    · rw [onReceiveTurn, hnext] at hstep
      cases hstep
      exact ⟨d, rfl, hd⟩
  obtain ⟨e, he, hno⟩ := hreach.closed hclosed ⟨c, rfl, h⟩
  cases he
  exact hno

/-- **Progress**: `onReceive` returns, with all that goes with it, exactly if the reading of
`inbox` does not come, with no plain byte before it, to a subnegotiation of which at least five
bytes are there. -/
theorem progresses_iff_not_entersSearch (c : TelnetMudConnection) :
    Progresses c ↔ ¬ EntersSearch c.inbox := by
  constructor
  · intro h hsearch
    obtain ⟨d, hreach, hd⟩ := reaches_search hsearch
    obtain ⟨⟨w, hw⟩, hlen, -⟩ := hsearch
    obtain ⟨r, hr⟩ := h.returns
    have hyields : OnReceive d r := hreach.yields.mp hr
    rw [← hw] at hd hlen
    obtain _ | ⟨o, _ | ⟨x, _ | ⟨y, v⟩⟩⟩ := w
    · simp at hlen
    · simp at hlen
    · simp at hlen
    · exact not_onReceive_of_sub hd r hyields
  · intro h
    -- a pass is a single turn, and that is of the kind `outerTurn_cases` says
    have hpass : ∀ e f, Loop.Reaches onReceiveTurn (.outer c) (.outer e) → e.outerTurn = .next f →
        ∃ d msg, d.inbox.length < e.inbox.length ∧ d.received = e.received ++ [msg] ∧
          ∀ g, WithinPass f g → g = .outer d := by
      intro e f hreach hf
      rcases outerTurn_cases (not_entersSearch_reaches h hreach) with
        hdone | ⟨d, msg, hnext, hlt, -, hmsg⟩
      · rw [hdone] at hf
        cases hf
      · rw [hnext] at hf
        cases hf
        exact ⟨d, msg, hlt, hmsg, fun g hg => withinPass_outer hg⟩
    refine ⟨?_, ?_, ?_, ?_⟩
    · have hturn : ∀ f : Frame, (∃ e, f = .outer e ∧ ¬ EntersSearch e.inbox) →
          (∃ g, onReceiveTurn f = .next g ∧ (∃ e, g = .outer e ∧ ¬ EntersSearch e.inbox) ∧
            g.connection.inbox.length < f.connection.inbox.length) ∨
          ∃ r, onReceiveTurn f = .done r ∧ ∃ d, r = .ok d := by
        rintro f ⟨e, rfl, he⟩
        rcases outerTurn_cases he with hdone | ⟨d, msg, hnext, hlt, hd, -⟩
        · exact Or.inr ⟨_, hdone, e, rfl⟩
        · exact Or.inl ⟨_, hnext, ⟨d, rfl, hd⟩, hlt⟩
      obtain ⟨r, hr, d, rfl⟩ := Loop.exists_yields (fun f : Frame => f.connection.inbox.length)
        hturn (s := .outer c) ⟨c, rfl, h⟩
      exact ⟨d, hr⟩
    · intro e f d hreach hf hwithin
      obtain ⟨d', -, hlt, -, hall⟩ := hpass e f hreach hf
      cases hall _ hwithin
      exact hlt
    · intro e f s t hreach hf hwithin
      obtain ⟨d', -, -, -, hall⟩ := hpass e f hreach hf
      cases hall _ hwithin
    · intro e f g hreach hf hwithin
      obtain ⟨d', msg, -, hmsg, hall⟩ := hpass e f hreach hf
      rw [hall g hwithin, Frame.connection, hmsg]
      simp

theorem subnegotiation_does_not_progress :
    ¬ Progresses { new 0 false true with inbox := [255, 250, 201, 104, 255, 240] } ∧
    Loop.Diverges onReceiveTurn
      (.outer { new 0 false true with inbox := [255, 250, 201, 104, 255, 240] }) := by
  have hdiverges : Loop.Diverges onReceiveTurn
      (.outer { new 0 false true with inbox := [255, 250, 201, 104, 255, 240] }) :=
    diverges_of_sub rfl (by decide)
  exact ⟨fun h => hdiverges.not_yields h.returns.choose_spec, hdiverges⟩

end TelnetMudConnection

end ForgeMush

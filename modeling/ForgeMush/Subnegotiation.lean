import ForgeMush.Decode

/-!
Subnegotiations: IAC SB, an option, a payload in which IAC is doubled, IAC SE.

With fewer than five bytes in `inbox` the code waits for more. With five it starts to look
for the end, with an iterator that it never moves forward: it looks at the first byte of
the payload for ever, or throws if that is SB.
-/

namespace ForgeMush

/-- Every IAC of the payload is followed by the IAC that escapes it. -/
def Escaped : Bytes → Bool
  | [] => true
  | b :: rest =>
    if b = TelnetCode.IAC then
      match rest with
      | [] => false
      | code :: rest => code = TelnetCode.IAC && Escaped rest
    else Escaped rest

/-- The bytes before the first unescaped IAC SE, and those after it. -/
def findEnd : Bytes → Option (Bytes × Bytes)
  | [] => none
  | b :: rest =>
    if b = TelnetCode.IAC then
      match rest with
      | [] => none
      | code :: rest =>
        if code = TelnetCode.SE then some ([], rest)
        else (findEnd rest).map fun p => (b :: code :: p.1, p.2)
    else (findEnd rest).map fun p => (b :: p.1, p.2)

/-- `inbox` begins with a subnegotiation of the option `o`, and `after` follows it. -/
def IsSubnegotiation (inbox : Bytes) (o : TelnetCode) (payload after : Bytes) : Prop :=
  inbox =
      [TelnetCode.IAC, TelnetCode.SB, o] ++ payload ++ [TelnetCode.IAC, TelnetCode.SE] ++ after ∧
    Escaped payload

/-- After IAC SB and the option there is no unescaped IAC SE. -/
def NoEnd (inbox : Bytes) : Prop := findEnd (inbox.drop 3) = none

lemma findEnd_of_escaped {payload : Bytes} (h : Escaped payload) (after : Bytes) :
    findEnd (payload ++ [TelnetCode.IAC, TelnetCode.SE] ++ after) = some (payload, after) := by
  induction payload using Escaped.induct with
  | case1 => simp [findEnd]
  | case2 => simp [Escaped] at h
  | case3 code rest ih =>
      obtain ⟨rfl, hr⟩ : code = TelnetCode.IAC ∧ Escaped rest := by simpa [Escaped] using h
      have hne : TelnetCode.IAC ≠ TelnetCode.SE := by decide
      simpa [findEnd, hne] using ih hr
  | case4 b rest hb ih =>
      have hr : Escaped rest := by
        rw [Escaped.eq_def] at h
        simpa [hb] using h
      have := ih hr
      rw [List.cons_append, List.cons_append, findEnd.eq_def]
      simp only [hb, if_false, this, Option.map_some]

/-- **There is at most one way to read a subnegotiation.** -/
theorem IsSubnegotiation.findEnd {inbox : Bytes} {o : TelnetCode} {payload after : Bytes}
    (h : IsSubnegotiation inbox o payload after) :
    findEnd (inbox.drop 3) = some (payload, after) := by
  obtain ⟨rfl, hesc⟩ := h
  exact findEnd_of_escaped hesc after

namespace TelnetMudConnection

variable {c : TelnetMudConnection}

/-- The head of the outer loop is reached again with the subnegotiation handed on, and with
what follows it in `inbox`. -/
def HandsOn (c : TelnetMudConnection) (o : TelnetCode) (payload after : Bytes) : Prop :=
  Loop.Reaches onReceiveTurn (.outer c)
    (.outer ({ c with inbox := after }.onReceiveMessage (.subnegotiation o payload)))

/-- How a subnegotiation at the beginning of `inbox` should be dealt with: a complete one is
handed on, and an incomplete one left for the next read. -/
def HandlesSubnegotiation (c : TelnetMudConnection) : Prop :=
  (∀ o payload after, IsSubnegotiation c.inbox o payload after → HandsOn c o payload after) ∧
    (NoEnd c.inbox → OnReceive c c)

/-- The states of the inner loop over the inbox `box`. -/
def Scanning (box : Bytes) : Frame → Prop
  | .outer _ => False
  | .scan s => s.box = box ∧ s.sub = 3 ∧ s.b = 3

lemma outerTurn_sub {o x y : UInt8} {w : Bytes}
    (h : c.inbox = TelnetCode.IAC :: TelnetCode.SB :: o :: x :: y :: w) :
    c.outerTurn = .next (.scan { c := c, box := c.inbox, option := o, sub := 3, b := 3 }) := by
  simp [outerTurn, h, TelnetCode.isNegotiation_SB, TelnetCode.SB_ne_IAC]

lemma outerTurn_short {w : Bytes} (h : c.inbox = TelnetCode.IAC :: TelnetCode.SB :: w)
    (hw : w.length < 3) : c.outerTurn = .done (.ok c) := by
  match w, hw with
  | [], _ | [_], _ | [_, _], _ =>
    simp [outerTurn, h, TelnetCode.isNegotiation_SB, TelnetCode.SB_ne_IAC]

lemma scanning_start (c : TelnetMudConnection) (o : TelnetCode) :
    Scanning c.inbox (.scan { c := c, box := c.inbox, option := o, sub := 3, b := 3 }) :=
  ⟨rfl, rfl, rfl⟩

lemma scanTurn_of_ne {o x y : UInt8} {w box : Bytes}
    (hbox : box = TelnetCode.IAC :: TelnetCode.SB :: o :: x :: y :: w)
    (hx : x ≠ TelnetCode.SB) (f : Frame) (hf : Scanning box f) :
    ∃ g, onReceiveTurn f = .next g ∧ Scanning box g := by
  cases f with
  | outer d => exact hf.elim
  | scan s =>
      obtain ⟨hb, hsub, h3⟩ := hf
      have hend : s.b ≠ s.box.length := by simp [hb, h3, hbox]
      have hget : s.box.getD s.b 0 = x := by simp [hb, h3, hbox]
      simp only [onReceiveTurn, scanTurn, if_neg hend, hget, if_neg hx]
      split_ifs
      · exact ⟨_, rfl, hb, hsub, h3⟩
      · exact ⟨_, rfl, hb, hsub, h3⟩
      · exact ⟨_, rfl, hb, hsub, h3⟩

lemma scanTurn_SB {o y : UInt8} {w box : Bytes}
    (hbox : box = TelnetCode.IAC :: TelnetCode.SB :: o :: TelnetCode.SB :: y :: w)
    (f : Frame) (hf : Scanning box f) : onReceiveTurn f = .done (.error .lengthError) := by
  cases f with
  | outer d => exact hf.elim
  | scan s =>
      obtain ⟨hb, hsub, h3⟩ := hf
      have hend : s.b ≠ s.box.length := by simp [hb, h3, hbox]
      have hget : s.box.getD s.b 0 = TelnetCode.SB := by simp [hb, h3, hbox]
      simp only [onReceiveTurn, scanTurn, if_neg hend, hget, if_neg TelnetCode.SB_ne_IAC, if_true]
      split_ifs <;> simp_all

/-- **The search for the end never ends well**: it goes on for ever, or throws. -/
theorem diverges_of_sub {o x y : UInt8} {w : Bytes}
    (h : c.inbox = TelnetCode.IAC :: TelnetCode.SB :: o :: x :: y :: w)
    (hx : x ≠ TelnetCode.SB) : Loop.Diverges onReceiveTurn (.outer c) :=
  (Loop.Reaches.step (outerTurn_sub h)).diverges
    (Loop.diverges_of_closed (scanTurn_of_ne h hx) (scanning_start c o))

theorem throws_of_sub {o y : UInt8} {w : Bytes}
    (h : c.inbox = TelnetCode.IAC :: TelnetCode.SB :: o :: TelnetCode.SB :: y :: w) :
    Loop.Yields onReceiveTurn (.outer c) (.error .lengthError) :=
  (Loop.yields_next (outerTurn_sub h)).mpr
    ((Loop.yields_done (scanTurn_SB h _ (scanning_start c o))).mpr rfl)

lemma not_onReceive_of_sub {o x y : UInt8} {w : Bytes}
    (h : c.inbox = TelnetCode.IAC :: TelnetCode.SB :: o :: x :: y :: w)
    (d : TelnetMudConnection) : ¬ OnReceive c d := by
  intro hd
  by_cases hx : x = TelnetCode.SB
  · subst hx
    cases hd.unique (throws_of_sub h)
  · exact (diverges_of_sub h hx).not_yields hd

/-- Once the search has begun, the head of the outer loop is not reached again. -/
lemma not_handsOn_of_sub {o x y : UInt8} {w : Bytes}
    (h : c.inbox = TelnetCode.IAC :: TelnetCode.SB :: o :: x :: y :: w)
    (o' : TelnetCode) (payload after : Bytes) : ¬ HandsOn c o' payload after := by
  intro hr
  have hclosed : ∀ f g, f = .outer c ∨ Scanning c.inbox f → onReceiveTurn f = .next g →
      g = .outer c ∨ Scanning c.inbox g := by
    rintro f g (rfl | hf) hstep
    · rw [onReceiveTurn, outerTurn_sub h] at hstep
      cases hstep
      exact Or.inr (scanning_start c o)
    · by_cases hx : x = TelnetCode.SB
      · subst hx
        rw [scanTurn_SB h f hf] at hstep
        cases hstep
      · obtain ⟨g', hg, hscan⟩ := scanTurn_of_ne h hx f hf
        rw [hg] at hstep
        cases hstep
        exact Or.inr hscan
  rcases hr.closed hclosed (Or.inl rfl) with heq | hscan
  · -- one more message has been handed on than at the start
    have hmsgs := congrArg received (Frame.outer.inj heq)
    rw [onReceiveMessage_received] at hmsgs
    have hlen := congrArg List.length hmsgs
    simp [received] at hlen
  · exact hscan

/-- **When a subnegotiation is dealt with**: exactly while fewer than five bytes of it are in
`inbox`. -/
theorem handlesSubnegotiation_iff (c : TelnetMudConnection)
    (hsb : [TelnetCode.IAC, TelnetCode.SB] <+: c.inbox)
    (hform : (∃ o payload after, IsSubnegotiation c.inbox o payload after) ∨ NoEnd c.inbox) :
    HandlesSubnegotiation c ↔ c.inbox.length < 5 := by
  obtain ⟨w, hw⟩ := hsb
  constructor
  · intro h
    by_contra hlen
    obtain ⟨o, x, y, v, hv⟩ : ∃ o x y v,
        c.inbox = TelnetCode.IAC :: TelnetCode.SB :: o :: x :: y :: v := by
      rw [← hw] at hlen ⊢
      rcases w with _ | ⟨o, _ | ⟨x, _ | ⟨y, v⟩⟩⟩
      · simp at hlen
      · simp at hlen
      · simp at hlen
      · exact ⟨o, x, y, v, rfl⟩
    rcases hform with ⟨o', payload, after, hsub⟩ | hno
    · exact not_handsOn_of_sub hv o' payload after (h.1 o' payload after hsub)
    · exact not_onReceive_of_sub hv c (h.2 hno)
  · intro hlen
    refine ⟨fun o payload after hsub => ?_, fun _ => ?_⟩
    · have := congrArg List.length hsub.1
      simp at this
      omega
    · have hshort : w.length < 3 := by
        rw [← hw] at hlen
        simp only [List.length_append, List.length_cons, List.length_nil] at hlen
        omega
      exact (Loop.yields_done (outerTurn_short hw.symm hshort)).mpr rfl

/-- IAC SB and an option code, with nothing behind it yet. -/
theorem short_subnegotiation_handled :
    HandlesSubnegotiation { new 0 false true with inbox := [255, 250, 201] } :=
  (handlesSubnegotiation_iff { new 0 false true with inbox := [255, 250, 201] }
    ⟨[201], rfl⟩ (Or.inr rfl)).mpr (by decide)

/-- The subnegotiation of option 201 with the payload `h`. -/
theorem complete_subnegotiation_not_handled :
    IsSubnegotiation [255, 250, 201, 104, 255, 240] 201 [104] [] ∧
      ¬ HandlesSubnegotiation
        { new 0 false true with inbox := [255, 250, 201, 104, 255, 240] } := by
  refine ⟨⟨rfl, rfl⟩, fun h => ?_⟩
  exact not_handsOn_of_sub rfl 201 [104] [] (h.1 201 [104] [] ⟨rfl, rfl⟩)

end TelnetMudConnection

end ForgeMush

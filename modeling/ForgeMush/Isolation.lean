import ForgeMush.Amplification
import ForgeMush.Components
import ForgeMush.Listening

/-!
A portal as a system of connections.

Neither the listeners nor the maps play any part in what a connection does, and one connection
plays none in what another does. So all that holds of the runs of a connection by itself holds of
the connections of a portal.
-/

namespace ForgeMush

open Runs

namespace Portal

/-- The connection that the event is one of, with the event as the connection has it. -/
def Event.inner : Event → Option (ℕ × AnyConnection.Event)
  | .connection i e => some (i, e)
  | _ => none

def made (p : Portal) : List AnyConnection := p.heap.map Accepted.connection

/-- The connection is the `i`-th, as the handler of its accept leaves it. -/
def Fresh (onConnectCB : Bool) (i : ℕ) (a : AnyConnection) : Prop :=
  ∃ type isTLS, a = (AnyConnection.new type (UInt32.ofNat i) isTLS onConnectCB).onConnect

/-- The ids are counted up, and the callback stays. -/
structure Counts (onConnectCB : Bool) (p : Portal) : Prop where
  onConnectCB : p.onConnectCB = onConnectCB
  nextId : p.nextId = UInt32.ofNat p.heap.length

variable {p q : Portal} {cb : Bool} {e : Event} {tr : List (Event × Portal)} {i : ℕ}

lemma made_getElem? {a : Accepted} (ha : p.heap[i]? = some a) : p.made[i]? = some a.connection := by
  rw [made, List.getElem?_map, ha, Option.map_some]

lemma made_update (p : Portal) (i : ℕ) (a : Accepted) (d : AnyConnection) :
    (p.update i a d).made = p.made.set i d := by
  obtain ⟨t, ht⟩ := p.update_eq i a d
  rw [made, ht, made, List.map_set]

lemma made_of_step (h : Counts cb p) (hstep : Step p e q) (hinner : e.inner = none) :
    (q.made = p.made ∧ q.nextId = p.nextId ∨
      q.nextId = p.nextId + 1 ∧ ∃ a, Fresh cb p.heap.length a ∧ q.made = p.made ++ [a]) ∧
    q.onConnectCB = p.onConnectCB := by
  cases e with
  | registerListener name address type sslName memory =>
      obtain rfl := hstep
      split
      · next q hq =>
          obtain ⟨con, rfl⟩ := registerListener_ok hq
          exact ⟨Or.inl ⟨rfl, rfl⟩, rfl⟩
      · exact ⟨Or.inl ⟨rfl, rfl⟩, rfl⟩
  | start name | stop name =>
      obtain ⟨l, -, rfl⟩ := hstep
      exact ⟨Or.inl ⟨rfl, rfl⟩, rfl⟩
  | accept name failed =>
      obtain ⟨l, -, -, rfl⟩ := hstep
      cases failed with
      | true => exact ⟨Or.inl ⟨rfl, rfl⟩, rfl⟩
      | false =>
          refine ⟨Or.inr ⟨rfl, _, ⟨l.listener.type, l.listener.sslCon, rfl⟩, ?_⟩, rfl⟩
          rw [← h.nextId, ← h.onConnectCB]
          simp [made, onAccept, accept]
  | connection => cases hinner

lemma Counts.step (h : Counts cb p) (hstep : Step p e q) : Counts cb q := by
  have hlen : ∀ p : Portal, p.made.length = p.heap.length := fun p => List.length_map ..
  cases hinner : e.inner with
  | none =>
      obtain ⟨hmade, hcb⟩ := made_of_step h hstep hinner
      refine ⟨hcb.trans h.onConnectCB, ?_⟩
      rcases hmade with ⟨hmade, hid⟩ | ⟨hid, a, -, hmade⟩
      · rw [hid, h.nextId, ← hlen q, hmade, hlen]
      · rw [hid, h.nextId, ← hlen q, hmade, List.length_append, hlen]
        exact (UInt32.ofNat_add _ _).symm
  | some x =>
      cases e with
      | connection i e =>
          obtain ⟨a, d, -, -, rfl⟩ := hstep
          obtain ⟨t, ht⟩ := p.update_eq i a d
          rw [ht]
          exact ⟨h.onConnectCB, by simpa using h.nextId⟩
      | _ => cases hinner

/-- **A portal is made up of its connections.** -/
lemma composed (cb : Bool) : Composed (fun p e q => Counts cb p ∧ Step p e q) AnyConnection.Step
    made Event.inner (Fresh cb) where
  moves p e q i k hstep hinner := by
    obtain ⟨-, hstep⟩ := hstep
    cases e with
    | connection j e =>
        cases hinner
        obtain ⟨a, d, ha, had, rfl⟩ := hstep
        exact ⟨a.connection, d, made_getElem? ha, had, made_update p i a d⟩
    | _ => cases hinner
  grows p e q hstep hinner := by
    obtain ⟨hmade | ⟨-, a, ha, hmade⟩, -⟩ := made_of_step hstep.1 hstep.2 hinner
    · exact ⟨[], by rw [hmade.1, List.append_nil], by simp⟩
    · refine ⟨[a], hmade, fun j c hc => ?_⟩
      cases j with
      | zero =>
          cases hc
          rwa [made, List.length_map]
      | succ j => cases hc

lemma counts_new (addresses : List String)
    (sslContexts : Table fun e : String × SslContext => e.1) (cb : Bool) :
    Counts cb (new addresses sslContexts cb) := ⟨rfl, rfl⟩

lemma run_composed (h : Run Step p tr) (hp : Counts cb p) :
    Run (fun p e q => Counts cb p ∧ Step p e q) p tr :=
  h.steps (fun _ _ _ hs hstep => ⟨hs.step hstep, hs, hstep⟩) hp

/-- **A connection in a portal** takes part in a run of its own, from the moment it is accepted,
with the events that are its own and no others. -/
theorem run_of_connection (addresses : List String)
    (sslContexts : Table fun e : String × SslContext => e.1) (onConnectCB : Bool)
    (tr : List (Event × Portal)) (h : Run Step (new addresses sslContexts onConnectCB) tr)
    (i : ℕ) (a : Accepted)
    (ha : (final (new addresses sslContexts onConnectCB) tr).heap[i]? = some a) :
    ∃ type isTLS tr',
      Run AnyConnection.Step (AnyConnection.new type (UInt32.ofNat i) isTLS onConnectCB).onConnect
        tr' ∧
      final (AnyConnection.new type (UInt32.ofNat i) isTLS onConnectCB).onConnect tr' =
        a.connection ∧
      events tr' = (events tr).filterMap (ownEvent Event.inner i) := by
  obtain ⟨c, hc, hrun, hfinal, hevents⟩ := (composed onConnectCB).run_share (i := i)
    (run_composed h (counts_new addresses sslContexts onConnectCB)) (made_getElem? ha)
  rcases hc with hc | ⟨-, type, isTLS, rfl⟩
  · cases hc
  · exact ⟨type, isTLS, _, hrun, hfinal, hevents⟩

/-- Two connections are accepted, and the second becomes ready between two reads of the first. -/
theorem second_connection_run : ∃ tr : List (Event × Portal), Run Step plain tr ∧
    (events tr).drop 4 = [.connection 0 (.telnet (.read [104])), .connection 1 (.telnet .timer),
      .connection 0 (.telnet (.read [105]))] ∧
    ∃ type isTLS tr', Run AnyConnection.Step (AnyConnection.new type 1 isTLS true).onConnect tr' ∧
      events tr' = [.telnet .timer] := by
  have hrun : Run Step plain [(.registerListener "testing" "mine" .telnet none none, _),
      (.start "testing", _), (.accept "testing" false, _), (.accept "testing" false, _),
      (.connection 0 (.telnet (.read [104])), _), (.connection 1 (.telnet .timer), _),
      (.connection 0 (.telnet (.read [105])), _)] :=
    .cons rfl (.cons ⟨_, rfl, rfl⟩ (.cons ⟨_, rfl, by decide, rfl⟩
      (.cons ⟨_, rfl, by decide, rfl⟩
      (.cons ⟨_, .telnet _, rfl, TelnetMudConnection.step_read (by decide) (by decide), rfl⟩
      (.cons ⟨_, .telnet _, rfl, ⟨by decide, rfl⟩, rfl⟩
      (.cons ⟨_, .telnet _, rfl, TelnetMudConnection.step_read (by decide) (by decide), rfl⟩
        (.nil _)))))))
  obtain ⟨type, isTLS, tr', hrun', -, hevents⟩ :=
    run_of_connection ["mine"] Table.empty true _ hrun 1 _ rfl
  exact ⟨_, hrun, rfl, type, isTLS, tr', hrun', hevents⟩

end Portal

/-! ### Telnet connections -/

namespace AnyConnection

lemma telnet_run {c : TelnetMudConnection} {tr : List (Event × AnyConnection)}
    (h : Run Step (.telnet c) tr) :
    ∃ tr', Run TelnetMudConnection.Step c tr' ∧
      final (.telnet c) tr = .telnet (final c tr') ∧ events tr = (events tr').map .telnet := by
  refine h.embedded fun c e t hstep => ?_
  rcases step_cases hstep with ⟨c', k, d, hc, rfl, rfl, hcd⟩ | ⟨_, _, _, hc, -⟩
  · cases hc
    exact ⟨k, d, rfl, rfl, hcd⟩
  · cases hc

lemma webSocket_run {c : WebSocketMudConnection} {tr : List (Event × AnyConnection)}
    (h : Run Step (.webSocket c) tr) :
    ∃ tr', Run WebSocketMudConnection.Step c tr' ∧
      final (.webSocket c) tr = .webSocket (final c tr') ∧
      events tr = (events tr').map .webSocket := by
  refine h.embedded fun c e t hstep => ?_
  rcases step_cases hstep with ⟨_, _, _, hc, -⟩ | ⟨c', k, d, hc, rfl, rfl, hcd⟩
  · cases hc
  · cases hc
    exact ⟨k, d, rfl, rfl, hcd⟩

def Event.telnet? : Event → Option TelnetMudConnection.Event
  | .telnet e => some e
  | .webSocket _ => none

end AnyConnection

namespace Portal

variable {tr : List (Event × Portal)} {i : ℕ}

/-- The events of the Telnet connection `i` in a run. -/
def telnetEvents (i : ℕ) (tr : List (Event × Portal)) : List TelnetMudConnection.Event :=
  (events tr).filterMap fun e => (ownEvent Event.inner i e).bind AnyConnection.Event.telnet?

lemma telnet_run {addresses : List String}
    {sslContexts : Table fun e : String × SslContext => e.1} {onConnectCB : Bool}
    (h : Run Step (new addresses sslContexts onConnectCB) tr) {a : Accepted}
    {c : TelnetMudConnection}
    (ha : (final (new addresses sslContexts onConnectCB) tr).heap[i]? = some a)
    (hc : a.connection = .telnet c) :
    ∃ isTLS tr', Run TelnetMudConnection.Step
        (TelnetMudConnection.withOptions (UInt32.ofNat i) isTLS onConnectCB []).onConnect tr' ∧
      final (TelnetMudConnection.withOptions (UInt32.ofNat i) isTLS onConnectCB []).onConnect
        tr' = c ∧
      events tr' = telnetEvents i tr := by
  obtain ⟨d, hd, hrun, hfinal, hevents⟩ := (composed onConnectCB).run_share (i := i)
    (run_composed h (counts_new addresses sslContexts onConnectCB)) (made_getElem? ha)
  rcases hd with hd | ⟨-, type, isTLS, rfl⟩
  · cases hd
  rw [hc] at hfinal
  cases type with
  | telnet =>
      obtain ⟨tr', hrun', hfinal', hevents'⟩ := AnyConnection.telnet_run hrun
      refine ⟨isTLS, tr', hrun', AnyConnection.telnet.inj (hfinal'.symm.trans hfinal), ?_⟩
      have htelnet : AnyConnection.Event.telnet? ∘ AnyConnection.Event.telnet = some := rfl
      rw [telnetEvents, ← List.filterMap_filterMap, ← hevents, hevents', List.filterMap_map,
        htelnet, List.filterMap_some]
  | webSocket =>
      obtain ⟨tr', -, hfinal', -⟩ := AnyConnection.webSocket_run hrun
      cases hfinal'.symm.trans hfinal

lemma mem_telnetEvents {e : TelnetMudConnection.Event} (he : e ∈ telnetEvents i tr) :
    .connection i (.telnet e) ∈ events tr := by
  obtain ⟨e', he', heq⟩ := List.mem_filterMap.mp he
  obtain ⟨k, hk, hke⟩ := Option.bind_eq_some_iff.mp heq
  rw [ownEvent_eq_some] at hk
  cases e' with
  | connection j k' =>
      cases hk
      cases k with
      | telnet k =>
          cases hke
          exact he'
      | webSocket k => cases hke
  | _ => cases hk

def refusal (m : Negotiation) : Option Negotiation :=
  if m.1 = TelnetCode.WILL then some (TelnetCode.DONT, m.2)
  else if m.1 = TelnetCode.DO then some (TelnetCode.WONT, m.2)
  else none

lemma repliesTo_empty (ms : List Negotiation) :
    TelnetMudConnection.repliesTo Table.empty ms = ms.filterMap refusal := by
  have hreply : ∀ m : Negotiation,
      TelnetMudConnection.reply Table.empty m.1 m.2 = (refusal m).toList := by
    intro m
    have hnone : (Table.empty : OptionTable).find? m.2 = none := rfl
    rw [TelnetMudConnection.reply, refusal, hnone]
    by_cases hwill : m.1 = TelnetCode.WILL
    · simp [hwill]
    · by_cases hdo : m.1 = TelnetCode.DO
      · simp [hdo, Ne.symm TelnetCode.WILL_ne_DO]
      · simp [hwill, hdo]
  rw [List.filterMap_eq_flatMap_toList]
  exact congrArg (ms.flatMap ·) (funext hreply)

section NoOptions

variable {connId : UInt32} {isTLS onConnectCB : Bool}
  {tr : List (TelnetMudConnection.Event × TelnetMudConnection)}

lemma sent_of_noOptions
    (h : Run TelnetMudConnection.Step
      (TelnetMudConnection.withOptions connId isTLS onConnectCB []).onConnect tr)
    (hown : ∀ m o, .sendNegotiate m o ∉ events tr) :
    (final (TelnetMudConnection.withOptions connId isTLS onConnectCB []).onConnect tr).sent =
      (TelnetMudConnection.negotiations (final (TelnetMudConnection.withOptions connId isTLS
        onConnectCB []).onConnect tr).received).filterMap refusal := by
  have htalks := TelnetMudConnection.talks_run connId isTLS onConnectCB [] h hown
  split_ifs at htalks
  · rw [htalks.sent]
    exact repliesTo_empty _
  · rw [htalks.sent, htalks.received]
    rfl

lemma length_enqueued_of_noOptions
    (h : Run TelnetMudConnection.Step
      (TelnetMudConnection.withOptions connId isTLS onConnectCB []).onConnect tr)
    (hown : ∀ m o, .sendNegotiate m o ∉ events tr) :
    (final (TelnetMudConnection.withOptions connId isTLS onConnectCB []).onConnect
      tr).enqueued.length ≤ ((events tr).flatMap TelnetMudConnection.Event.text).length := by
  have hbound := ((TelnetMudConnection.frugal_onConnect connId isTLS onConnectCB []).run h).bound
  have hnone : (events tr).countP TelnetMudConnection.Event.isOwn = 0 := by
    rw [List.countP_eq_zero]
    intro e he
    cases e with
    | sendNegotiate m o => exact absurd he (hown m o)
    | _ => exact Bool.false_ne_true
  have htext : TelnetMudConnection.text tr =
      (events tr).flatMap TelnetMudConnection.Event.text := by
    rw [events, List.flatMap_map]
    rfl
  have hoffered : (TelnetMudConnection.offered
      (TelnetMudConnection.withOptions connId isTLS onConnectCB []).options).length = 0 := rfl
  rw [TelnetMudConnection.sum_cost, hnone, htext, hoffered] at hbound
  rw [TelnetMudConnection.length_enqueued]
  omega

end NoOptions

/-- What is sent to a client is the refusals of its requests, in order, and no more bytes than have
been read from it by the events `es`. -/
structure Refuses (es : List TelnetMudConnection.Event) (c : TelnetMudConnection) : Prop where
  sent : c.sent = (TelnetMudConnection.negotiations c.received).filterMap refusal
  enqueued : c.enqueued.length ≤ (es.flatMap TelnetMudConnection.Event.text).length

lemma refuses_run {addresses : List String}
    {sslContexts : Table fun e : String × SslContext => e.1} {onConnectCB : Bool}
    (h : Run Step (new addresses sslContexts onConnectCB) tr) {a : Accepted}
    {c : TelnetMudConnection}
    (ha : (final (new addresses sslContexts onConnectCB) tr).heap[i]? = some a)
    (hc : a.connection = .telnet c)
    (hown : ∀ m o, .connection i (.telnet (.sendNegotiate m o)) ∉ events tr) :
    Refuses (telnetEvents i tr) c := by
  obtain ⟨isTLS, tr', hrun, rfl, hevents⟩ := telnet_run h ha hc
  have hown' : ∀ m o, .sendNegotiate m o ∉ events tr' := fun m o hmem =>
    hown m o (mem_telnetEvents (hevents ▸ hmem))
  rw [← hevents]
  exact ⟨sent_of_noOptions hrun hown', length_enqueued_of_noOptions hrun hown'⟩

/-- **A portal only refuses**: what it sends to a client, unless the rest of the program sends to
it, is the refusals of the client's requests, in order, and no more bytes than it has read. -/
theorem sent_refusals (addresses : List String)
    (sslContexts : Table fun e : String × SslContext => e.1) (onConnectCB : Bool)
    (tr : List (Event × Portal)) (h : Run Step (new addresses sslContexts onConnectCB) tr)
    (i : ℕ) (a : Accepted) (c : TelnetMudConnection)
    (ha : (final (new addresses sslContexts onConnectCB) tr).heap[i]? = some a)
    (hc : a.connection = .telnet c)
    (hown : ∀ m o, .connection i (.telnet (.sendNegotiate m o)) ∉ events tr) :
    c.sent = (TelnetMudConnection.negotiations c.received).filterMap refusal ∧
      c.enqueued.length ≤
        ((telnetEvents i tr).flatMap TelnetMudConnection.Event.text).length := by
  obtain ⟨hsent, henqueued⟩ := refuses_run h ha hc hown
  exact ⟨hsent, henqueued⟩

/-- A client asks for two options, one of each kind, and takes one back. -/
theorem requests_refused : ∃ tr : List (Event × Portal), Run Step plain tr ∧
    ∃ c, (final plain tr).made = [.telnet c] ∧
      c.sent = [(TelnetCode.DONT, 1), (TelnetCode.WONT, 3)] ∧
      c.sent = (TelnetMudConnection.negotiations c.received).filterMap refusal := by
  have hrun : Run Step plain [(.registerListener "testing" "mine" .telnet none none, _),
      (.start "testing", _), (.accept "testing" false, _),
      (.connection 0 (.telnet (.read [255, 251, 1, 255, 252, 1])), _),
      (.connection 0 (.telnet (.read [255, 253, 3])), _)] :=
    .cons rfl (.cons ⟨_, rfl, rfl⟩ (.cons ⟨_, rfl, by decide, rfl⟩
      (.cons ⟨_, .telnet _, rfl, TelnetMudConnection.step_read (by decide) (by decide), rfl⟩
      (.cons ⟨_, .telnet _, rfl, TelnetMudConnection.step_read (by decide) (by decide), rfl⟩
        (.nil _)))))
  obtain ⟨hsent, -⟩ := sent_refusals ["mine"] Table.empty true _ hrun 0 _ _ rfl rfl
    (fun m o hmem => by simp at hmem)
  exact ⟨_, hrun, _, rfl, by decide, hsent⟩

end Portal

end ForgeMush

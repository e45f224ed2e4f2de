import ForgeMush.Isolation

/-!
Which connections are encrypted, and with which context.

`registerListener` looks up the context and hands it to the constructor of `Listener`, which
drops it. All that depends on TLS later reads the member `ssl_con`. The member of the union that
the destructor picks from the flags is always the one stored, but `receive` of a WebSocket
connection does not look at `wsock`: until its TLS handshake is done it picks a member that was
never stored.
-/

namespace ForgeMush

open Runs

namespace TelnetMudConnection

/-- The connection still has the flag `b` and the member `sock` of the union. -/
def Holds (b : Bool) (sock : Socket) (c : TelnetMudConnection) : Prop :=
  c.isTLS = b ∧ c.conn = sock

variable {b : Bool} {sock : Socket} {c d : TelnetMudConnection}

lemma Holds.send (h : Holds b sock c) : Holds b sock c.send := by
  rw [send_eq]
  exact h

lemma Holds.sendNegotiate (h : Holds b sock c) (command option : TelnetCode) :
    Holds b sock (c.sendNegotiate command option) := by
  have hqueued : Holds b sock { c.record (.sendNegotiate command option) with
      outbox := c.outbox ++ [TelnetCode.IAC, command, option] } := h
  exact hqueued.send

lemma keepsReading_holds (b : Bool) (sock : Socket) : KeepsReading (Holds b sock) where
  record _ _ _ h := h
  cmdbuff _ _ h := h
  options _ _ h := h
  sendNegotiate _ command option h := h.sendNegotiate command option
  message _ _ h := h
  inbox _ _ h := h

lemma keepsReady_holds (b : Bool) (sock : Socket) : KeepsReady (Holds b sock) where
  handshake _ _ _ h := h
  holders _ _ _ h := h
  finishReady := keeps_finishReady (fun _ _ _ h => h) fun _ _ _ h => h

lemma Holds.start (h : Holds b sock c) : Holds b sock c.start :=
  start_keeps (fun _ he => he.send) (fun _ command option he => he.sendNegotiate command option)
    (fun _ _ he => he) (fun _ _ _ he => he) h

lemma Holds.step {e : Event} (h : Holds b sock c) (hstep : Step c e d) : Holds b sock d := by
  cases e with
  | sendNegotiate command option => exact hstep ▸ h.sendNegotiate command option
  | send => exact hstep ▸ h.send
  | processHandshake side code =>
      exact hstep ▸ (keepsReady_holds b sock).processHandshake h side code
  | written i failed len =>
      obtain ⟨buffer, -, -, -, rfl⟩ := hstep
      have hw : Holds b sock { c with
          writes := c.writes.eraseIdx i, wire := c.wire ++ buffer.take len,
          outbox := c.outbox.drop len } := h
      unfold sendHandler
      dsimp only
      split_ifs
      · exact hw.send
      · exact h
  | read data =>
      obtain ⟨-, e, hread, rfl⟩ := hstep
      have hbegun : Holds b sock { c with reads := c.reads - 1 } := h
      have he : Holds b sock e := (keepsReading_holds b sock).read hbegun hread
      exact he
  | readError =>
      obtain ⟨-, rfl⟩ := hstep
      exact h
  | handshake failed =>
      obtain ⟨-, rfl⟩ := hstep
      have hdone : Holds b sock { c with handshakes := c.handshakes - 1 } := h
      split_ifs
      · exact h
      · exact hdone.start
  | timer =>
      obtain ⟨-, rfl⟩ := hstep
      have hdone : Holds b sock { c with waits := c.waits - 1 } := h
      exact (keepsReady_holds b sock).finishReady _ hdone

end TelnetMudConnection

namespace WebSocketMudConnection

/-- The flags say which member of the union was stored last, and only an encrypted connection
begins a TLS handshake: a plain one begins the WebSocket step at once. -/
structure Consistent (c : WebSocketMudConnection) : Prop where
  stored : c.conn =
    if c.isTLS then if c.wsock then .tlsWebsocket else .securePeer
    else if c.wsock then .websocket else .peer
  secure : 0 < c.handshakes → c.isTLS = true
  plain : c.isTLS = false → c.wsock = true

lemma consistent_onConnect (connId : UInt32) (isTLS hasConnectCB : Bool) :
    (new connId isTLS hasConnectCB).onConnect.Consistent := by
  cases isTLS with
  | true => exact ⟨rfl, fun _ => rfl, fun h => absurd h Bool.noConfusion⟩
  | false => exact ⟨rfl, fun h => absurd h (Nat.lt_irrefl 0), fun _ => rfl⟩

lemma Consistent.step {c d : WebSocketMudConnection} {e : Event} (h : c.Consistent)
    (hstep : Step c e d) : d.Consistent ∧ d.isTLS = c.isTLS := by
  cases e with
  | send =>
      obtain rfl := hstep
      unfold WebSocketMudConnection.send
      split_ifs
      · exact ⟨⟨h.stored, h.secure, h.plain⟩, rfl⟩
      · exact ⟨h, rfl⟩
      · exact ⟨h, rfl⟩
  | handshake failed =>
      obtain ⟨hpos, rfl⟩ := hstep
      have htls : c.isTLS = true := h.secure hpos
      cases failed with
      | true => exact ⟨⟨h.stored, fun _ => htls, h.plain⟩, rfl⟩
      | false => exact ⟨⟨by simp [onSecureConnect, htls], fun _ => htls, fun _ => rfl⟩, rfl⟩
  | accepted failed =>
      obtain ⟨-, rfl⟩ := hstep
      cases failed with
      | true => exact ⟨⟨h.stored, h.secure, h.plain⟩, rfl⟩
      | false => exact ⟨⟨h.stored, h.secure, h.plain⟩, rfl⟩

/-- `receive` picks the member stored exactly if there is no TLS handshake left to do. -/
lemma Consistent.streamed_iff {c : WebSocketMudConnection} (h : c.Consistent) :
    (if c.isTLS then .tlsWebsocket else .websocket) = c.conn ↔ c.isTLS = true → c.wsock = true := by
  rw [h.stored]
  cases htls : c.isTLS with
  | true => cases c.wsock <;> simp
  | false => simp [h.plain htls]

end WebSocketMudConnection

namespace AnyConnection

/-- What the flags pick is the member stored last, for the destructor and for `receive` and
`send`. -/
structure SelectsStored (c : AnyConnection) : Prop where
  deleted : c.deleted = c.base.conn
  streamed : c.streamed = c.base.conn

/-- The member stored last is the one that goes with the flags of the connection. -/
def Sound : AnyConnection → Prop
  | .telnet c => c.Holds c.isTLS (if c.isTLS then .securePeer else .peer)
  | .webSocket c => c.Consistent

/-- No WebSocket connection without its WebSocket step is encrypted. -/
def Upgraded : AnyConnection → Prop
  | .telnet _ => True
  | .webSocket c => c.isTLS = true → c.wsock = true

variable {c d : AnyConnection}

lemma Sound.deleted (h : c.Sound) : c.deleted = c.base.conn := by
  cases c with
  | telnet c => simpa [AnyConnection.deleted, base, wsock] using h.2.symm
  | webSocket c => exact (WebSocketMudConnection.Consistent.stored h).symm

lemma Sound.selectsStored_iff (h : c.Sound) : c.SelectsStored ↔ c.Upgraded := by
  have hdeleted := h.deleted
  cases c with
  | telnet c => exact ⟨fun _ => trivial, fun _ => ⟨hdeleted, h.2.symm⟩⟩
  | webSocket c =>
      have hstreamed := WebSocketMudConnection.Consistent.streamed_iff h
      exact ⟨fun hs => hstreamed.mp hs.streamed, fun hu => ⟨hdeleted, hstreamed.mpr hu⟩⟩

lemma sound_onConnect (type : MudConnectionType) (connId : UInt32) (isTLS hasConnectCB : Bool) :
    (new type connId isTLS hasConnectCB).onConnect.Sound ∧
      (new type connId isTLS hasConnectCB).onConnect.base.isTLS = isTLS := by
  cases type with
  | telnet =>
      have hconn : (TelnetMudConnection.new connId isTLS hasConnectCB).onConnect.Holds isTLS
          (if isTLS then .securePeer else .peer) := by
        cases isTLS with
        | true => exact ⟨rfl, rfl⟩
        | false =>
            have hnew : (TelnetMudConnection.new connId false hasConnectCB).Holds false .peer :=
              ⟨rfl, rfl⟩
            exact hnew.start
      refine ⟨⟨rfl, ?_⟩, hconn.1⟩
      rw [hconn.1]
      exact hconn.2
  | webSocket =>
      refine ⟨WebSocketMudConnection.consistent_onConnect connId isTLS hasConnectCB, ?_⟩
      cases isTLS <;> rfl

/-- A connection that waits for a handshake first is not upgraded yet. -/
lemma upgraded_onConnect_iff (type : MudConnectionType) (connId : UInt32)
    (isTLS hasConnectCB : Bool) :
    (new type connId isTLS hasConnectCB).onConnect.Upgraded ↔
      (type = .webSocket → isTLS = false) := by
  cases type with
  | telnet => exact ⟨fun _ h => absurd h (by decide), fun _ => trivial⟩
  | webSocket =>
      cases isTLS with
      | true => exact ⟨fun h => Bool.noConfusion (h rfl), fun h => Bool.noConfusion (h rfl)⟩
      | false => exact ⟨fun _ _ => rfl, fun _ _ => rfl⟩

example : (new .webSocket 0 true true).onConnect.streamed = .tlsWebsocket ∧
    (new .webSocket 0 true true).onConnect.base.conn = .securePeer := ⟨rfl, rfl⟩

lemma Sound.step {e : Event} (h : c.Sound) (hstep : Step c e d) :
    d.Sound ∧ d.base.isTLS = c.base.isTLS := by
  rcases step_cases hstep with ⟨c, e, d, rfl, rfl, rfl, hcd⟩ | ⟨c, e, d, rfl, rfl, rfl, hcd⟩
  · have hd := TelnetMudConnection.Holds.step h hcd
    refine ⟨⟨rfl, ?_⟩, hd.1⟩
    rw [hd.1]
    exact hd.2
  · exact WebSocketMudConnection.Consistent.step h hcd

lemma Upgraded.step {e : Event} (h : c.Upgraded) (hstep : Step c e d) : d.Upgraded := by
  rcases step_cases hstep with ⟨c, e, d, rfl, rfl, rfl, -⟩ | ⟨c, e, d, rfl, rfl, rfl, hcd⟩
  · trivial
  · cases e with
    | send =>
        obtain rfl := hcd
        unfold WebSocketMudConnection.send
        split_ifs <;> exact h
    | handshake failed =>
        obtain ⟨-, rfl⟩ := hcd
        cases failed with
        | true => exact h
        | false => exact fun _ => rfl
    | accepted failed =>
        obtain ⟨-, rfl⟩ := hcd
        cases failed <;> exact h

end AnyConnection

/-! ### The manager -/

namespace PortalListener

/-- `ssl_con` holds what the listener was registered with: the context of that name, which
is not null, or the null pointer. -/
def Right (contexts : Table fun e : String × SslContext => e.1) (l : PortalListener) : Prop :=
  match l.sslName with
  | none => l.context = none
  | some n => ∃ k, contexts.find? n = some (n, some k) ∧ l.context = some k

lemma right_iff {contexts : Table fun e : String × SslContext => e.1} {l : PortalListener} :
    l.Right contexts ↔ l.context.isSome = l.sslName.isSome ∧ ∀ n, l.sslName = some n →
      ∃ k, contexts.find? n = some (n, some k) ∧ l.context = some k := by
  unfold Right
  cases hname : l.sslName with
  | none => simp
  | some n =>
      constructor
      · rintro ⟨k, hk, hcontext⟩
        refine ⟨by simp [hcontext], fun m hm => ?_⟩
        cases hm
        exact ⟨k, hk, hcontext⟩
      · exact fun h => h.2 n rfl

/-- It is no WebSocket listener with a context, whose connections wait for a TLS handshake before
they are upgraded. -/
def Direct (l : PortalListener) : Prop := l.listener.type = .webSocket → l.context = none

end PortalListener

namespace Accepted

/-- The connection is encrypted exactly if its listener was registered with an `ssl_name`,
with the context of that name, and its flags always pick the member stored. -/
structure Secure (contexts : Table fun e : String × SslContext => e.1) (a : Accepted) :
    Prop where
  tls : a.connection.base.isTLS = a.sslName.isSome
  upgraded : ∀ n, a.sslName = some n →
    ∃ k, contexts.find? n = some (n, some k) ∧ a.upgrade = some (some k)
  plain : a.sslName = none → a.upgrade = none
  stored : a.connection.SelectsStored

end Accepted

namespace Portal

/-- **The destructor** deletes the member stored, of every connection in every run, whatever the
memory of its listener holds. -/
theorem deleted_of_run (addresses : List String)
    (sslContexts : Table fun e : String × SslContext => e.1) (onConnectCB : Bool)
    (tr : List (Event × Portal)) (h : Run Step (new addresses sslContexts onConnectCB) tr) :
    ∀ c ∈ (final (new addresses sslContexts onConnectCB) tr).made, c.deleted = c.base.conn := by
  have hrun := run_composed h (counts_new addresses sslContexts onConnectCB)
  have hsound := (composed onConnectCB).invariant (I := AnyConnection.Sound) ?_
    (fun c k d hc hstep => (hc.step hstep).1) hrun fun c hc => absurd hc List.not_mem_nil
  · exact fun c hc => (hsound c hc).deleted
  · rintro i c ⟨type, isTLS, rfl⟩
    exact (AnyConnection.sound_onConnect type _ isTLS onConnectCB).1

/-- Every connection accepted so far. -/
def Secured (p : Portal) : Prop := ∀ a ∈ p.heap, a.Secure p.sslContexts

/-- A listener that accepts a connection happens to hold the context it should, and is no
WebSocket listener if that is one. -/
def AcceptsRight (p : Portal) : Event → Prop
  | .accept name false => ∀ l, p.listeners.find? name = some l →
      l.Right p.sslContexts ∧ l.Direct
  | _ => True

/-- **The accept decides**: a connection is secure exactly if the listener's `ssl_con` is right
when it comes in, and there is nothing to wait for before a WebSocket step. -/
lemma exists_accepted (p : Portal) (l : PortalListener) : ∃ a, (p.accept l).heap = p.heap ++ [a] ∧
    a.connection.Sound ∧ (a.Secure p.sslContexts ↔ l.Right p.sslContexts ∧ l.Direct) := by
  obtain ⟨hsound, htls⟩ := AnyConnection.sound_onConnect l.listener.type p.nextId
    l.listener.sslCon p.onConnectCB
  have hflag := htls.trans l.agrees
  have hdirect : (AnyConnection.new l.listener.type p.nextId l.listener.sslCon
      p.onConnectCB).onConnect.SelectsStored ↔ l.Direct := by
    rw [hsound.selectsStored_iff, AnyConnection.upgraded_onConnect_iff, PortalListener.Direct,
      l.agrees]
    cases l.context <;> simp
  have hbase : (AnyConnection.new l.listener.type p.nextId l.listener.sslCon
      p.onConnectCB).base.isTLS = l.context.isSome := by
    rw [← l.agrees]
    cases l.listener.type <;> rfl
  refine ⟨_, rfl, hsound, ?_⟩
  rw [PortalListener.right_iff]
  constructor
  · rintro ⟨htls, hupgraded, -, hstored⟩
    refine ⟨⟨hflag.symm.trans htls, fun n hname => ?_⟩, hdirect.mp hstored⟩
    obtain ⟨k, hk, hupgrade⟩ := hupgraded n hname
    dsimp only at hupgrade
    rw [hbase] at hupgrade
    split_ifs at hupgrade
    exact ⟨k, hk, Option.some.inj hupgrade⟩
  · rintro ⟨⟨hsome, hright⟩, hl⟩
    refine ⟨hflag.trans hsome, fun n hname => ?_, fun hname => ?_, hdirect.mpr hl⟩
    · obtain ⟨k, hk, hcontext⟩ := hright n hname
      exact ⟨k, hk, by simp [hbase, hcontext]⟩
    · have hnone : l.sslName = none := hname
      simp [hbase, hsome, hnone]

/-- What holds of a connection accepted, and what its steps need. -/
def SoundlySecured (p : Portal) : Prop :=
  p.Secured ∧ ∀ a ∈ p.heap, a.connection.Sound

lemma SoundlySecured.step {p p' : Portal} {e : Event} (h : p.SoundlySecured)
    (hright : p.AcceptsRight e) (hstep : Step p e p') : p'.SoundlySecured := by
  cases e with
  | registerListener name address type sslName memory =>
      obtain rfl := hstep
      split
      · next q hq =>
          obtain ⟨con, rfl⟩ := registerListener_ok hq
          exact h
      · exact h
  | start name =>
      obtain ⟨l, hl, rfl⟩ := hstep
      exact h
  | stop name =>
      obtain ⟨l, hl, rfl⟩ := hstep
      exact h
  | accept name failed =>
      obtain ⟨l, hl, -, rfl⟩ := hstep
      cases failed with
      | true => exact h
      | false =>
          obtain ⟨a, hheap, hsound, hiff⟩ := p.exists_accepted l
          refine ⟨fun a' ha' => ?_, fun a' ha' => ?_⟩
          all_goals
            have hmem : a' ∈ p.heap ++ [a] := hheap ▸ ha'
            rcases List.mem_append.mp hmem with hold | hnew
          · exact h.1 a' hold
          · rw [List.mem_singleton.mp hnew]
            exact hiff.mpr (hright l hl)
          · exact h.2 a' hold
          · rwa [List.mem_singleton.mp hnew]
  | connection i e =>
      obtain ⟨a, d, ha, hmove, rfl⟩ := hstep
      obtain ⟨t, ht⟩ := p.update_eq i a d
      have hmem : a ∈ p.heap := List.mem_of_getElem? ha
      obtain ⟨hsound, htls⟩ := (h.2 a hmem).step hmove
      have hupgraded := ((h.2 a hmem).selectsStored_iff.mp (h.1 a hmem).stored).step hmove
      have hstored := hsound.selectsStored_iff.mpr hupgraded
      rw [ht]
      refine ⟨fun a' ha' => ?_, fun a' ha' => ?_⟩
      all_goals rcases List.mem_or_eq_of_mem_set ha' with hold | rfl
      · exact h.1 a' hold
      · exact { h.1 a hmem with tls := htls.trans (h.1 a hmem).tls, stored := hstored }
      · exact h.2 a' hold
      · exact hsound

end Portal

end ForgeMush

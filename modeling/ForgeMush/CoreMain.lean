import ForgeMush.Restart
import ForgeMush.Wrapping

/-!
The program `core`.

It creates one Telnet listener with a `QSslConfiguration` that is null, starts it and runs the
event loop. So nothing is encrypted, and every socket is wrapped as soon as it connects.
-/

namespace ForgeMush.Mudcore

open Runs

variable {σ : Type} {q : QTcpServer σ}

namespace QMudServerCore

/-- `main`, up to the call of `exec`. -/
def main (q : QTcpServer σ) : QMudServerCore σ :=
  (QMudServerCore.createListener q {} "telnet" "0.0.0.0" 7999 true .telnet).startListening q

/-- All that happens is what sockets and connections do. -/
def Event.Outside (e : Event) : Prop := e.created = none ∧ e.starts = none

def plainServer (n : ℕ) : QSslServer Unit where
  base := ()
  noConfig := true
  sockets := List.replicate n { encrypted := false }

/-- The server has taken `n` sockets, which are wrapped in their order, and there is one name for
all connections. -/
structure Serving (n : ℕ) (c : QMudServerCore σ) : Prop where
  names : c.names = ["telnet"]
  servers : c.servers = [some (plainServer n)]
  links : c.links = (List.range n).map fun s => (0, s)
  connections : ∀ x ∈ c.connections.rows, x.1 = "telnet_test_conn"

variable {c c' : QMudServerCore σ} {e : Event} {n : ℕ}

lemma serving_main (q : QTcpServer σ) : Serving 0 (main q) where
  names := names_forListeners _ fun l => l.start_objectName
  servers := servers_forListeners _ fun l => bare_start l
  links := rfl
  connections := fun _ hx => absurd hx List.not_mem_nil

lemma Serving.connections_step (h : Serving n c) (hstep : Step q c e c') :
    ∀ x ∈ c'.connections.rows, x.1 = "telnet_test_conn" := by
  have heffect := effect_of_step hstep
  cases haccepted : e.accepted with
  | none =>
      rw [heffect.unaccepted haccepted]
      exact h.connections
  | some x =>
      obtain ⟨name, -, hname, hconnections⟩ := heffect.accepted x.1 x.2 haccepted
      rw [h.names] at hname
      have htelnet : name = "telnet" := List.mem_singleton.mp (List.mem_of_getElem? hname)
      intro y hy
      rw [hconnections] at hy
      rcases Table.mem_insert.mp hy with rfl | ⟨hy, -⟩
      · rw [htelnet]
        rfl
      · exact h.connections y hy

lemma handle_plainServer {k : QSslServer.Event} (h : (plainServer n).Enabled k) :
    (plainServer n).handle k = (plainServer n, []) ∨
      (plainServer n).handle k = (plainServer (n + 1), [n]) := by
  cases k with
  | incomingConnection ok =>
      cases ok with
      | false => exact Or.inl rfl
      | true =>
          right
          simp [QSslServer.handle, QSslServer.incomingConnection, plainServer,
            List.replicate_succ']
  | encrypts s => cases h.1
  | encrypted s order => cases h.1

lemma serverEvent_serving {i : ℕ} {k : QSslServer.Event} {l : QMudListener σ} {v : QSslServer σ}
    (h : Serving n c) (hl : c.listenerHeap[i]? = some l) (hv : l.listener = some v)
    (henabled : v.Enabled k) :
    ∃ n', (c.serverEvent i l v k).servers = [some (plainServer n')] ∧
      (c.serverEvent i l v k).links = (List.range n').map fun s => (0, s) := by
  obtain ⟨hlinks, hservers⟩ := c.effect_of_server i l v k
  have hserver := servers_getElem? hl hv
  rw [h.servers] at hserver hservers
  rw [h.links] at hlinks
  cases i with
  | succ i => cases hserver
  | zero =>
      have hbare : v.bare = plainServer n := (Option.some.inj (Option.some.inj hserver)).symm
      have hhandle := v.bare_handle k
      rw [← v.enabled_bare, hbare] at henabled
      rw [hbare] at hhandle
      rcases handle_plainServer henabled with hk | hk
      · rw [hk, Prod.mk.injEq] at hhandle
        refine ⟨n, ?_, ?_⟩
        · rw [hservers, ← hhandle.1]
          rfl
        · rw [hlinks, ← hhandle.2, List.map_nil, List.append_nil]
      · rw [hk, Prod.mk.injEq] at hhandle
        refine ⟨n + 1, ?_, ?_⟩
        · rw [hservers, ← hhandle.1]
          rfl
        · rw [hlinks, ← hhandle.2, List.range_succ, List.map_append, List.map_singleton]

lemma Serving.step (h : Serving n c) (he : e.Outside) (hstep : Step q c e c') :
    ∃ n', Serving n' c' := by
  have hconnections := h.connections_step hstep
  have hnames : c'.names = ["telnet"] := by
    rw [(effect_of_step hstep).names, he.1, h.names]
    rfl
  cases e with
  | createListener => cases he.1
  | startListening | stopListening => cases he.2
  | server i k =>
      obtain ⟨l, v, hl, hv, henabled, -, rfl⟩ := hstep
      obtain ⟨n', hservers, hlinks⟩ := serverEvent_serving h hl hv henabled
      exact ⟨n', hnames, hservers, hlinks, hconnections⟩
  | telnetReady i j =>
      obtain ⟨l, conn, hl, hconn, rfl, rfl⟩ := hstep
      have hservers : (c.telnetReady conn.parent j conn l).servers = c.servers :=
        map_set_of_eq hl rfl
      have hlinks : (c.telnetReady conn.parent j conn l).links = c.links :=
        map_set_of_eq hconn rfl
      exact ⟨n, hnames, hservers.trans h.servers, hlinks.trans h.links, hconnections⟩

/-- **The program `core`**, in every state that it reaches: all the sockets taken are in one
connection each, in the order in which they connected, and none is encrypted; and however many
there are, the core has one name for the connections that are ready. -/
theorem main_serves (q : QTcpServer σ) (tr : List (Event × QMudServerCore σ))
    (h : Run (Step q) (main q) tr) (he : ∀ e ∈ events tr, e.Outside) :
    ∃ n, Serving n (final (main q) tr) :=
  (h.restrict_events he).invariant (I := fun c => ∃ n, Serving n c)
    (fun _ _ _ ⟨_, hs⟩ hstep => hs.step hstep.2 hstep.1) ⟨0, serving_main q⟩

theorem two_clients_served : ∃ tr : List (Event × QMudServerCore (Bool × Bool)),
    Run (Step flags) (main flags) tr ∧
    events tr = [.server 0 (.incomingConnection true), .server 0 (.incomingConnection true),
      .telnetReady 0 0, .telnetReady 0 1] ∧
    (final (main flags) tr).wrapped 0 = [0, 1] ∧
    (final (main flags) tr).connections.rows = [("telnet_test_conn", 1)] ∧
    ∃ n, Serving n (final (main flags) tr) := by
  have hrun : Run (Step flags) (main flags) [(.server 0 (.incomingConnection true), _),
      (.server 0 (.incomingConnection true), _), (.telnetReady 0 0, _),
      (.telnetReady 0 1, _)] :=
    .cons ⟨_, _, rfl, rfl, trivial, fun _ _ => rfl, rfl⟩
      (.cons ⟨_, _, rfl, rfl, trivial, fun _ _ => rfl, rfl⟩
        (.cons ⟨_, _, rfl, rfl, rfl, rfl⟩ (.cons ⟨_, _, rfl, rfl, rfl, rfl⟩ (.nil _))))
  refine ⟨_, hrun, rfl, rfl, by decide, main_serves flags _ hrun fun e he => ?_⟩
  have houtside : e = .server 0 (.incomingConnection true) ∨ e = .telnetReady 0 0 ∨
      e = .telnetReady 0 1 := by
    simpa [events] using he
  rcases houtside with rfl | rfl | rfl <;> exact ⟨rfl, rfl⟩

end QMudServerCore

end ForgeMush.Mudcore

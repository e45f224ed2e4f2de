import ForgeMush.Components
import ForgeMush.HandOff
import ForgeMush.Keeping

/-!
The sockets of a core and the connections that they are wrapped in.

The core is made up of its servers, each with the sockets that its listener has wrapped. What
happens to the listeners' names and to the core's hashes has no part in it.
-/

namespace ForgeMush.Mudcore

open Runs

variable {σ : Type} {q : QTcpServer σ}

/-- The server apart from the `QTcpServer` that it is. -/
def QSslServer.bare (v : QSslServer σ) : QSslServer Unit where
  base := ()
  noConfig := v.noConfig
  pendingSsl := v.pendingSsl
  sockets := v.sockets

lemma QSslServer.bare_handle (v : QSslServer σ) (e : QSslServer.Event) :
    v.bare.handle e = ((v.handle e).1.bare, (v.handle e).2) := by
  cases e with
  | incomingConnection ok =>
      rw [handle, handle, incomingConnection, incomingConnection, bare]
      dsimp only
      split_ifs <;> rfl
  | encrypts s => rfl
  | encrypted s order => rfl

lemma QSslServer.enabled_bare (v : QSslServer σ) (e : QSslServer.Event) :
    v.bare.Enabled e ↔ v.Enabled e := by
  cases e <;> exact Iff.rfl

/-- A server, and the sockets that connections have been constructed for. -/
structure Wrapper where
  server : QSslServer Unit
  wrapped : List ℕ := []

namespace Wrapper

def Step (w : Wrapper) (e : QSslServer.Event) (w' : Wrapper) : Prop :=
  w.server.Enabled e ∧ w' = {
    server := (w.server.handle e).1
    wrapped := w.wrapped ++ (w.server.handle e).2 }

/-- Every socket is either pending or wrapped, and wrapped once; and if the server has a
configuration it is encrypted before. -/
structure Sound (w : Wrapper) : Prop where
  once : w.wrapped.Nodup
  all : ∀ s, s < w.server.sockets.length ↔ s ∈ w.server.pendingSsl ∨ s ∈ w.wrapped
  apart : ∀ s ∈ w.wrapped, s ∉ w.server.pendingSsl
  encrypted : w.server.noConfig = false → ∀ s ∈ w.wrapped, w.server.isEncrypted s = true

/-- With a configuration it is a hand-off. -/
def handOff (w : Wrapper) : HandOff Unit where
  server := w.server
  emitted := w.wrapped

variable {w w' : Wrapper} {e : QSslServer.Event}

lemma sound_iff_divided (h : w.server.noConfig = false) : w.Sound ↔ w.handOff.Divided := by
  constructor
  · rintro ⟨honce, hall, hapart, hencrypted⟩
    exact ⟨h, honce, hall, hapart, hencrypted h, fun s hs => absurd hs List.not_mem_nil⟩
  · rintro ⟨-, honce, hall, hapart, hencrypted, -⟩
    exact ⟨honce, hall, hapart, fun _ => hencrypted⟩

lemma Sound.connects (h : w.Sound) (hconfig : w.server.noConfig = true) (hstep : Step w e w') :
    w'.Sound := by
  obtain ⟨henabled, rfl⟩ := hstep
  cases e with
  | incomingConnection ok =>
      cases ok with
      | false => simpa [QSslServer.handle, QSslServer.incomingConnection] using h
      | true =>
          have hnew : ∀ s ∈ w.wrapped, s < w.server.sockets.length :=
            fun s hs => (h.all s).mpr (Or.inr hs)
          have hpending : w.server.sockets.length ∉ w.server.pendingSsl := fun hmem =>
            absurd ((h.all _).mpr (Or.inl hmem)) (Nat.lt_irrefl _)
          have hhandle : w.server.handle (.incomingConnection true) =
              ({ w.server with sockets := w.server.sockets ++ [{ encrypted := false }] },
                [w.server.sockets.length]) := by
            simp [QSslServer.handle, QSslServer.incomingConnection, hconfig]
          rw [hhandle]
          refine ⟨h.once.append (List.nodup_singleton _) ?_, fun s => ?_, fun s hs => ?_, ?_⟩
          · intro s hs hs'
            rw [List.mem_singleton.mp hs'] at hs
            exact Nat.lt_irrefl _ (hnew _ hs)
          · have hall := h.all s
            simp only [List.length_append, List.length_singleton, List.mem_append,
              List.mem_singleton]
            rw [Nat.lt_succ_iff_lt_or_eq, hall, or_assoc]
          · rcases List.mem_append.mp hs with hs | hs
            · exact h.apart s hs
            · exact List.mem_singleton.mp hs ▸ hpending
          · intro hconfig'
            exact absurd (hconfig.symm.trans hconfig') Bool.noConfusion
  | encrypts s => exact absurd (hconfig.symm.trans henabled.1) Bool.noConfusion
  | encrypted s order => exact absurd (hconfig.symm.trans henabled.1) Bool.noConfusion

lemma Sound.step (h : w.Sound) (hstep : Step w e w') : w'.Sound := by
  cases hconfig : w.server.noConfig with
  | true => exact h.connects hconfig hstep
  | false =>
      obtain ⟨henabled, rfl⟩ := hstep
      have hhandOff : HandOff.Step w.handOff e _ := ⟨henabled, rfl⟩
      obtain ⟨hconfig', honce, hall, hapart, hencrypted, -⟩ :=
        ((sound_iff_divided hconfig).mp h).step hhandOff
      exact ⟨honce, hall, hapart, fun _ => hencrypted⟩

end Wrapper

/-! ### The core -/

namespace QMudServerCore

/-- The connections constructed, each by its listener and its socket. -/
def links (c : QMudServerCore σ) : List (ℕ × ℕ) :=
  c.connectionHeap.map fun conn => (conn.parent, conn.socket)

/-- The sockets in the connections of the listener `i`. -/
def wrapped (c : QMudServerCore σ) (i : ℕ) : List ℕ :=
  (c.links.filter fun x => x.1 = i).map Prod.snd

/-- The servers of the listeners, where they have one. -/
def servers (c : QMudServerCore σ) : List (Option (QSslServer Unit)) :=
  c.listenerHeap.map fun l => l.listener.map QSslServer.bare

def wrappers (c : QMudServerCore σ) : List (Option Wrapper) :=
  c.servers.mapIdx fun i v => v.map fun v => ⟨v, c.wrapped i⟩

/-- The server that the event happens to. -/
def Event.inner : Event → Option (ℕ × QSslServer.Event)
  | .server i e => some (i, e)
  | _ => none

/-- The listeners of all connections have been constructed. -/
def Parented (c : QMudServerCore σ) : Prop := ∀ x ∈ c.links, x.1 < c.servers.length

/-- The server has no socket yet, if there is one. -/
def Unused (w : Option Wrapper) : Prop :=
  ∀ v ∈ w, v.server.sockets = [] ∧ v.server.pendingSsl = ∅ ∧ v.wrapped = []

variable {c c' : QMudServerCore σ} {e : Event} {i : ℕ}

/-! What a step does to servers and connections. -/

lemma servers_forListeners (c : QMudServerCore σ) {f : QMudListener σ → QMudListener σ}
    (hf : ∀ l, (f l).listener.map QSslServer.bare = l.listener.map QSslServer.bare) :
    (c.forListeners f).servers = c.servers :=
  map_forListeners _ c hf

lemma bare_start (l : QMudListener σ) :
    (l.start q).1.listener.map QSslServer.bare = l.listener.map QSslServer.bare := by
  unfold QMudListener.start
  split
  · next v hv =>
      split_ifs
      · rfl
      · rw [hv]
        rfl
  · rfl

lemma bare_stop (l : QMudListener σ) :
    (l.stop q).1.listener.map QSslServer.bare = l.listener.map QSslServer.bare := by
  unfold QMudListener.stop
  split
  · next v hv =>
      split_ifs
      · rw [hv]
        rfl
      · rfl
  · rfl

lemma effect_of_inner_none (hstep : Step q c e c') (hinner : e.inner = none) :
    c'.links = c.links ∧ (c'.servers = c.servers ∨ ∃ v, c'.servers = c.servers ++ [v] ∧
      ∀ w ∈ v, w.sockets = [] ∧ w.pendingSsl = ∅) := by
  cases e with
  | createListener name interface port noConfig type =>
      obtain rfl := hstep
      refine ⟨rfl, Or.inr ⟨_, List.map_append, ?_⟩⟩
      cases type with
      | telnet =>
          rintro w hw
          cases hw
          exact ⟨rfl, rfl⟩
      | webSocket => exact fun w hw => by cases hw
  | startListening =>
      obtain rfl := hstep
      exact ⟨rfl, Or.inl (c.servers_forListeners fun l => bare_start l)⟩
  | stopListening =>
      obtain rfl := hstep
      exact ⟨rfl, Or.inl (c.servers_forListeners fun l => bare_stop l)⟩
  | server i e => cases hinner
  | telnetReady i j =>
      obtain ⟨l, conn, hl, hconn, rfl, rfl⟩ := hstep
      exact ⟨map_set_of_eq hconn rfl, Or.inl (map_set_of_eq hl rfl)⟩

lemma effect_of_server (c : QMudServerCore σ) (i : ℕ) (l : QMudListener σ) (v : QSslServer σ)
    (k : QSslServer.Event) :
    (c.serverEvent i l v k).links = c.links ++ (v.handle k).2.map (fun s => (i, s)) ∧
      (c.serverEvent i l v k).servers = c.servers.set i (some (v.handle k).1.bare) := by
  rw [serverEvent]
  dsimp only
  rw [foldl_acceptTelnetConnection]
  constructor
  · rw [links, List.map_append, List.map_map]
    rfl
  · rw [servers, List.map_set]
    rfl

lemma servers_getElem? {l : QMudListener σ} {v : QSslServer σ} (hl : c.listenerHeap[i]? = some l)
    (hv : l.listener = some v) : c.servers[i]? = some (some v.bare) := by
  rw [servers, List.getElem?_map, hl, Option.map_some, hv, Option.map_some]

lemma wrapped_of_links {j : ℕ} {ready : List ℕ}
    (h : c'.links = c.links ++ ready.map fun s => (i, s)) :
    c'.wrapped j = c.wrapped j ++ if i = j then ready else [] := by
  rw [wrapped, h, List.filter_append, List.map_append]
  congr 1
  split_ifs with hij
  · subst hij
    simp [List.filter_map, Function.comp_def]
  · simp [List.filter_map, Function.comp_def, hij]

lemma Parented.step (h : c.Parented) (hstep : Step q c e c') : c'.Parented := by
  cases hinner : e.inner with
  | none =>
      obtain ⟨hlinks, hservers⟩ := effect_of_inner_none hstep hinner
      intro x hx
      rw [hlinks] at hx
      refine (h x hx).trans_le ?_
      rcases hservers with hservers | ⟨v, hservers, -⟩
      · rw [hservers]
      · rw [hservers, List.length_append]
        exact Nat.le_add_right _ _
  | some k =>
      cases e with
      | server i k =>
          obtain ⟨l, v, hl, -, -, -, rfl⟩ := hstep
          obtain ⟨hlinks, hservers⟩ := c.effect_of_server i l v k
          intro x hx
          rw [hservers, List.length_set]
          rw [hlinks] at hx
          rcases List.mem_append.mp hx with hx | hx
          · exact h x hx
          · obtain ⟨s, -, rfl⟩ := List.mem_map.mp hx
            rw [servers, List.length_map]
            exact (List.getElem?_eq_some_iff.mp hl).1
      | _ => cases hinner

/-- The own step of a server. -/
def Moves (w : Option Wrapper) (k : QSslServer.Event) (w' : Option Wrapper) : Prop :=
  ∃ v v', w = some v ∧ w' = some v' ∧ v.Step k v'

/-- **A core is made up of its servers**, each with the sockets that are wrapped. -/
lemma composed : Composed (fun c e c' => Parented c ∧ Step q c e c') Moves
    (wrappers (σ := σ)) Event.inner fun _ => Unused where
  moves c e c' i k hstep hinner := by
    obtain ⟨-, hstep⟩ := hstep
    cases e with
    | server j e =>
        cases hinner
        obtain ⟨l, v, hl, hv, henabled, -, rfl⟩ := hstep
        obtain ⟨hlinks, hservers⟩ := c.effect_of_server i l v k
        have hserver := servers_getElem? hl hv
        obtain ⟨hi, -⟩ := List.getElem?_eq_some_iff.mp hserver
        refine ⟨_, _, by rw [wrappers, List.getElem?_mapIdx, hserver]; rfl, ⟨_, _, rfl, rfl,
          (v.enabled_bare k).mpr henabled, rfl⟩, ?_⟩
        ext1 j
        rw [wrappers, List.getElem?_mapIdx, hservers, List.getElem?_set, List.getElem?_set,
          wrappers, List.length_mapIdx, List.getElem?_mapIdx, wrapped_of_links hlinks,
          v.bare_handle]
        split_ifs with hij
        · subst hij
          rfl
        · rw [List.append_nil]
    | _ => cases hinner
  grows c e c' hstep hinner := by
    obtain ⟨hparented, hstep⟩ := hstep
    obtain ⟨hlinks, hservers⟩ := effect_of_inner_none hstep hinner
    have hwrapped : ∀ i, c'.wrapped i = c.wrapped i := fun i => by rw [wrapped, wrapped, hlinks]
    rcases hservers with hservers | ⟨v, hservers, hv⟩
    · refine ⟨[], ?_, by simp⟩
      simp only [wrappers, hservers, hwrapped, List.append_nil]
    · have hnone : c.wrapped c.servers.length = [] := by
        rw [wrapped, List.map_eq_nil_iff, List.filter_eq_nil_iff]
        intro x hx
        simpa using (hparented x hx).ne
      refine ⟨[v.map fun v => ⟨v, c.wrapped c.servers.length⟩], ?_, fun j w hw => ?_⟩
      · simp only [wrappers, hservers, hwrapped, List.mapIdx_append, List.mapIdx_cons,
          List.mapIdx_nil, Nat.zero_add]
      · obtain ⟨-, rfl⟩ : j = 0 ∧ v.map (fun v => ⟨v, c.wrapped c.servers.length⟩) = w := by
          cases j with
          | zero => exact ⟨rfl, Option.some.inj hw⟩
          | succ j => cases hw
        intro u hu
        obtain ⟨v', hv', rfl⟩ := Option.map_eq_some_iff.mp hu
        obtain ⟨hsockets, hpending⟩ := hv v' hv'
        exact ⟨hsockets, hpending, hnone⟩

lemma sound_of_run {tr : List (Event × QMudServerCore σ)} (h : Run (Step q) {} tr)
    {l : QMudListener σ} {v : QSslServer σ} (hl : (final {} tr).listenerHeap[i]? = some l)
    (hv : l.listener = some v) : Wrapper.Sound ⟨v.bare, (final {} tr).wrapped i⟩ := by
  have hrun : Run (fun c e c' => Parented c ∧ Step q c e c') {} tr :=
    h.steps (fun _ _ _ hc hstep => ⟨hc.step hstep, hc, hstep⟩)
      fun x hx => absurd hx List.not_mem_nil
  have hsound := (composed (q := q)).invariant (I := fun w => ∀ u ∈ w, u.Sound) ?_ ?_ hrun
    fun w hw => absurd hw List.not_mem_nil
  · have hmem : some ⟨v.bare, (final {} tr).wrapped i⟩ ∈ (final {} tr).wrappers := by
      refine List.mem_of_getElem? (i := i) ?_
      rw [wrappers, List.getElem?_mapIdx, servers_getElem? hl hv]
      rfl
    exact hsound _ hmem _ rfl
  · rintro i w hfresh u hu
    obtain ⟨hsockets, hpending, hwrapped⟩ := hfresh u hu
    refine ⟨hwrapped ▸ List.nodup_nil, fun s => ?_, fun s hs => ?_, fun _ s hs => ?_⟩
    · simp [hsockets, hpending, hwrapped]
    · exact absurd (hwrapped ▸ hs) List.not_mem_nil
    · exact absurd (hwrapped ▸ hs) List.not_mem_nil
  · rintro w k w' hw ⟨u, u', rfl, rfl, hstep⟩ u'' hu
    cases hu
    exact (hw u rfl).step hstep

/-- **Every socket is wrapped once**: in every state that a core reaches, a socket that the server
of a listener has taken is pending or in one connection of that listener, not both and not in two;
and if the server has a configuration only encrypted sockets are. -/
theorem wrapped_of_run (tr : List (Event × QMudServerCore σ)) (h : Run (Step q) {} tr) (i : ℕ)
    (l : QMudListener σ) (v : QSslServer σ) (hl : (final {} tr).listenerHeap[i]? = some l)
    (hv : l.listener = some v) :
    ((final {} tr).wrapped i).Nodup ∧
    (∀ s, s < v.sockets.length ↔ s ∈ v.pendingSsl ∨ s ∈ (final {} tr).wrapped i) ∧
    ∀ s ∈ (final {} tr).wrapped i,
      s ∉ v.pendingSsl ∧ (v.noConfig = false → v.isEncrypted s = true) := by
  obtain ⟨honce, hall, hapart, hencrypted⟩ := sound_of_run h hl hv
  exact ⟨honce, hall, fun s hs => ⟨hapart s hs, fun hconfig => hencrypted hconfig s hs⟩⟩

/-- A socket connects to a listener with a configuration, and another one before it signals. -/
theorem encrypted_socket_wrapped : ∃ tr : List (Event × QMudServerCore (Bool × Bool)),
    Run (Step flags) {} tr ∧ (events tr).drop 2 = [.server 0 (.incomingConnection true),
      .server 0 (.incomingConnection true), .server 0 (.encrypts 0),
      .server 0 (.encrypted 0 [0, 1])] ∧
    (final {} tr).wrapped 0 = [0] ∧ ((final {} tr).wrapped 0).Nodup := by
  have hboth : ∀ s, s ∈ [0, 1] ↔ s ∈ insert 1 (insert 0 (∅ : Finset ℕ)) := by
    simp [or_comm]
  have hrun : Run (Step flags) {} [(.createListener "testing" "mine" 7999 false .telnet, _),
      (.startListening, _), (.server 0 (.incomingConnection true), _),
      (.server 0 (.incomingConnection true), _), (.server 0 (.encrypts 0), _),
      (.server 0 (.encrypted 0 [0, 1]), _)] :=
    .cons rfl (.cons rfl (.cons ⟨_, _, rfl, rfl, trivial, fun _ _ => rfl, rfl⟩
      (.cons ⟨_, _, rfl, rfl, trivial, fun _ _ => rfl, rfl⟩
        (.cons ⟨_, _, rfl, rfl, ⟨rfl, by decide⟩, (fun _ h => by cases h), rfl⟩
          (.cons ⟨_, _, rfl, rfl, ⟨rfl, rfl, by decide, hboth⟩, (fun _ h => by cases h), rfl⟩
            (.nil _))))))
  exact ⟨_, hrun, rfl, rfl, (wrapped_of_run _ hrun 0 _ _ rfl rfl).1⟩

end QMudServerCore

end ForgeMush.Mudcore

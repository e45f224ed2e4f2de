import ForgeMush.Accepting
import ForgeMush.Secured

/-!
The program `portal`.

It registers one listener without TLS, starts it and runs the event loop for ever. Nothing in it
calls the connections, so that all that happens is the completion of operations. Whether it serves
its clients in plain depends on what its memory holds where the listener is put.
-/

namespace ForgeMush

open Runs

def TelnetMudConnection.Event.Completes : TelnetMudConnection.Event → Prop
  | .sendNegotiate _ _ | .send | .processHandshake _ _ => False
  | _ => True

namespace Portal

/-- `main`, up to the call of `run`, with what the memory of the listener holds at `ssl_con`. -/
def main (memory : SslContext) : Portal :=
  match (new ["mine"] Table.empty true).registerListener "testing" "mine" .telnet none memory with
  | .ok p => p.startListening ["testing"]
  | .error _ => new ["mine"] Table.empty true

/-- An operation of a listener or of a Telnet connection completes. -/
def Event.Completes : Event → Prop
  | .accept _ _ => True
  | .connection _ (.telnet e) => e.Completes
  | _ => False

def mainListener (memory : SslContext) : PortalListener :=
  (PortalListener.new "testing" .telnet none none memory).start

/-- The program listens with one accept, and all its connections are Telnet ones, encrypted if the
memory of the listener has it so. -/
structure Serving (memory : SslContext) (p : Portal) : Prop where
  listeners : p.listeners.rows = [mainListener memory]
  heap : ∀ a ∈ p.heap, ∃ c, a.connection = .telnet c ∧ c.isTLS = memory.isSome

variable {memory : SslContext} {p q : Portal} {e : Event}

lemma serving_main (memory : SslContext) : Serving memory (main memory) where
  listeners := rfl
  heap := fun _ ha => absurd ha List.not_mem_nil

lemma accepted_mainListener (memory : SslContext) :
    (mainListener memory).accepted = mainListener memory := rfl

lemma Serving.step (h : Serving memory p) (he : e.Completes) (hstep : Step p e q) :
    Serving memory q := by
  cases e with
  | accept name failed =>
      obtain ⟨l, hl, -, rfl⟩ := hstep
      obtain ⟨hmem, rfl⟩ := Table.find?_eq_some_iff.mp hl
      rw [h.listeners, List.mem_singleton] at hmem
      subst hmem
      have hrows : (p.listeners.insert (mainListener memory).accepted).rows =
          [mainListener memory] := by
        rw [rows_insert_of_find? (·.name_accepted) hl, h.listeners, List.map_singleton,
          if_pos rfl, accepted_mainListener]
      cases failed with
      | true => exact ⟨hrows, h.heap⟩
      | false =>
          refine ⟨hrows, fun a ha => ?_⟩
          rcases List.mem_append.mp ha with ha | ha
          · exact h.heap a ha
          · rw [List.mem_singleton.mp ha]
            exact ⟨_, rfl, (AnyConnection.sound_onConnect .telnet p.nextId memory.isSome
              p.onConnectCB).2⟩
  | connection i k =>
      obtain ⟨a, d, ha, had, rfl⟩ := hstep
      obtain ⟨t, ht⟩ := p.update_eq i a d
      obtain ⟨c, hc, htls⟩ := h.heap a (List.mem_of_getElem? ha)
      rw [ht]
      refine ⟨h.listeners, fun b hb => ?_⟩
      rcases List.mem_or_eq_of_mem_set hb with hb | rfl
      · exact h.heap b hb
      · rcases AnyConnection.step_cases had with ⟨c', _, d, hc', -, rfl, hcd⟩ | ⟨_, _, _, hc', -⟩
        · rw [hc] at hc'
          cases hc'
          have hkept := TelnetMudConnection.Holds.step ⟨rfl, rfl⟩ hcd
          exact ⟨d, rfl, hkept.1.trans htls⟩
        · rw [hc] at hc'
          cases hc'
  | _ => exact he.elim

/-- **The program `portal`**, in every state that it reaches: one accept is outstanding, every
client has a Telnet connection, all of them are encrypted or none, and what is sent to a client is
the refusals of its requests, no more bytes than it has sent. -/
theorem serves_of_run (memory : SslContext) (tr : List (Event × Portal))
    (h : Run Step (main memory) tr) (he : ∀ e ∈ events tr, e.Completes) :
    Serving memory (final (main memory) tr) ∧
    ∀ (i : ℕ) (a : Accepted) (c : TelnetMudConnection),
      (final (main memory) tr).heap[i]? = some a → a.connection = .telnet c →
      Refuses (telnetEvents i tr) c := by
  constructor
  · exact (h.restrict_events he).invariant (fun _ _ _ hs hstep => hs.step hstep.2 hstep.1)
      (serving_main memory)
  · intro i a c ha hc
    -- a run of the program is one of the portal, after the two calls
    have hrun : Run Step (new ["mine"] Table.empty true)
        ((.registerListener "testing" "mine" .telnet none memory, _) ::
          (.start "testing", main memory) :: tr) := .cons rfl (.cons ⟨_, rfl, rfl⟩ h)
    have hown : ∀ m o, .connection i (.telnet (.sendNegotiate m o)) ∉ events tr :=
      fun m o hmem => he _ hmem
    exact refuses_run hrun ha hc (by simpa using hown)

theorem client_served : ∃ tr : List (Event × Portal), Run Step (main none) tr ∧
    events tr = [.accept "testing" false, .connection 0 (.telnet .timer),
      .connection 0 (.telnet (.read [255, 253, 1, 104, 105, 10]))] ∧
    Serving none (final (main none) tr) ∧ ∃ c, (final (main none) tr).made = [.telnet c] ∧
      c.sent = [(TelnetCode.WONT, 1)] ∧ c.commands = [[104, 105]] := by
  have hrun : Run Step (main none) [(.accept "testing" false, _),
      (.connection 0 (.telnet .timer), _),
      (.connection 0 (.telnet (.read [255, 253, 1, 104, 105, 10])), _)] :=
    .cons ⟨_, rfl, by decide, rfl⟩ (.cons ⟨_, .telnet _, rfl, ⟨by decide, rfl⟩, rfl⟩
      (.cons ⟨_, .telnet _, rfl, TelnetMudConnection.step_read (by decide) (by decide), rfl⟩
        (.nil _)))
  obtain ⟨hserving, hrefuses⟩ := serves_of_run none _ hrun (by simp [Event.Completes,
    TelnetMudConnection.Event.Completes])
  exact ⟨_, hrun, rfl, hserving, _, rfl, (hrefuses 0 _ _ rfl rfl).sent, by decide⟩

end Portal

end ForgeMush

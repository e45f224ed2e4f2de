import ForgeMush.QtServer

/-!
Handing encrypted sockets on.

`ssl_ready` does not know which socket has signalled and hands on all that are encrypted by
then. Every socket is either still pending or handed on, and one that signals finds itself
handed on, by its own signal if not by an earlier one.
-/

namespace ForgeMush.Mudcore

open Runs

variable {σ : Type}

namespace QSslServer

@[simp] lemma sslReady_snd (v : QSslServer σ) (order : List ℕ) :
    (v.sslReady order).2 = order.filter v.isEncrypted := rfl

@[simp] lemma sslReady_sockets (v : QSslServer σ) (order : List ℕ) :
    (v.sslReady order).1.sockets = v.sockets := rfl

lemma mem_sslReady_pending {v : QSslServer σ} {order : List ℕ}
    (horder : ∀ s, s ∈ order ↔ s ∈ v.pendingSsl) {s : ℕ} :
    s ∈ (v.sslReady order).1.pendingSsl ↔ s ∈ v.pendingSsl ∧ v.isEncrypted s = false := by
  simp only [sslReady, Finset.mem_sdiff, List.mem_toFinset, List.mem_filter, horder]
  cases v.isEncrypted s <;> simp

lemma lt_of_isEncrypted {v : QSslServer σ} {s : ℕ} (h : v.isEncrypted s = true) :
    s < v.sockets.length := by
  by_contra hge
  simp [isEncrypted, List.getElem?_eq_none (not_lt.mp hge)] at h

lemma isEncrypted_handle {v : QSslServer σ} (e : Event) {s : ℕ} (h : v.isEncrypted s = true) :
    (v.handle e).1.isEncrypted s = true := by
  have hlt := lt_of_isEncrypted h
  cases e with
  | incomingConnection ok =>
      have happend : ∀ k : QSslSocket, (v.sockets ++ [k])[s]? = v.sockets[s]? := fun k =>
        List.getElem?_append_left hlt
      rw [handle, incomingConnection]
      dsimp only
      split_ifs
      · simpa [isEncrypted, happend] using h
      · simpa [isEncrypted, happend] using h
      · exact h
  | encrypts t =>
      by_cases hst : t = s
      · subst hst
        simp [handle, isEncrypted, hlt]
      · simpa [handle, isEncrypted, List.getElem?_set_ne hst] using h
  | encrypted t order => exact h

end QSslServer

/-- A server with what has become of its sockets. -/
structure HandOff (σ : Type) where
  server : QSslServer σ
  /-- The sockets that `connReady` was emitted for, in order. -/
  emitted : List ℕ := []
  /-- The sockets whose signal `encrypted` has been handled. -/
  handled : List ℕ := []

/-- The socket whose signal is handled. -/
def QSslServer.Event.signalled : QSslServer.Event → List ℕ
  | .encrypted s _ => [s]
  | _ => []

namespace HandOff

def Step (h : HandOff σ) (e : QSslServer.Event) (h' : HandOff σ) : Prop :=
  h.server.Enabled e ∧ h' = {
    server := (h.server.handle e).1
    emitted := h.emitted ++ (h.server.handle e).2
    handled := h.handled ++ e.signalled }

/-- No socket is handed on twice, and those that have signalled are handed on and not pending. -/
def OnceAndForAll (h : HandOff σ) : Prop :=
  h.emitted.Nodup ∧ ∀ s ∈ h.handled, s ∈ h.emitted ∧ s ∉ h.server.pendingSsl

/-- What is handed on in a step is encrypted before it. -/
def OnlyEncrypted (h h' : HandOff σ) : Prop :=
  ∀ s ∈ h'.emitted, s ∉ h.emitted → h.server.isEncrypted s = true

/-- The sockets are divided into those that are pending and those that are handed on. -/
structure Divided (h : HandOff σ) : Prop where
  config : h.server.noConfig = false
  once : h.emitted.Nodup
  all : ∀ s, s < h.server.sockets.length ↔ s ∈ h.server.pendingSsl ∨ s ∈ h.emitted
  apart : ∀ s ∈ h.emitted, s ∉ h.server.pendingSsl
  encrypted : ∀ s ∈ h.emitted, h.server.isEncrypted s = true
  handled : ∀ s ∈ h.handled, s ∈ h.emitted

lemma Divided.onceAndForAll {h : HandOff σ} (hd : h.Divided) : h.OnceAndForAll :=
  ⟨hd.once, fun s hs => ⟨hd.handled s hs, hd.apart s (hd.handled s hs)⟩⟩

/-- A socket that connects becomes pending. -/
lemma Divided.incomingConnection {h h' : HandOff σ} (hd : h.Divided) {ok : Bool}
    (hstep : Step h (.incomingConnection ok) h') : h'.Divided := by
  obtain ⟨-, rfl⟩ := hstep
  have hkept := fun s hs => QSslServer.isEncrypted_handle (.incomingConnection ok)
    (hd.encrypted s hs)
  have hnew : h.server.sockets.length ∉ h.emitted := fun hmem =>
    absurd ((hd.all _).mpr (Or.inr hmem)) (Nat.lt_irrefl _)
  cases ok with
  | false =>
      simpa [QSslServer.handle, QSslServer.incomingConnection, QSslServer.Event.signalled]
        using hd
  | true =>
      have hhandle : h.server.handle (.incomingConnection true) =
          ({ h.server with
            sockets := h.server.sockets ++ [{ encrypted := false }]
            pendingSsl := insert h.server.sockets.length h.server.pendingSsl }, []) := by
        simp [QSslServer.handle, QSslServer.incomingConnection, hd.config]
      rw [hhandle] at hkept ⊢
      refine ⟨hd.config, by simpa using hd.once, fun s => ?_, fun s hs => ?_, ?_, ?_⟩
      · have hall := hd.all s
        simp only [List.length_append, List.length_singleton, Finset.mem_insert,
          List.append_nil]
        rw [Nat.lt_succ_iff_lt_or_eq, hall]
        tauto
      · simp only [List.append_nil] at hs
        simp only [Finset.mem_insert, not_or]
        refine ⟨fun heq => hnew (heq ▸ hs), hd.apart s hs⟩
      · simpa using hkept
      · simpa [QSslServer.Event.signalled] using hd.handled

lemma Divided.encrypts {h h' : HandOff σ} (hd : h.Divided) {s : ℕ}
    (hstep : Step h (.encrypts s) h') : h'.Divided := by
  obtain ⟨-, rfl⟩ := hstep
  have hkept := fun t ht => QSslServer.isEncrypted_handle (.encrypts s) (hd.encrypted t ht)
  refine ⟨hd.config, ?_, fun t => ?_, ?_, ?_, ?_⟩
  · simpa [QSslServer.handle] using hd.once
  · simpa [QSslServer.handle] using hd.all t
  · simpa [QSslServer.handle] using hd.apart
  · simpa [QSslServer.handle] using hkept
  · simpa [QSslServer.handle, QSslServer.Event.signalled] using hd.handled

lemma Divided.signal {h h' : HandOff σ} (hd : h.Divided) {s : ℕ} {order : List ℕ}
    (hstep : Step h (.encrypted s order) h') : h'.Divided := by
  obtain ⟨⟨-, hs, hnodup, horder⟩, rfl⟩ := hstep
  have hpending := fun {t} => QSslServer.mem_sslReady_pending (s := t) horder
  have hready : ∀ t, t ∈ order.filter h.server.isEncrypted ↔
      t ∈ h.server.pendingSsl ∧ h.server.isEncrypted t = true := fun t => by
    rw [List.mem_filter, horder]
  refine ⟨hd.config, ?_, fun t => ?_, fun t ht => ?_, fun t ht => ?_, fun t ht => ?_⟩
  · refine hd.once.append (hnodup.filter _) fun t ht htr => hd.apart t ht ((hready t).mp htr).1
  · have hall := hd.all t
    simp only [QSslServer.handle, QSslServer.sslReady_snd, QSslServer.sslReady_sockets,
      List.mem_append, hpending, hready, hall]
    by_cases henc : h.server.isEncrypted t = true
    · simp only [henc]
      tauto
    · simp only [Bool.eq_false_iff.mpr henc]
      tauto
  · simp only [QSslServer.handle, QSslServer.sslReady_snd, List.mem_append, hready,
      hpending] at ht ⊢
    rintro ⟨hmem, hplain⟩
    rcases ht with ht | ht
    · exact hd.apart t ht hmem
    · rw [hplain] at ht
      cases ht.2
  · rcases List.mem_append.mp ht with ht | ht
    · exact hd.encrypted t ht
    · exact ((hready t).mp ht).2
  · refine List.mem_append.mpr ?_
    rcases List.mem_append.mp ht with ht | ht
    · exact Or.inl (hd.handled t ht)
    · obtain rfl := List.mem_singleton.mp ht
      have hknown := (hd.all t).mp (QSslServer.lt_of_isEncrypted hs)
      exact hknown.symm.imp id fun hmem => (hready t).mpr ⟨hmem, hs⟩

lemma Divided.step {h h' : HandOff σ} {e : QSslServer.Event} (hd : h.Divided)
    (hstep : Step h e h') : h'.Divided := by
  cases e with
  | incomingConnection ok => exact hd.incomingConnection hstep
  | encrypts s => exact hd.encrypts hstep
  | encrypted s order => exact hd.signal hstep

lemma Divided.onlyEncrypted {h h' : HandOff σ} {e : QSslServer.Event} (hd : h.Divided)
    (hstep : Step h e h') : h.OnlyEncrypted h' := by
  obtain ⟨henabled, rfl⟩ := hstep
  intro s hs hnew
  have hready : s ∈ (h.server.handle e).2 := (List.mem_append.mp hs).resolve_left hnew
  cases e with
  | incomingConnection ok =>
      cases ok <;>
        simp [QSslServer.handle, QSslServer.incomingConnection, hd.config] at hready
  | encrypts t => cases hready
  | encrypted t order => exact (List.mem_filter.mp hready).2

/-- A server that has been constructed. -/
def new (base : σ) (noConfig : Bool) : HandOff σ where
  server := { base := base, noConfig := noConfig }

/-- **The TLS hand-off**: with a configuration, in whatever order sockets connect and finish
encrypting, none is handed on twice or before it is encrypted, and all that have signalled are
handed on and no longer pending. -/
theorem handed_on (base : σ) (tr : List (QSslServer.Event × HandOff σ))
    (h : Run Step (new base false) tr) :
    Always OnceAndForAll (new base false) tr ∧
      Run (fun h _ h' => OnlyEncrypted h h') (new base false) tr := by
  have hinit : Divided (new base false) :=
    ⟨rfl, List.nodup_nil, fun s => by simp [new], by simp [new], by simp [new], by simp [new]⟩
  have hdivided := h.always (fun _ _ _ hd hstep => hd.step hstep) hinit
  refine ⟨hdivided.mono fun _ => Divided.onceAndForAll, ?_⟩
  exact h.steps (fun _ _ _ hd hstep => ⟨hd.step hstep, hd.onlyEncrypted hstep⟩) hinit

/-- Two sockets are encrypted when the first signals, which hands both on. -/
theorem two_handed_on : ∃ tr : List (QSslServer.Event × HandOff Unit),
    events tr = [.incomingConnection true, .incomingConnection true, .encrypts 1, .encrypts 0,
      .encrypted 1 [0, 1], .encrypted 0 []] ∧
    Run Step (new () false) tr ∧ (final (new () false) tr).emitted = [0, 1] ∧
    Always OnceAndForAll (new () false) tr ∧
    Run (fun h _ h' => OnlyEncrypted h h') (new () false) tr := by
  have hboth : ∀ s, s ∈ [0, 1] ↔ s ∈ insert 1 (insert 0 (∅ : Finset ℕ)) := by
    simp [or_comm]
  have hnone : ∀ s, s ∈ [] ↔ s ∈ insert 1 (insert 0 (∅ : Finset ℕ)) \ [0, 1].toFinset := by
    simp [or_comm]
  have hrun : Run Step (new () false) [(.incomingConnection true, _),
      (.incomingConnection true, _), (.encrypts 1, _), (.encrypts 0, _),
      (.encrypted 1 [0, 1], _), (.encrypted 0 [], _)] :=
    .cons ⟨trivial, rfl⟩ (.cons ⟨trivial, rfl⟩ (.cons ⟨⟨rfl, by decide⟩, rfl⟩
      (.cons ⟨⟨rfl, by decide⟩, rfl⟩ (.cons ⟨⟨rfl, rfl, by decide, hboth⟩, rfl⟩
        (.cons ⟨⟨rfl, rfl, by decide, hnone⟩, rfl⟩ (.nil _))))))
  exact ⟨_, rfl, hrun, rfl, handed_on () _ hrun⟩

end HandOff

end ForgeMush.Mudcore

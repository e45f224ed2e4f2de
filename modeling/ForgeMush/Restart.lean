import ForgeMush.Keeping

/-!
Stopping the listeners and starting them again.

A listener that is stopped is paused and still counts as listening, and `start` only looks at
whether it is listening. So the first `stopListening` after a `startListening` is the last word.
-/

namespace ForgeMush.Mudcore

open Runs

variable {σ : Type} {q : QTcpServer σ}

/-- What has become of a server. -/
inductive Phase | idle | accepting | paused

namespace Phase

def isListening : Phase → Bool
  | .idle => false
  | _ => true

def isAccepting : Phase → Bool
  | .accepting => true
  | _ => false

def start : Phase → Phase
  | .idle => .accepting
  | p => p

def stop : Phase → Phase
  | .accepting => .paused
  | p => p

/-- The phase after an event. -/
def next (p : Phase) : QMudServerCore.Event → Phase
  | .startListening => p.start
  | .stopListening => p.stop
  | _ => p

end Phase

namespace QMudListener

/-- The listener has a server, which is in the phase `p`. -/
def InPhase (q : QTcpServer σ) (p : Phase) (l : QMudListener σ) : Prop :=
  ∃ v, l.listener = some v ∧ q.isListening v.base = p.isListening ∧
    q.accepting v.base = p.isAccepting

variable {l : QMudListener σ} {p : Phase}

lemma InPhase.accepting (h : l.InPhase q p) : l.accepting q = p.isAccepting := by
  obtain ⟨v, hv, -, haccepting⟩ := h
  rw [QMudListener.accepting, hv, Option.any_some, haccepting]

lemma start_of_listening {v : QSslServer σ} (hv : l.listener = some v)
    (h : q.isListening v.base = true) : l.start q = (l, false) := by
  rw [start, hv]
  exact if_pos h

lemma stop_of_idle {v : QSslServer σ} (hv : l.listener = some v)
    (h : q.isListening v.base = false) : l.stop q = (l, false) := by
  rw [stop, hv]
  exact if_neg (by simp [h])

lemma InPhase.start (hq : q.Documented)
    (hlisten : ∀ s address port, q.isListening s = false → (q.listen s address port).2 = true)
    (h : l.InPhase q p) : (l.start q).1.InPhase q p.start := by
  obtain ⟨v, hv, hlistening, haccepting⟩ := h
  cases p with
  | idle =>
      have hidle : q.isListening v.base = false := hlistening
      rw [QMudListener.start, hv]
      dsimp only
      rw [if_neg (by simp [hidle])]
      exact ⟨_, rfl, hq.listen _ _ _ hidle (hlisten _ _ _ hidle)⟩
  | accepting | paused =>
      rw [start_of_listening hv hlistening]
      exact ⟨v, hv, hlistening, haccepting⟩

lemma InPhase.stop (hq : q.Documented) (h : l.InPhase q p) :
    (l.stop q).1.InPhase q p.stop := by
  obtain ⟨v, hv, hlistening, haccepting⟩ := h
  cases p with
  | idle =>
      rw [stop_of_idle hv hlistening]
      exact ⟨v, hv, hlistening, haccepting⟩
  | accepting | paused =>
      have hlistening' : q.isListening v.base = true := hlistening
      obtain ⟨hsame, hpaused⟩ := hq.pauseAccepting v.base
      rw [QMudListener.stop, hv]
      dsimp only
      rw [if_pos hlistening']
      exact ⟨_, rfl, hsame.trans hlistening, hpaused⟩

end QMudListener

lemma QSslServer.handle_base (v : QSslServer σ) (e : QSslServer.Event) :
    (v.handle e).1.base = v.base := by
  cases e with
  | incomingConnection ok =>
      rw [handle, incomingConnection]
      dsimp only
      split_ifs <;> rfl
  | encrypts s => rfl
  | encrypted s order => rfl

namespace QMudServerCore

lemma getElem?_foldl_modify (f : QMudListener σ → QMudListener σ) {is : List ℕ} (his : is.Nodup)
    (heap : List (QMudListener σ)) (i : ℕ) :
    (is.foldl (fun heap i => heap.modify i f) heap)[i]? =
      if i ∈ is then heap[i]?.map f else heap[i]? := by
  induction is generalizing heap with
  | nil => rfl
  | cons i' is ih =>
      obtain ⟨hnot, hnodup⟩ := List.nodup_cons.mp his
      rw [List.foldl_cons, ih hnodup]
      by_cases hi : i' = i
      · subst hi
        rw [if_neg hnot, if_pos List.mem_cons_self, List.getElem?_modify_eq]
        rfl
      · rw [List.getElem?_modify_ne f heap hi]
        simp [Ne.symm hi]

lemma forListeners_getElem? (c : QMudServerCore σ) (f : QMudListener σ → QMudListener σ)
    (hnodup : c.listeners.values.Nodup) {i : ℕ} (hi : i ∈ c.listeners.values) :
    (c.forListeners f).listenerHeap[i]? = c.listenerHeap[i]?.map f := by
  have hwalk := getElem?_foldl_modify f hnodup c.listenerHeap i
  rw [if_pos hi, Table.values, List.foldl_map] at hwalk
  exact hwalk

/-- All listeners in the hash are in the phase `p`, and none is there twice. -/
structure InPhase (q : QTcpServer σ) (p : Phase) (c : QMudServerCore σ) : Prop where
  distinct : c.listeners.values.Nodup
  all : ∀ i ∈ c.listeners.values, ∃ l, c.listenerHeap[i]? = some l ∧ l.InPhase q p

variable {c c' : QMudServerCore σ} {p : Phase} {e : Event}

lemma InPhase.forListeners {f : QMudListener σ → QMudListener σ} {p' : Phase}
    (hf : ∀ l, l.InPhase q p → (f l).InPhase q p') (h : c.InPhase q p) :
    (c.forListeners f).InPhase q p' := by
  refine ⟨h.distinct, fun i hi => ?_⟩
  obtain ⟨l, hl, hp⟩ := h.all i hi
  exact ⟨f l, by rw [c.forListeners_getElem? f h.distinct hi, hl]; rfl, hf l hp⟩

lemma InPhase.set {i : ℕ} {l l' : QMudListener σ} {heap : List (QMudListener σ)}
    (hl : heap[i]? = some l) (hl' : l.InPhase q p → l'.InPhase q p) {is : List ℕ}
    (h : ∀ i ∈ is, ∃ l, heap[i]? = some l ∧ l.InPhase q p) :
    ∀ j ∈ is, ∃ l, (heap.set i l')[j]? = some l ∧ l.InPhase q p := by
  intro j hj
  obtain ⟨k, hk, hp⟩ := h j hj
  by_cases hij : i = j
  · subst hij
    rw [hl, Option.some.injEq] at hk
    obtain ⟨hlt, -⟩ := List.getElem?_eq_some_iff.mp hl
    exact ⟨l', by simp [hlt], hl' (hk ▸ hp)⟩
  · exact ⟨k, by rw [List.getElem?_set_ne hij, hk], hp⟩

lemma InPhase.step (hq : q.Documented)
    (hlisten : ∀ s address port, q.isListening s = false → (q.listen s address port).2 = true)
    (h : c.InPhase q p) (he : e.created = none) (hstep : Step q c e c') :
    c'.InPhase q (p.next e) := by
  cases e with
  | createListener name interface port noConfig type => cases he
  | startListening =>
      obtain rfl := hstep
      exact h.forListeners fun l hl => hl.start hq hlisten
  | stopListening =>
      obtain rfl := hstep
      exact h.forListeners fun l hl => hl.stop hq
  | server i e =>
      obtain ⟨l, v, hl, hv, -, -, rfl⟩ := hstep
      rw [serverEvent]
      dsimp only
      rw [foldl_acceptTelnetConnection]
      refine ⟨h.distinct, InPhase.set hl ?_ h.all⟩
      rintro ⟨v', hv', hphase⟩
      rw [hv, Option.some.injEq] at hv'
      refine ⟨_, rfl, ?_⟩
      rw [QSslServer.handle_base, hv']
      exact hphase
  | telnetReady i j =>
      obtain ⟨l, conn, hl, -, -, rfl⟩ := hstep
      refine ⟨h.distinct, InPhase.set hl ?_ h.all⟩
      exact id

/-- Whether the event is a call of `startListening`, or else one of `stopListening`. -/
def Event.starts : Event → Option Bool
  | .startListening => some true
  | .stopListening => some false
  | _ => none

/-- After a call every listener accepts connections, or none does. -/
def Obeys (q : QTcpServer σ) (e : Event) (c : QMudServerCore σ) : Prop :=
  ∀ start, e.starts = some start → ∀ i ∈ c.listeners.values,
    ∃ l, c.listenerHeap[i]? = some l ∧ l.accepting q = start

/-- The shortest calls that a listener in this phase does not obey. -/
def disobeyed : Phase → List Event
  | .idle => [.startListening, .stopListening, .startListening]
  | .accepting => [.stopListening, .startListening]
  | .paused => [.startListening]

lemma InPhase.obeys_iff (hq : q.Documented)
    (hlisten : ∀ s address port, q.isListening s = false → (q.listen s address port).2 = true)
    (h : c.InPhase q p) (hsome : c.listeners.values ≠ []) (he : e.created = none)
    (hstep : Step q c e c') : Obeys q e c' ↔ ¬ (p = .paused ∧ e = .startListening) := by
  have hnext := h.step hq hlisten he hstep
  have hlisteners : c'.listeners = c.listeners := (effect_of_step hstep).others he
  have hobeys : Obeys q e c' ↔ ∀ start, e.starts = some start →
      (p.next e).isAccepting = start := by
    obtain ⟨i, hi⟩ := List.exists_mem_of_ne_nil _ hsome
    refine forall_congr' fun start => imp_congr_right fun _ => ?_
    constructor
    · intro hall
      obtain ⟨l, hl, haccepting⟩ := hall i (hlisteners ▸ hi)
      obtain ⟨l', hl', hp⟩ := hnext.all i (hlisteners ▸ hi)
      rw [hl, Option.some.injEq] at hl'
      rw [← haccepting, hl', hp.accepting]
    · intro haccepting i hi
      obtain ⟨l, hl, hp⟩ := hnext.all i hi
      exact ⟨l, hl, hp.accepting.trans haccepting⟩
  rw [hobeys]
  cases p <;> cases e <;>
    simp [Event.starts, Phase.next, Phase.start, Phase.stop, Phase.isAccepting]

lemma disobeyed_sublist_cons {es : List Event} : (disobeyed p).Sublist (e :: es) ↔
    (p = .paused ∧ e = .startListening) ∨ (disobeyed (p.next e)).Sublist es := by
  cases p <;> cases e <;>
    simp [disobeyed, Phase.next, Phase.start, Phase.stop, List.cons_sublist_cons']

/-- Whatever the phase, the calls are obeyed until the listeners have been stopped and are
started again. -/
lemma InPhase.obeys_run (hq : q.Documented)
    (hlisten : ∀ s address port, q.isListening s = false → (q.listen s address port).2 = true)
    {tr : List (Event × QMudServerCore σ)} (hrun : Run (Step q) c tr)
    (h : c.InPhase q p) (hsome : c.listeners.values ≠ [])
    (hfixed : ∀ e ∈ events tr, e.created = none) :
    Run (fun _ e c' => Obeys q e c') c tr ↔ ¬ (disobeyed p).Sublist (events tr) := by
  induction hrun generalizing p with
  | nil c =>
      have hnot : ¬ (disobeyed p).Sublist [] := by cases p <;> simp [disobeyed]
      exact iff_of_true (.nil c) hnot
  | @cons c c' e tr hstep _ ih =>
      rw [events_cons] at hfixed ⊢
      obtain ⟨he, hfixed⟩ := List.forall_mem_cons.mp hfixed
      have hlisteners : c'.listeners = c.listeners := (effect_of_step hstep).others he
      rw [run_cons_iff, h.obeys_iff hq hlisten hsome he hstep,
        ih (h.step hq hlisten he hstep) (hlisteners ▸ hsome) hfixed, disobeyed_sublist_cons,
        not_or]

lemma obeys_of_no_listeners {tr : List (Event × QMudServerCore σ)} (hrun : Run (Step q) c tr)
    (hnone : c.listeners.values = []) (hfixed : ∀ e ∈ events tr, e.created = none) :
    Run (fun _ e c' => Obeys q e c') c tr := by
  induction hrun with
  | nil c => exact .nil c
  | @cons c c' e tr hstep _ ih =>
      obtain ⟨he, hfixed⟩ := List.forall_mem_cons.mp hfixed
      have hnone' : c'.listeners.values = [] := by
        rw [(effect_of_step hstep).others he, hnone]
      refine .cons (fun start _ i hi => ?_) (ih hnone' hfixed)
      rw [hnone'] at hi
      cases hi

/-! ### The listeners as they are created -/

/-- What a Telnet listener is created with. -/
structure NewListener where
  name : String
  interface : String
  port : UInt16
  noConfig : Bool

/-- A core with Telnet listeners. -/
def createAll (q : QTcpServer σ) (ls : List NewListener) : QMudServerCore σ :=
  ls.foldl (fun c l => c.createListener q l.name l.interface l.port l.noConfig .telnet) {}

/-- Nothing has happened but the creation of listeners. -/
structure Fresh (q : QTcpServer σ) (c : QMudServerCore σ) : Prop where
  filed : c.Filed []
  idle : ∀ l ∈ c.listenerHeap, l.InPhase q .idle

lemma Fresh.createListener (hq : q.Documented) (h : c.Fresh q) (l : NewListener) :
    Fresh q (c.createListener q l.name l.interface l.port l.noConfig .telnet) := by
  have hstep : Step q c (.createListener l.name l.interface l.port l.noConfig .telnet) _ := rfl
  refine ⟨h.filed.step (effect_of_step hstep), fun l' hl' => ?_⟩
  rcases List.mem_append.mp hl' with hl' | hl'
  · exact h.idle l' hl'
  · rw [List.mem_singleton.mp hl']
    exact ⟨_, rfl, hq.fresh⟩

lemma Fresh.inPhase (h : c.Fresh q) : c.InPhase q .idle where
  distinct := h.filed.listeners.values_nodup fun _ _ _ hk hl => Option.some.inj (hk.symm.trans hl)
  all i hi := by
    obtain ⟨e, he, rfl⟩ := List.mem_map.mp hi
    have hname := h.filed.listeners.sound e he
    rw [names, List.getElem?_map, Option.map_eq_some_iff] at hname
    obtain ⟨l, hl, -⟩ := hname
    exact ⟨l, hl, h.idle l (List.mem_of_getElem? hl)⟩

lemma fresh_createAll (hq : q.Documented) (ls : List NewListener) :
    Fresh q (createAll q ls) := by
  have hfold : ∀ c : QMudServerCore σ, c.Fresh q → Fresh q (ls.foldl
      (fun c l => c.createListener q l.name l.interface l.port l.noConfig .telnet) c) := by
    induction ls with
    | nil => exact fun c hc => hc
    | cons l ls ih => exact fun c hc => ih _ (hc.createListener hq l)
  exact hfold {} ⟨filed_new, fun l hl => absurd hl List.not_mem_nil⟩

lemma values_createAll {ls : List NewListener} (hls : ls ≠ []) :
    (createAll q ls).listeners.values ≠ [] := by
  obtain ⟨before, l, rfl⟩ := (List.eq_nil_or_concat ls).resolve_left hls
  rw [createAll, List.concat_eq_append, List.foldl_append]
  exact List.ne_nil_of_mem (List.mem_map_of_mem (f := Prod.snd) (a := (l.name, _))
    (Table.mem_insert.mpr (Or.inl rfl)))

/-- **Restartable listening**: whatever Telnet listeners a core has, and whatever happens to
their connections besides, after each call of `startListening` all of them accept connections
and after each of `stopListening` none does, exactly if there are no listeners or
`startListening` is not called again after a `stopListening` that followed one. -/
theorem restartable_iff (q : QTcpServer σ) (hq : q.Documented)
    (hlisten : ∀ s address port, q.isListening s = false → (q.listen s address port).2 = true)
    (ls : List NewListener) (tr : List (Event × QMudServerCore σ))
    (h : Run (Step q) (createAll q ls) tr) (hfixed : ∀ e ∈ events tr, e.created = none) :
    Run (fun _ e c' => Obeys q e c') (createAll q ls) tr ↔
      ls = [] ∨ ¬ [.startListening, .stopListening, .startListening].Sublist (events tr) := by
  by_cases hls : ls = []
  · subst hls
    exact iff_of_true (obeys_of_no_listeners h rfl hfixed) (Or.inl rfl)
  · rw [or_iff_right hls]
    exact (fresh_createAll hq ls).inPhase.obeys_run hq hlisten h (values_createAll hls) hfixed

/-- The listener `telnet`. -/
def telnetListener : NewListener where
  name := "telnet"
  interface := "0.0.0.0"
  port := 7999
  noConfig := true

/-- It is started and stopped. -/
theorem stopped_obeys : ∃ tr : List (Event × QMudServerCore (Bool × Bool)),
    events tr = [.startListening, .stopListening] ∧
    Run (Step flags) (createAll flags [telnetListener]) tr ∧
    Run (fun _ e c' => Obeys flags e c') (createAll flags [telnetListener]) tr := by
  have hrun : Run (Step flags) (createAll flags [telnetListener])
      [(.startListening, _), (.stopListening, _)] := .cons rfl (.cons rfl (.nil _))
  refine ⟨_, rfl, hrun, (restartable_iff flags flags_documented (fun _ _ _ _ => rfl) _ _ hrun
    ?_).mpr (Or.inr ?_)⟩
  · simp [Event.created]
  · simp

/-- Started again, it stays paused. -/
theorem restarted_paused : ∃ tr : List (Event × QMudServerCore (Bool × Bool)),
    events tr = [.startListening, .stopListening, .startListening] ∧
    Run (Step flags) (createAll flags [telnetListener]) tr ∧
    ¬ Run (fun _ e c' => Obeys flags e c') (createAll flags [telnetListener]) tr := by
  have hrun : Run (Step flags) (createAll flags [telnetListener])
      [(.startListening, _), (.stopListening, _), (.startListening, _)] :=
    .cons rfl (.cons rfl (.cons rfl (.nil _)))
  refine ⟨_, rfl, hrun, fun hobeys => ?_⟩
  have hphase := (fresh_createAll flags_documented [telnetListener]).inPhase
  refine (hphase.obeys_run flags_documented (fun _ _ _ _ => rfl) hrun
    (values_createAll (List.cons_ne_nil _ _)) ?_).mp hobeys (List.Sublist.refl _)
  simp [Event.created]

end QMudServerCore

end ForgeMush.Mudcore

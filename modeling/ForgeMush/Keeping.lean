import ForgeMush.QtServer

/-!
Which listeners and connections the core still has, and what its destructor deletes.

Both hashes are keyed by names, and `insert` takes the place of an object of the same name. A
connection is named after its listener, so one listener has room for one connection. And every
connection is the child of its listener, which deletes it before the core does.
-/

namespace ForgeMush.Mudcore

open Runs

variable {σ : Type} {q : QTcpServer σ}

namespace QMudListener

@[simp] lemma start_objectName (l : QMudListener σ) :
    (l.start q).1.objectName = l.objectName := by
  unfold start
  split
  · split_ifs <;> rfl
  · rfl

@[simp] lemma stop_objectName (l : QMudListener σ) :
    (l.stop q).1.objectName = l.objectName := by
  unfold stop
  split
  · split_ifs <;> rfl
  · rfl

end QMudListener

namespace QMudServerCore

def names (c : QMudServerCore σ) : List String := c.listenerHeap.map QMudListener.objectName

/-- The listeners of the connections constructed. -/
def parents (c : QMudServerCore σ) : List ℕ := c.connectionHeap.map QMudTelnetConnection.parent

/-- The name that a listener is created with. -/
def Event.created : Event → Option String
  | .createListener name _ _ _ _ => some name
  | _ => none

/-- The connection that is accepted, behind its listener. -/
def Event.accepted : Event → Option (ℕ × ℕ)
  | .telnetReady i j => some (i, j)
  | _ => none

/-! ### What a step does to names and parents -/

lemma map_set_of_eq {α β : Type} {f : α → β} {xs : List α} {i : ℕ} {x y : α}
    (hy : xs[i]? = some y) (hf : f x = f y) : (xs.set i x).map f = xs.map f := by
  ext j : 1
  rw [List.getElem?_map, List.getElem?_map, List.getElem?_set]
  by_cases hij : i = j
  · subst hij
    obtain ⟨hlt, -⟩ := List.getElem?_eq_some_iff.mp hy
    rw [if_pos rfl, if_pos hlt, hy, Option.map_some, Option.map_some, hf]
  · rw [if_neg hij]

lemma map_forListeners {β : Type} (g : QMudListener σ → β) (c : QMudServerCore σ)
    {f : QMudListener σ → QMudListener σ} (hf : ∀ l, g (f l) = g l) :
    (c.forListeners f).listenerHeap.map g = c.listenerHeap.map g := by
  have hmodify : ∀ (heap : List (QMudListener σ)) (i : ℕ),
      (heap.modify i f).map g = heap.map g := by
    intro heap i
    ext j : 1
    rw [List.getElem?_map, List.getElem?_map, List.getElem?_modify]
    cases heap[j]? with
    | none => rfl
    | some l => by_cases hij : i = j <;> simp [hij, hf]
  have hfold : ∀ (rows : List (String × ℕ)) (heap : List (QMudListener σ)),
      (rows.foldl (fun heap e => heap.modify e.2 f) heap).map g = heap.map g := by
    intro rows
    induction rows with
    | nil => exact fun _ => rfl
    | cons e rows ih => exact fun heap => (ih _).trans (hmodify heap e.2)
  exact hfold _ _

lemma names_forListeners (c : QMudServerCore σ) {f : QMudListener σ → QMudListener σ}
    (hf : ∀ l, (f l).objectName = l.objectName) : (c.forListeners f).names = c.names :=
  map_forListeners QMudListener.objectName c hf

lemma foldl_acceptTelnetConnection (c : QMudServerCore σ) (i : ℕ) (ready : List ℕ) :
    ready.foldl (fun c s => c.acceptTelnetConnection i s) c =
      { c with
        connectionHeap :=
          c.connectionHeap ++ ready.map fun s => { parent := i, socket := s } } := by
  induction ready generalizing c with
  | nil => simp
  | cons s ready ih =>
      rw [List.foldl_cons, ih]
      simp [acceptTelnetConnection]

/-- What a step does to the names, the parents and the hashes. -/
structure Effect (c : QMudServerCore σ) (e : Event) (c' : QMudServerCore σ) : Prop where
  names : c'.names = c.names ++ e.created.toList
  parents : c.parents <+: c'.parents
  created : ∀ name, e.created = some name →
    c'.listeners = c.listeners.insert (name, c.names.length)
  others : e.created = none → c'.listeners = c.listeners
  accepted : ∀ i j, e.accepted = some (i, j) → ∃ name, c.parents[j]? = some i ∧
    c.names[i]? = some name ∧ c'.connections = c.connections.insert (name ++ "_test_conn", j)
  unaccepted : e.accepted = none → c'.connections = c.connections

lemma Effect.of_same {c c' : QMudServerCore σ} {e : Event} (hcreated : e.created = none)
    (haccepted : e.accepted = none) (hnames : c'.names = c.names)
    (hparents : c.parents <+: c'.parents) (hlisteners : c'.listeners = c.listeners)
    (hconnections : c'.connections = c.connections) : Effect c e c' where
  names := by rw [hnames, hcreated, Option.toList_none, List.append_nil]
  parents := hparents
  created name h := by
    rw [hcreated] at h
    cases h
  others _ := hlisteners
  accepted i j h := by
    rw [haccepted] at h
    cases h
  unaccepted _ := hconnections

lemma effect_of_step {c c' : QMudServerCore σ} {e : Event} (h : Step q c e c') :
    Effect c e c' := by
  cases e with
  | createListener name interface port noConfig type =>
      obtain rfl := h
      refine ⟨by simp [createListener, names, Event.created], List.prefix_rfl, fun n hn => ?_,
        (fun hn => by cases hn), (fun i j hij => by cases hij), fun _ => rfl⟩
      cases hn
      simp [createListener, names]
  | startListening =>
      obtain rfl := h
      exact .of_same rfl rfl (c.names_forListeners fun l => l.start_objectName) List.prefix_rfl
        rfl rfl
  | stopListening =>
      obtain rfl := h
      exact .of_same rfl rfl (c.names_forListeners fun l => l.stop_objectName) List.prefix_rfl
        rfl rfl
  | server i e =>
      obtain ⟨l, v, hl, -, -, -, rfl⟩ := h
      rw [serverEvent]
      dsimp only
      rw [foldl_acceptTelnetConnection]
      refine .of_same rfl rfl (map_set_of_eq hl ?_) ?_ rfl rfl
      · rfl
      · simp [parents]
  | telnetReady i j =>
      obtain ⟨l, conn, hl, hconn, rfl, rfl⟩ := h
      refine ⟨?_, ?_, (fun n hn => by cases hn), fun _ => rfl, fun i' j' hij => ?_,
        fun hn => by cases hn⟩
      · refine (map_set_of_eq hl ?_).trans (List.append_nil _).symm
        rfl
      · have hparents : (c.connectionHeap.set j { conn with
            objectName := l.objectName ++ "_test_conn" }).map QMudTelnetConnection.parent =
              c.parents := map_set_of_eq hconn rfl
        exact hparents ▸ List.prefix_rfl
      · cases hij
        exact ⟨l.objectName, by simp [parents, hconn], by simp [names, hl], rfl⟩

/-! ### What is in the hashes -/

def createdNames (tr : List (Event × QMudServerCore σ)) : List String :=
  (events tr).filterMap Event.created

/-- The connections accepted in a run, each behind its listener. -/
def acceptances (tr : List (Event × QMudServerCore σ)) : List (ℕ × ℕ) :=
  (events tr).filterMap Event.accepted

/-- The hashes have all that they should have, if under the names they are given: `accepted` are
the connections accepted so far. -/
structure Filed (c : QMudServerCore σ) (accepted : List (ℕ × ℕ)) : Prop where
  listeners : c.listeners.Indexes fun i k => c.names[i]? = some k
  connections : c.connections.Indexes fun j k => ∃ i name, (i, j) ∈ accepted ∧
    c.names[i]? = some name ∧ k = name ++ "_test_conn"
  parents : ∀ i j, (i, j) ∈ accepted → c.parents[j]? = some i
  named : ∀ i j, (i, j) ∈ accepted → ∃ name, c.names[i]? = some name

lemma filed_new : Filed ({} : QMudServerCore σ) [] where
  listeners := Table.indexes_empty fun i k => by simp [names]
  connections := Table.indexes_empty fun j k => by simp
  parents _ _ h := absurd h List.not_mem_nil
  named _ _ h := absurd h List.not_mem_nil

variable {c c' : QMudServerCore σ} {accepted : List (ℕ × ℕ)} {e : Event}

lemma getElem?_append_toList {names : List String} {created : Option String} {i : ℕ}
    {k : String} : (names ++ created.toList)[i]? = some k ↔
      names[i]? = some k ∨ (i = names.length ∧ created = some k) := by
  cases created with
  | none => simp
  | some name =>
      by_cases hi : i < names.length
      · simp [List.getElem?_append_left hi, hi.ne]
      · have hout : names[i]? = none := List.getElem?_eq_none (not_lt.mp hi)
        rw [Option.toList_some, List.getElem?_append_right (not_lt.mp hi), hout,
          List.getElem?_singleton]
        by_cases hlast : i = names.length
        · simp [hlast]
        · have hsub : i - names.length ≠ 0 := by omega
          simp [hlast, hsub]

lemma Effect.names_stay (he : Effect c e c') {i : ℕ} {name : String}
    (h : c.names[i]? = some name) : c'.names[i]? = some name := by
  rw [he.names]
  exact getElem?_append_toList.mpr (Or.inl h)

lemma Filed.listeners_step (h : c.Filed accepted) (he : Effect c e c') :
    c'.listeners.Indexes fun i k => c'.names[i]? = some k := by
  rw [he.names]
  cases hcreated : e.created with
  | none =>
      rw [he.others hcreated]
      exact h.listeners.congr fun i k => by simp
  | some name =>
      rw [he.created name hcreated]
      refine (h.listeners.insert c.names.length name).congr fun i k => ?_
      rw [getElem?_append_toList, Option.some.injEq, eq_comm (a := name)]

lemma Filed.names_step (h : c.Filed accepted) (he : Effect c e c') {i j : ℕ}
    (hij : (i, j) ∈ accepted) : c'.names[i]? = c.names[i]? := by
  obtain ⟨name, hname⟩ := h.named i j hij
  rw [hname, he.names_stay hname]

lemma Filed.connections_step (h : c.Filed accepted) (he : Effect c e c') :
    c'.connections.Indexes fun j k => ∃ i name, (i, j) ∈ accepted ++ e.accepted.toList ∧
      c'.names[i]? = some name ∧ k = name ++ "_test_conn" := by
  have hsame : ∀ j k, (∃ i name, (i, j) ∈ accepted ∧ c.names[i]? = some name ∧
      k = name ++ "_test_conn") ↔ ∃ i name, (i, j) ∈ accepted ∧ c'.names[i]? = some name ∧
      k = name ++ "_test_conn" := fun j k =>
    exists_congr fun i => exists_congr fun name => and_congr_right fun hij => by
      rw [h.names_step he hij]
  have hold := h.connections.congr hsame
  cases haccepted : e.accepted with
  | none =>
      rw [he.unaccepted haccepted]
      simpa using hold
  | some p =>
      obtain ⟨i, j⟩ := p
      obtain ⟨name, -, hname, hconn⟩ := he.accepted i j haccepted
      have hname' := he.names_stay hname
      rw [hconn]
      refine (hold.insert j (name ++ "_test_conn")).congr fun j' k => ?_
      simp only [Option.toList_some, List.mem_append, List.mem_singleton, Prod.mk.injEq]
      constructor
      · rintro (⟨i', name', hmem, hn, hk⟩ | ⟨rfl, rfl⟩)
        · exact ⟨i', name', Or.inl hmem, hn, hk⟩
        · exact ⟨i, name, Or.inr ⟨rfl, rfl⟩, hname', rfl⟩
      · rintro ⟨i', name', hmem | ⟨rfl, rfl⟩, hn, hk⟩
        · exact Or.inl ⟨i', name', hmem, hn, hk⟩
        · rw [hname', Option.some.injEq] at hn
          exact Or.inr ⟨rfl, hn ▸ hk⟩

lemma Filed.step (h : c.Filed accepted) (he : Effect c e c') :
    c'.Filed (accepted ++ e.accepted.toList) := by
  have hmem : ∀ i j, (i, j) ∈ accepted ++ e.accepted.toList →
      (i, j) ∈ accepted ∨ e.accepted = some (i, j) := fun i j hij => by
    simpa [Option.mem_toList] using hij
  obtain ⟨more, hmore⟩ := he.parents
  have hparents : ∀ {i j : ℕ}, c.parents[j]? = some i → c'.parents[j]? = some i := by
    intro i j hj
    obtain ⟨hlt, -⟩ := List.getElem?_eq_some_iff.mp hj
    rw [← hmore, List.getElem?_append_left hlt, hj]
  refine ⟨h.listeners_step he, h.connections_step he, fun i j hij => ?_, fun i j hij => ?_⟩
  · rcases hmem i j hij with hij | hij
    · exact hparents (h.parents i j hij)
    · obtain ⟨-, hj, -, -⟩ := he.accepted i j hij
      exact hparents hj
  · rcases hmem i j hij with hij | hij
    · rw [h.names_step he hij]
      exact h.named i j hij
    · obtain ⟨name, -, hname, -⟩ := he.accepted i j hij
      exact ⟨name, he.names_stay hname⟩

lemma Filed.run {tr : List (Event × QMudServerCore σ)} (h : c.Filed accepted)
    (hrun : Run (Step q) c tr) : (final c tr).Filed (accepted ++ acceptances tr) ∧
      (final c tr).names = c.names ++ createdNames tr := by
  induction hrun generalizing accepted with
  | nil c => simpa [acceptances, createdNames] using h
  | @cons c c' e tr hstep _ ih =>
      have he := effect_of_step hstep
      obtain ⟨hfiled, hnames⟩ := ih (h.step he)
      have haccepted : acceptances ((e, c') :: tr) = e.accepted.toList ++ acceptances tr := by
        rw [acceptances, events_cons, List.filterMap_cons]
        cases e.accepted <;> rfl
      have hcreated : createdNames ((e, c') :: tr) = e.created.toList ++ createdNames tr := by
        rw [createdNames, events_cons, List.filterMap_cons]
        cases e.created <;> rfl
      rw [final_cons, haccepted, hcreated, ← List.append_assoc, ← List.append_assoc, ← he.names]
      exact ⟨hfiled, hnames⟩

/-- Every listener created and every connection accepted is still a value of its hash. -/
def KeepsAll (c : QMudServerCore σ) (accepted : List (ℕ × ℕ)) : Prop :=
  (∀ i < c.listenerHeap.length, i ∈ c.listeners.values) ∧
    ∀ i j, (i, j) ∈ accepted → j ∈ c.connections.values

lemma names_distinct_iff {names : List String} :
    (∀ (i j : ℕ) k, names[i]? = some k → names[j]? = some k → i = j) ↔ names.Nodup := by
  rw [List.nodup_iff_getElem?_ne_getElem?]
  constructor
  · intro h i j hij hj heq
    have hk := List.getElem?_eq_getElem hj
    exact hij.ne (h i j _ (heq.trans hk) hk)
  · intro h i j k hi hj
    obtain ⟨hlti, -⟩ := List.getElem?_eq_some_iff.mp hi
    obtain ⟨hltj, -⟩ := List.getElem?_eq_some_iff.mp hj
    rcases Nat.lt_trichotomy i j with hij | hij | hij
    · exact absurd (hi.trans hj.symm) (h i j hij hltj)
    · exact hij
    · exact absurd (hj.trans hi.symm) (h j i hij hlti)

/-- **What is kept**: all is, exactly if no two listeners have one name and no listener has two
connections. -/
lemma Filed.keepsAll_iff (h : c.Filed accepted) : c.KeepsAll accepted ↔
    c.names.Nodup ∧ ∀ i j j', (i, j) ∈ accepted → (i, j') ∈ accepted → j = j' := by
  have hlisteners : (∀ i < c.listenerHeap.length, i ∈ c.listeners.values) ↔ c.names.Nodup := by
    rw [← names_distinct_iff, ← h.listeners.all_mem_values_iff fun i k l hk hl =>
      Option.some.inj (hk.symm.trans hl)]
    constructor
    · intro hall i k hk
      obtain ⟨hlt, -⟩ := List.getElem?_eq_some_iff.mp hk
      exact hall i (by simpa [names] using hlt)
    · intro hall i hi
      exact hall i _ (List.getElem?_eq_getElem (by simpa [names] using hi))
  have hfunctional : ∀ j k l, (∃ i name, (i, j) ∈ accepted ∧ c.names[i]? = some name ∧
      k = name ++ "_test_conn") → (∃ i name, (i, j) ∈ accepted ∧ c.names[i]? = some name ∧
      l = name ++ "_test_conn") → k = l := by
    rintro j k l ⟨i, name, hij, hname, rfl⟩ ⟨i', name', hij', hname', rfl⟩
    have hparent := h.parents i j hij
    rw [h.parents i' j hij', Option.some.injEq] at hparent
    subst hparent
    rw [hname, Option.some.injEq] at hname'
    rw [hname']
  have hconnections := h.connections.all_mem_values_iff hfunctional
  rw [KeepsAll, hlisteners]
  refine and_congr_right fun hnodup => ?_
  constructor
  · intro hall i j j' hij hij'
    obtain ⟨name, hname⟩ := h.named i j hij
    refine hconnections.mp (fun j k => ?_) j j' (name ++ "_test_conn") ⟨i, name, hij, hname, rfl⟩
      ⟨i, name, hij', hname, rfl⟩
    rintro ⟨i, name, hij, -, -⟩
    exact hall i j hij
  · intro hone i j hij
    obtain ⟨name, hname⟩ := h.named i j hij
    refine hconnections.mpr ?_ j _ ⟨i, name, hij, hname, rfl⟩
    rintro j j' k ⟨i, name, hij, hname, rfl⟩ ⟨i', name', hij', hname', hk⟩
    rw [String.append_left_inj] at hk
    subst hk
    obtain rfl := names_distinct_iff.mpr hnodup i i' name hname hname'
    exact hone i j j' hij hij'

/-! ### The destructor -/

inductive Object
  | listener (i : ℕ)
  | connection (j : ℕ)
  deriving DecidableEq

/-- `delete l`, after `gone` has been deleted: the listener, and those of its children that are
still there. -/
def deleteListener (c : QMudServerCore σ) (gone : List Object) (i : ℕ) : List Object :=
  let children := (List.range c.connectionHeap.length).filter fun j =>
    c.parents[j]? = some i ∧ Object.connection j ∉ gone
  gone ++ Object.listener i :: children.map Object.connection

/-- All that is deleted when the core is. -/
def destructor (c : QMudServerCore σ) : List Object :=
  let gone := c.listeners.values.foldl c.deleteListener []
  let gone := gone ++ c.connections.values.map Object.connection
  -- `~QObject` deletes the children of the core that are left
  let children := (List.range c.listenerHeap.length).filter fun i => Object.listener i ∉ gone
  children.foldl c.deleteListener gone

/-- The destructor deletes every listener created and every connection accepted once. -/
def DeletesOnce (c : QMudServerCore σ) (accepted : List (ℕ × ℕ)) : Prop :=
  (∀ i < c.listenerHeap.length, c.destructor.count (.listener i) = 1) ∧
    ∀ i j, (i, j) ∈ accepted → c.destructor.count (.connection j) = 1

lemma count_listener_map_connection (js : List ℕ) (i : ℕ) :
    (js.map Object.connection).count (.listener i) = 0 :=
  List.count_eq_zero.mpr (by simp)

lemma count_deleteListener (c : QMudServerCore σ) (gone : List Object) (i i' : ℕ) :
    (c.deleteListener gone i').count (.listener i) =
      gone.count (.listener i) + if i' = i then 1 else 0 := by
  rw [deleteListener, List.count_append, List.count_cons, count_listener_map_connection]
  simp

/-- Each walk over listeners deletes those that it comes to, as often as it does. -/
lemma count_foldl_deleteListener (c : QMudServerCore σ) (is : List ℕ) (gone : List Object)
    (i : ℕ) : (is.foldl c.deleteListener gone).count (.listener i) =
      gone.count (.listener i) + is.count i := by
  induction is generalizing gone with
  | nil => rfl
  | cons i' is ih =>
      rw [List.foldl_cons, ih, count_deleteListener, List.count_cons, Nat.add_assoc,
        Nat.add_comm (is.count i)]
      simp

lemma count_le_foldl (c : QMudServerCore σ) (is : List ℕ) (gone : List Object) (o : Object) :
    gone.count o ≤ (is.foldl c.deleteListener gone).count o := by
  induction is generalizing gone with
  | nil => exact le_rfl
  | cons i is ih =>
      refine le_trans ?_ (ih _)
      rw [deleteListener, List.count_append]
      exact Nat.le_add_right _ _

lemma child_mem_foldl {c : QMudServerCore σ} {is : List ℕ} {i j : ℕ} (hi : i ∈ is)
    (hj : c.parents[j]? = some i) (gone : List Object) :
    Object.connection j ∈ is.foldl c.deleteListener gone := by
  induction is generalizing gone with
  | nil => cases hi
  | cons i' is ih =>
      rw [List.foldl_cons]
      rcases List.mem_cons.mp hi with rfl | hi
      · have hdeleted : Object.connection j ∈ c.deleteListener gone i := by
          obtain ⟨hlt, -⟩ := List.getElem?_eq_some_iff.mp hj
          by_cases hgone : Object.connection j ∈ gone
          · exact List.mem_append_left _ hgone
          · refine List.mem_append_right _ (List.mem_cons_of_mem _ (List.mem_map_of_mem ?_))
            rw [List.mem_filter, List.mem_range]
            exact ⟨by simpa [parents] using hlt, by simp [hj, hgone]⟩
        exact List.count_pos_iff.mp
          ((List.count_pos_iff.mpr hdeleted).trans_le (count_le_foldl c is _ _))
      · exact ih hi _

lemma Filed.count_listener (h : c.Filed accepted) {i : ℕ} (hi : i ∈ c.listeners.values) :
    c.destructor.count (.listener i) = 1 := by
  have hnodup := h.listeners.values_nodup fun i k l hk hl => Option.some.inj (hk.symm.trans hl)
  have hgone : (c.listeners.values.foldl c.deleteListener [] ++
      c.connections.values.map Object.connection).count (.listener i) = 1 := by
    rw [List.count_append, count_foldl_deleteListener, List.count_eq_one_of_mem hnodup hi,
      count_listener_map_connection]
    rfl
  rw [destructor, count_foldl_deleteListener, hgone, List.count_eq_zero.mpr fun hmem => ?_]
  have hmem : Object.listener i ∉ c.listeners.values.foldl c.deleteListener [] ++
      c.connections.values.map Object.connection := by
    simpa using (List.mem_filter.mp hmem).2
  rw [← List.count_eq_zero, hgone] at hmem
  cases hmem

/-- One that is accepted and kept is deleted by its listener and once more by the core. -/
lemma Filed.count_connection (h : c.Filed accepted) (hkeeps : c.KeepsAll accepted) {i j : ℕ}
    (hij : (i, j) ∈ accepted) : 2 ≤ c.destructor.count (.connection j) := by
  obtain ⟨name, hname⟩ := h.named i j hij
  obtain ⟨hlt, -⟩ := List.getElem?_eq_some_iff.mp hname
  have hi : i ∈ c.listeners.values := hkeeps.1 i (by simpa [names] using hlt)
  have hchild : 1 ≤ (c.listeners.values.foldl c.deleteListener []).count (.connection j) :=
    List.count_pos_iff.mpr (child_mem_foldl hi (h.parents i j hij) _)
  have hvalue : 1 ≤ (c.connections.values.map Object.connection).count (.connection j) :=
    List.count_pos_iff.mpr (List.mem_map_of_mem (hkeeps.2 i j hij))
  refine le_trans ?_ (count_le_foldl c _ _ _)
  rw [List.count_append]
  exact Nat.add_le_add hchild hvalue

lemma Filed.deletesOnce_iff (h : c.Filed accepted) (hkeeps : c.KeepsAll accepted) :
    c.DeletesOnce accepted ↔ accepted = [] := by
  constructor
  · intro honce
    refine List.eq_nil_iff_forall_not_mem.mpr fun p hp => ?_
    have htwice := h.count_connection hkeeps hp
    rw [honce.2 _ _ hp] at htwice
    exact absurd htwice (by decide)
  · rintro rfl
    exact ⟨fun i hi => h.count_listener (hkeeps.1 i hi),
      fun i j hij => absurd hij List.not_mem_nil⟩

/-- **Keeping connections and listeners**: after a run the hashes have all that was created and
accepted, exactly if no two listeners were created with one name and no two connections accepted
on one listener; and then the destructor deletes all of it once, exactly if no connection was
accepted at all. -/
theorem keeps_iff (q : QTcpServer σ) (tr : List (Event × QMudServerCore σ))
    (h : Run (Step q) {} tr) :
    ((final {} tr).KeepsAll (acceptances tr) ↔ (createdNames tr).Nodup ∧
      ∀ i j j', (i, j) ∈ acceptances tr → (i, j') ∈ acceptances tr → j = j') ∧
    ((final {} tr).KeepsAll (acceptances tr) ∧ (final {} tr).DeletesOnce (acceptances tr) ↔
      (createdNames tr).Nodup ∧ acceptances tr = []) := by
  obtain ⟨hfiled, hnames⟩ := filed_new.run h
  rw [List.nil_append] at hfiled
  have hkeeps := hfiled.keepsAll_iff
  rw [hnames] at hkeeps
  refine ⟨hkeeps, ?_⟩
  constructor
  · rintro ⟨hall, honce⟩
    exact ⟨(hkeeps.mp hall).1, (hfiled.deletesOnce_iff hall).mp honce⟩
  · rintro ⟨hnodup, hnone⟩
    have hall := hkeeps.mpr ⟨hnodup, by simp [hnone]⟩
    exact ⟨hall, (hfiled.deletesOnce_iff hall).mpr hnone⟩

def clientEvents : List Event :=
  [.createListener "telnet" "0.0.0.0" 7999 true .telnet, .startListening,
    .server 0 (.incomingConnection true), .telnetReady 0 0]

/-- A client has connected and nothing has been accepted yet. -/
theorem connected_deleted_once : ∃ tr : List (Event × QMudServerCore (Bool × Bool)),
    events tr = clientEvents.take 3 ∧ Run (Step flags) {} tr ∧
    (final {} tr).KeepsAll (acceptances tr) ∧ (final {} tr).DeletesOnce (acceptances tr) := by
  have hrun : Run (Step flags) {} [(.createListener "telnet" "0.0.0.0" 7999 true .telnet, _),
      (.startListening, _), (.server 0 (.incomingConnection true), _)] :=
    .cons rfl (.cons rfl (.cons ⟨_, _, rfl, rfl, trivial, fun _ _ => rfl, rfl⟩ (.nil _)))
  exact ⟨_, rfl, hrun, (keeps_iff flags _ hrun).2.mpr ⟨List.nodup_singleton _, rfl⟩⟩

/-- A second client takes the place of the first, and a single one is deleted twice. -/
theorem client_lost_or_deleted_twice :
    (∃ tr : List (Event × QMudServerCore (Bool × Bool)),
      events tr = clientEvents ++ [.server 0 (.incomingConnection true), .telnetReady 0 1] ∧
      Run (Step flags) {} tr ∧ ¬ (final {} tr).KeepsAll (acceptances tr)) ∧
    ∃ tr : List (Event × QMudServerCore (Bool × Bool)),
      events tr = clientEvents ∧ Run (Step flags) {} tr ∧
      ¬ (final {} tr).DeletesOnce (acceptances tr) := by
  constructor
  · have hrun : Run (Step flags) {} [(.createListener "telnet" "0.0.0.0" 7999 true .telnet, _),
        (.startListening, _), (.server 0 (.incomingConnection true), _), (.telnetReady 0 0, _),
        (.server 0 (.incomingConnection true), _), (.telnetReady 0 1, _)] :=
      .cons rfl (.cons rfl (.cons ⟨_, _, rfl, rfl, trivial, fun _ _ => rfl, rfl⟩
        (.cons ⟨_, _, rfl, rfl, rfl, rfl⟩
          (.cons ⟨_, _, rfl, rfl, trivial, fun _ _ => rfl, rfl⟩
            (.cons ⟨_, _, rfl, rfl, rfl, rfl⟩ (.nil _))))))
    refine ⟨_, rfl, hrun, fun hkeeps => ?_⟩
    have hone := ((filed_new.run hrun).1.keepsAll_iff.mp hkeeps).2 0 0 1
    exact absurd (hone (by decide) (by decide)) (by decide)
  · have hrun : Run (Step flags) {} [(.createListener "telnet" "0.0.0.0" 7999 true .telnet, _),
        (.startListening, _), (.server 0 (.incomingConnection true), _), (.telnetReady 0 0, _)] :=
      .cons rfl (.cons rfl (.cons ⟨_, _, rfl, rfl, trivial, fun _ _ => rfl, rfl⟩
        (.cons ⟨_, _, rfl, rfl, rfl, rfl⟩ (.nil _))))
    refine ⟨_, rfl, hrun, fun honce => ?_⟩
    obtain ⟨hfiled, hnames⟩ := filed_new.run hrun
    have hkeeps := hfiled.keepsAll_iff.mpr ⟨by rw [hnames]; exact List.nodup_singleton _, by
      rintro i j j' hij hij'
      cases List.mem_singleton.mp hij
      cases List.mem_singleton.mp hij'
      rfl⟩
    exact absurd ((hfiled.deletesOnce_iff hkeeps).mp honce) (List.cons_ne_nil _ _)

end QMudServerCore

end ForgeMush.Mudcore

import ForgeMush.Duplex
import ForgeMush.Negotiation

/-!
Two connections that negotiate with each other.

Each runs `onConnect` of its options, one after the other, and then handles what the other
sends: by the dispatcher of the connection, or directly by the option addressed.
-/

namespace ForgeMush

open Runs

/-- A connection inside or after the loop of `start` over the options. -/
structure Peer where
  /-- The options whose `onConnect` has still to run. -/
  toStart : List TelnetCode
  conn : TelnetMudConnection

namespace Peer

open TelnetMudConnection

def of (c : TelnetMudConnection) : Peer := ⟨c.options.keys, c⟩

def startTurn (p : Peer) : Option (Peer × List Negotiation) :=
  match p.toStart with
  | [] => none
  | code :: rest =>
    let c := p.conn.onOption code TelnetOption.onConnect
    some (⟨rest, c⟩, replies p.conn c)

def handle (handler : TelnetMudConnection → Negotiation → TelnetMudConnection) (p : Peer)
    (m : Negotiation) : Peer × List Negotiation :=
  (⟨p.toStart, handler p.conn m⟩, replies p.conn (handler p.conn m))

/-- Two connections about to start. -/
def joined (a b : TelnetMudConnection) : Duplex.State Peer Negotiation where
  left := of a
  right := of b

/-! ### What a peer sends -/

def offersOf (t : OptionTable) (code : TelnetCode) : List Negotiation :=
  ((t.find? code).map TelnetOption.offers).getD []

lemma negotiation?_onConnect (op : TelnetOption) :
    op.onConnect.2.filterMap Call.negotiation? = op.offers := by
  rw [TelnetOption.onConnect_calls, List.filterMap_map]
  exact List.filterMap_some

lemma offers_request {op : TelnetOption} {m : Negotiation} (h : m ∈ op.offers) :
    m.2 = op.opCode ∧ (m.1 = TelnetCode.WILL ∨ m.1 = TelnetCode.DO) := by
  unfold TelnetOption.offers at h
  rcases List.mem_append.mp h with h | h
  · split_ifs at h
    · rw [List.mem_singleton.mp h]
      exact ⟨rfl, Or.inl rfl⟩
    · cases h
  · split_ifs at h
    · rw [List.mem_singleton.mp h]
      exact ⟨rfl, Or.inr rfl⟩
    · cases h

lemma offersOf_request {t : OptionTable} {code : TelnetCode} {m : Negotiation}
    (h : m ∈ offersOf t code) :
    m.2 = code ∧ (m.1 = TelnetCode.WILL ∨ m.1 = TelnetCode.DO) := by
  unfold offersOf at h
  cases hop : t.find? code with
  | none => simp [hop] at h
  | some op =>
      rw [hop] at h
      obtain ⟨hcode, hreq⟩ := offers_request h
      exact ⟨hcode.trans (Table.find?_eq_some_iff.mp hop).2, hreq⟩

lemma offersOf_of_sameClasses {t t' : OptionTable} (h : SameClasses t t') :
    offersOf t' = offersOf t := by
  funext code
  have hoffers : ∀ op op' : TelnetOption, op'.toOptionClass = op.toOptionClass →
      op'.offers = op.offers := by
    intro op op' hclass
    rw [TelnetOption.offers, TelnetOption.offers, hclass]
  unfold offersOf
  cases hop : t.find? code with
  | none =>
      have hnone : t'.find? code = none := by simpa [hop] using h code
      rw [hnone]
  | some op =>
      obtain ⟨op', hop', hclass⟩ := h.find? hop
      rw [hop', Option.map_some, Option.map_some, hoffers op op' hclass]

lemma startTurn_cases {p q : Peer} {out : List Negotiation} (h : p.startTurn = some (q, out)) :
    ∃ code, p.toStart = code :: q.toStart ∧
      q.conn = p.conn.onOption code TelnetOption.onConnect ∧
      out = offersOf p.conn.options code := by
  unfold startTurn at h
  cases hts : p.toStart with
  | nil => simp [hts] at h
  | cons code rest =>
      rw [hts] at h
      cases h
      refine ⟨code, rfl, rfl, ?_⟩
      unfold offersOf
      cases hop : p.conn.options.find? code with
      | none => simp [onOption_none hop, replies]
      | some op =>
          rw [replies, (onOption_some hop _).1, List.drop_left, negotiation?_onConnect]
          rfl

lemma startTurn_sameClasses {p q : Peer} {out : List Negotiation}
    (h : p.startTurn = some (q, out)) : SameClasses p.conn.options q.conn.options := by
  obtain ⟨code, -, hconn, -⟩ := startTurn_cases h
  rw [hconn]
  exact sameClasses_onOption _ _ fun op => by simp

lemma startTurn_eq_none {p : Peer} : p.startTurn = none ↔ p.toStart = [] := by
  unfold startTurn
  cases p.toStart <;> simp

lemma turns_toStart (handler : TelnetMudConnection → Negotiation → TelnetMudConnection) :
    Duplex.Turns ⟨startTurn, handle handler⟩ fun p => p.toStart.length where
  start p q out h := by
    obtain ⟨code, hts, -, -⟩ := startTurn_cases h
    simp [hts]
  deliver _ _ := rfl

end Peer

end ForgeMush

import ForgeMush.Decode

/-!
Negotiations from one connection to another.

What `sendNegotiate` writes is read as the negotiations it was called with, one by one, wherever
the bytes are cut on the way. No byte of the option is taken for anything else.
-/

namespace ForgeMush

open TelnetStream

namespace TelnetMudConnection

def sendNegotiates (c : TelnetMudConnection) (ms : List Negotiation) : TelnetMudConnection :=
  ms.foldl (fun c m => c.sendNegotiate m.1 m.2) c

def wireBytes (ms : List Negotiation) : Bytes :=
  ms.flatMap fun m => [TelnetCode.IAC, m.1, m.2]

lemma outbox_sendNegotiates (c : TelnetMudConnection) (ms : List Negotiation) :
    (c.sendNegotiates ms).outbox = c.outbox ++ wireBytes ms := by
  induction ms generalizing c with
  | nil => simp [sendNegotiates, wireBytes]
  | cons m ms ih =>
      have hone : (c.sendNegotiate m.1 m.2).outbox = c.outbox ++ [TelnetCode.IAC, m.1, m.2] := by
        simp [sendNegotiate, send_eq, record]
      have hrest : (c.sendNegotiates (m :: ms)).outbox = _ := ih (c.sendNegotiate m.1 m.2)
      rw [hrest, hone, List.append_assoc]
      rfl

lemma reading_wireBytes {ms : List Negotiation}
    (h : ∀ m ∈ ms, TelnetCode.isNegotiation m.1 = true) :
    reading (wireBytes ms) = (ms.map fun m => .negotiation m.1 m.2, []) := by
  induction ms with
  | nil => rfl
  | cons m ms ih =>
      have hm := h m List.mem_cons_self
      have hIAC : m.1 ≠ TelnetCode.IAC := by
        intro heq
        rw [heq] at hm
        cases hm
      have hrest := ih fun m' hm' => h m' (List.mem_cons_of_mem _ hm')
      have hcons : wireBytes (m :: ms) = TelnetCode.IAC :: m.1 :: m.2 :: wireBytes ms := rfl
      rw [hcons, reading_negotiation hIAC hm, tokens, rest, hrest]
      rfl

/-- **The round trip of negotiations**: the bytes that are sent for them, in whatever way they
are cut into reads, are handed on as the same negotiations in order and as nothing else, and
none is left. -/
theorem negotiations_round_trip (ms : List Negotiation)
    (hms : ∀ m ∈ ms, TelnetCode.isNegotiation m.1 = true) (a c : TelnetMudConnection)
    (hc : c.inbox = []) (reads : List Bytes)
    (hcut : (a.sendNegotiates ms).outbox = a.outbox ++ reads.flatten) :
    ∃ d, Reads c reads d ∧
      d.received = c.received ++ ms.map (fun m => .negotiation m.1 m.2) ∧ d.inbox = [] := by
  have hbytes : reads.flatten = wireBytes ms := by
    rw [outbox_sendNegotiates] at hcut
    exact (List.append_cancel_left hcut).symm
  have htokens : tokens reads.flatten = ms.map fun m => .negotiation m.1 m.2 := by
    rw [hbytes, tokens, reading_wireBytes hms]
  have hrest : rest reads.flatten = [] := by rw [hbytes, rest, reading_wireBytes hms]
  have hdata : ∀ t ∈ tokens reads.flatten, t.isData = false := by
    rw [htokens]
    intro t ht
    obtain ⟨m, -, rfl⟩ := List.mem_map.mp ht
    rfl
  have hno : NoSubnegotiation reads.flatten := by
    rw [NoSubnegotiation, hrest]
    simp
  have hord : Orderly reads.flatten := dataLast_of_noData hdata _
  obtain ⟨d, new, hd, hnew, -, hinbox, hexact⟩ := reads_of_orderly reads [] c (by simpa using hno)
    (by simpa using hord) (by simpa [rest] using hc)
  rw [List.nil_append] at hinbox hexact
  refine ⟨d, hd, ?_, hinbox.trans hrest⟩
  have hmessages : new = (decode reads.flatten).1 := hexact hdata
  rw [hnew, hmessages, decode, htokens, List.map_map]
  rfl

/-- IAC DO IAC and IAC WILL SB, cut inside the first and before the last byte. -/
theorem cut_negotiations_read :
    ∃ d, Reads (new 1 false true) [[255, 253], [255, 255, 251], [250]] d ∧
      d.received = [.negotiation TelnetCode.DO TelnetCode.IAC,
        .negotiation TelnetCode.WILL TelnetCode.SB] ∧ d.inbox = [] :=
  negotiations_round_trip [(TelnetCode.DO, TelnetCode.IAC), (TelnetCode.WILL, TelnetCode.SB)]
    (List.forall_mem_cons.mpr ⟨rfl, List.forall_mem_singleton.mpr rfl⟩) (new 0 false true)
    (new 1 false true) rfl _ (by decide)

end TelnetMudConnection

end ForgeMush

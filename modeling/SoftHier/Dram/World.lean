/-
  Dram/World.lean --- runs of `ddr` composed with `dramsys_conv`.

  A step is one top-level event: the client sends a request, the DRAM ends the
  request phase of the oldest transaction it was sent, or the DRAM answers a
  transaction.  Everything the event sets off, the client's requests from
  inside `grant` and `resp` included, belongs to the step.

  Of the DRAM it is assumed that END_REQs come in the order of the BEGIN_REQs,
  that a transaction is answered once and after its END_REQ, with as many bytes
  as it asked for, and that reads of one address and length are answered in the
  order they were accepted in.
-/
import SoftHier.Dram.Ddr
import SoftHier.Foundation.Transition

set_option autoImplicit false

namespace SoftHier.Dram

open SoftHier.Foundation Program

/-- The two components, and what the DRAM has done so far. -/
structure World where
  sys : Dramsys Ddr
  /-- How many transactions have got their END_REQ. -/
  ended : Nat
  /-- The transactions answered with BEGIN_RESP, and with which data. -/
  responses : List (Nat × Bytes)

namespace World

/-- After construction, with a DRAM of that many bytes per burst. -/
def start (burst : UInt64) : World where
  sys := {
    conv := {}
    burst := burst
    wbuffer := .zero
    wstrobe := .zero
    socket := []
    pushed := []
    host := {} }
  ended := 0
  responses := []

def log (w : World) : List LogEntry := w.sys.host.log

/-- Transaction `t` has been answered. -/
def Answered (w : World) (t : Nat) : Prop := t ∈ w.responses.map Prod.fst

end World

/-- Two transactions that `dramsys_conv` cannot tell apart. -/
def Payload.SameKey (p q : Payload) : Prop :=
  p.address = q.address ∧ p.dataLength = q.dataLength

instance (p q : Payload) : Decidable (p.SameKey q) := inferInstanceAs (Decidable (_ ∧ _))

instance (w : World) (t : Nat) : Decidable (w.Answered t) := inferInstanceAs (Decidable (_ ∈ _))

/-- What the DRAM may answer next. -/
structure MayAnswer (w : World) (t : Nat) (p : Payload) (data : Bytes) : Prop where
  sent : w.sys.socket[t]? = some p
  accepted : t < w.ended
  unanswered : ¬ w.Answered t
  length : data.length = p.dataLength.toNat
  inOrder : p.command = .read → ∀ t' < t, ∀ p' ∈ w.sys.socket[t']?,
    p'.command = .read → p'.SameKey p → w.Answered t'

/-- The client sends only requests with property `ok`. -/
def Client.Sends (client : Client) (ok : IoReq → Prop) : Prop := ∀ log, ∀ r ∈ client log, ok r

/-- The top-level events; `ok` restricts what the client sends. -/
inductive Step (ok : IoReq → Prop) (w : World) : World → Prop
  | submit {r : IoReq} {s : Dramsys Ddr} :
      ok r → Returns (submit r) w.sys () s → Step ok w { w with sys := s }
  | endReq {client : Client} {p : Payload} {s : Dramsys Ddr} :
      client.Sends ok → w.sys.socket[w.ended]? = some p →
      Returns (Conv.peqEndReq (callbacks client) p) w.sys () s →
      Step ok w { w with sys := s, ended := w.ended + 1 }
  | beginResp {client : Client} {t : Nat} {p : Payload} {data : Bytes} {s : Dramsys Ddr} :
      client.Sends ok → MayAnswer w t p data →
      Returns (Conv.peqBeginResp (callbacks client) p data) w.sys () s →
      Step ok w { w with sys := s, responses := w.responses ++ [(t, data)] }

/-- The states that runs reach. -/
def World.Reached (ok : IoReq → Prop) (w : World) : Prop :=
  Reachable (fun s => ∃ burst, s = World.start burst) (Step ok) w

/-- The states of a run over a DRAM with bursts of that length, the latest first. -/
def World.Run (ok : IoReq → Prop) (burst : UInt64) (states : List World) : Prop :=
  Trace (fun s => s = World.start burst) (Step ok) states

variable {ok : IoReq → Prop}

/-- The states of a run are reached. -/
theorem World.Run.reached {burst : UInt64} {states : List World} (h : World.Run ok burst states) :
    ∀ w ∈ states, w.Reached ok := by
  have hreach : ∀ {states : List World}, World.Run ok burst states →
      Trace (fun s => ∃ burst, s = World.start burst) (Step ok) states := by
    intro states h
    induction h with
    | start h0 => exact .start ⟨burst, h0⟩
    | next _ hstep ih => exact .next ih hstep
  exact (hreach h).reachable

/-! ## Events that can be evaluated -/

instance (w : World) (t : Nat) (p : Payload) (data : Bytes) : Decidable (MayAnswer w t p data) :=
  decidable_of_iff
    ((w.sys.socket[t]? = some p ∧ t < w.ended ∧ ¬ w.Answered t ∧
        data.length = p.dataLength.toNat) ∧
      (p.command = .read → ∀ t' < t, ∀ p' ∈ w.sys.socket[t']?,
        p'.command = .read → p'.SameKey p → w.Answered t'))
    ⟨fun h => ⟨h.1.1, h.1.2.1, h.1.2.2.1, h.1.2.2.2, h.2⟩,
      fun h => ⟨⟨h.sent, h.accepted, h.unanswered, h.length⟩, h.inOrder⟩⟩

namespace World

/-- After the client sent a request. -/
def submitted (w : World) (r : IoReq) : World :=
  { w with sys := finalState (submit r) w.sys }

/-- The END_REQ of a transaction. -/
def endReq (w : World) (client : Client) : DdrProgram Unit :=
  match w.sys.socket[w.ended]? with
  | none => throw .undefined
  | some p => Conv.peqEndReq (callbacks client) p

/-- After the next END_REQ. -/
def requestEnded (w : World) (client : Client) : World :=
  { w with
    sys := finalState (w.endReq client) w.sys
    ended := w.ended + 1 }

/-- The BEGIN_RESP of a transaction, where the DRAM may send it. -/
def beginResp (w : World) (client : Client) (t : Nat) (data : Bytes) : DdrProgram Unit :=
  match w.sys.socket[t]? with
  | none => throw .undefined
  | some p =>
    if MayAnswer w t p data then Conv.peqBeginResp (callbacks client) p data
    else throw .undefined

/-- After BEGIN_RESP of transaction `t`. -/
def answered (w : World) (client : Client) (t : Nat) (data : Bytes) : World :=
  { w with
    sys := finalState (w.beginResp client t data) w.sys
    responses := w.responses ++ [(t, data)] }

end World

theorem step_submitted {w : World} {r : IoReq} (hok : ok r)
    (h : returned? (submit r) w.sys = some ()) : Step ok w (w.submitted r) :=
  .submit hok (returns_of_returned? h)

theorem step_requestEnded {w : World} {client : Client} (hclient : client.Sends ok)
    (h : returned? (w.endReq client) w.sys = some ()) : Step ok w (w.requestEnded client) := by
  have hreturns := returns_of_returned? h
  cases hp : w.sys.socket[w.ended]? with
  | none =>
    have heq : w.endReq client = throw .undefined := by
      unfold World.endReq
      rw [hp]
    rw [heq] at hreturns
    exact absurd hreturns not_returns_throw
  | some p =>
    have heq : w.endReq client = Conv.peqEndReq (callbacks client) p := by
      unfold World.endReq
      rw [hp]
    apply Step.endReq hclient hp
    rw [← heq]
    exact hreturns

theorem step_answered {w : World} {client : Client} {t : Nat} {data : Bytes}
    (hclient : client.Sends ok) (h : returned? (w.beginResp client t data) w.sys = some ()) :
    Step ok w (w.answered client t data) := by
  have hreturns := returns_of_returned? h
  have hrefused : w.beginResp client t data ≠ throw .undefined := by
    intro heq
    rw [heq] at hreturns
    exact absurd hreturns not_returns_throw
  cases hp : w.sys.socket[t]? with
  | none =>
    refine absurd ?_ hrefused
    unfold World.beginResp
    rw [hp]
  | some p =>
    by_cases hmay : MayAnswer w t p data
    · have heq : w.beginResp client t data = Conv.peqBeginResp (callbacks client) p data := by
        unfold World.beginResp
        simp only [hp, if_pos hmay]
      apply Step.beginResp hclient hmay
      rw [← heq]
      exact hreturns
    · refine absurd ?_ hrefused
      unfold World.beginResp
      simp only [hp, if_neg hmay]

end SoftHier.Dram

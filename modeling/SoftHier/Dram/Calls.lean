/-
  Dram/Calls.lean --- what the calls between the components do.

  A request of the client is either sent at once or queued.  `reqCallback`
  serves at most one queued request, because nothing is accepted once that one
  was sent: what the client sends from inside `grant` and `resp` there is queued
  behind it.  `fillReads` gets an invariant rule whose invariant is told which
  read is answered but still at the head of the queue.
-/
import SoftHier.Dram.Sending

set_option autoImplicit false

namespace SoftHier.Dram

open SoftHier.Foundation Program

variable {client : Client} {s s' : Dramsys Ddr} {r : IoReq} {u : Unit}

namespace Dramsys

/-- The state after some entries were added to the log. -/
def logged (s : Dramsys Ddr) (es : List LogEntry) : Dramsys Ddr :=
  { s with host := { s.host with log := s.host.log ++ es } }

/-- The log of requests that are all denied. -/
def denialLog (rs : List IoReq) : List LogEntry :=
  rs.flatMap fun r => [.submit r, .status r .denied]

/-- The state after some requests were denied. -/
def denied (s : Dramsys Ddr) (rs : List IoReq) : Dramsys Ddr :=
  { s with host := { s.host with
    deniedReqQueue := s.host.deniedReqQueue ++ rs
    log := s.host.log ++ denialLog rs } }

theorem denied_nil (s : Dramsys Ddr) : s.denied [] = s := by
  unfold denied denialLog
  rw [List.append_nil, List.flatMap_nil, List.append_nil]

theorem denied_cons (s : Dramsys Ddr) (r : IoReq) (rs : List IoReq) :
    s.denied (r :: rs) = (s.denied [r]).denied rs := by
  simp [denied, denialLog]

end Dramsys

open Dramsys

/-! ## A request of the client -/

/-- The answer to a request that is sent at once. -/
def IoReq.accepted (r : IoReq) : IoReqStatus := if r.isWrite then .ok else .pending

/-- What one call of `ddr::req` comes to. -/
inductive Submitted (s : Dramsys Ddr) (r : IoReq) : Dramsys Ddr → Prop
  | accepted {t : Dramsys Ddr} :
      s.conv.dramCanAcceptReq = true → HandedOver (s.logged [.submit r]) r t →
      Submitted s r (t.logged [.status r r.accepted])
  | denied : s.conv.dramCanAcceptReq = false → Submitted s r (s.denied [r])

theorem submit_inv (h : Returns (submit r) s u s') : Submitted s r s' := by
  unfold submit at h
  obtain ⟨_, s₁, hsubmit, h⟩ := returns_bind.mp h
  have h₁ : s.logged [.submit r] = s₁ := returns_modify.mp hsubmit
  obtain ⟨st, s₂, hreq, hstatus⟩ := returns_bind.mp h
  have h₂ : s₂.logged [.status r st] = s' := returns_modify.mp hstatus
  unfold req at hreq
  rw [returns_get_bind] at hreq
  have hcan : s₁.conv.dramCanAcceptReq = s.conv.dramCanAcceptReq := by rw [← h₁]; rfl
  split at hreq
  next haccept =>
    obtain ⟨_, t, hsend, hret⟩ := returns_bind.mp hreq
    rcases returns_pure.mp hret with ⟨rfl, rfl⟩
    rw [← h₂]
    apply Submitted.accepted (hcan ▸ haccept)
    rw [h₁]
    exact paraSendRequest_handedOver hsend
  next hdeny =>
    obtain ⟨_, t, hpush, hret⟩ := returns_bind.mp hreq
    rcases returns_pure.mp hret with ⟨rfl, rfl⟩
    have hs' : s' = s.denied [r] := by
      rw [← h₂, ← returns_modify.mp hpush, ← h₁]
      simp [logged, Dramsys.denied, denialLog]
    rw [hs']
    apply Submitted.denied
    rw [← hcan]
    exact Bool.eq_false_iff.mpr hdeny

/-- While nothing is accepted, every request of the client is queued. -/
theorem submitAll_denied {rs : List IoReq} (hfull : s.conv.dramCanAcceptReq = false)
    (h : Returns (forEach submit rs) s u s') : s' = s.denied rs := by
  induction rs generalizing s with
  | nil =>
    rw [returns_forEach_nil] at h
    rw [denied_nil, h]
  | cons r rs ih =>
    obtain ⟨t, hone, hrest⟩ := returns_forEach_cons.mp h
    cases submit_inv hone with
    | accepted hcan _ =>
      rw [hfull] at hcan
      cases hcan
    | denied _ =>
      rw [denied_cons]
      exact ih hfull hrest

/-- What every request of the client keeps holds when a call on it is over. -/
theorem callClient_induct {ok : IoReq → Prop} (hclient : ∀ log, ∀ r ∈ client log, ok r)
    {J : Dramsys Ddr → Prop} {e : LogEntry}
    (submit : ∀ (r : IoReq) (s s' : Dramsys Ddr), ok r → J s → Submitted s r s' → J s')
    (hlog : J (s.logged [e])) (h : Returns (callClient client e) s u s') : J s' := by
  unfold callClient at h
  obtain ⟨_, t, ht, h⟩ := returns_bind.mp h
  rw [returns_get_bind] at h
  rw [show s.logged [e] = t from returns_modify.mp ht] at hlog
  have hall := hclient t.host.log
  generalize client t.host.log = rs at h hall
  clear ht
  induction rs generalizing t with
  | nil =>
    rw [returns_forEach_nil] at h
    rw [← h]
    exact hlog
  | cons r rs ih =>
    obtain ⟨v, hone, hrest⟩ := returns_forEach_cons.mp h
    apply ih v _ hrest
    · exact fun q hq => hall q (List.mem_cons_of_mem r hq)
    · exact submit r t v (hall r List.mem_cons_self) hlog (submit_inv hone)

theorem callClient_denied {e : LogEntry} (hfull : s.conv.dramCanAcceptReq = false)
    (h : Returns (callClient client e) s u s') :
    ∃ rs, (∀ r ∈ rs, ∃ log, r ∈ client log) ∧ s' = (s.logged [e]).denied rs := by
  unfold callClient at h
  obtain ⟨_, t, hlog, h⟩ := returns_bind.mp h
  have ht : s.logged [e] = t := returns_modify.mp hlog
  rw [returns_get_bind] at h
  have hfull' : t.conv.dramCanAcceptReq = false := by rw [← ht]; exact hfull
  refine ⟨client t.host.log, fun r hr => ⟨_, hr⟩, ?_⟩
  rw [ht]
  exact submitAll_denied hfull' h

/-! ## The queue of denied requests -/

/-- The calls made on the client when a queued request is served, and the
requests it sends there. -/
def serveLog (r : IoReq) (rs rs' : List IoReq) : List LogEntry :=
  .grant r :: denialLog rs ++
    if r.isWrite then .resp r r.data :: denialLog rs' else []

/-- What a call of `reqCallback` comes to. -/
inductive Served (client : Client) (s : Dramsys Ddr) : Dramsys Ddr → Prop
  | idle : s.conv.dramCanAcceptReq = false ∨ s.host.deniedReqQueue = [] → Served client s s
  | served {r : IoReq} {rest rs rs' : List IoReq} {t : Dramsys Ddr} :
      s.conv.dramCanAcceptReq = true → s.host.deniedReqQueue = r :: rest → HandedOver s r t →
      (∀ q ∈ rs ++ rs', ∃ log, q ∈ client log) → (r.isWrite = false → rs' = []) →
      Served client s { t with host := { t.host with
        deniedReqQueue := rest ++ (rs ++ rs')
        log := t.host.log ++ serveLog r rs rs' } }

/-- The loop of `reqCallback` ends because its condition is false. -/
theorem serveDenied_full {fuel : Nat} (hfull : s.conv.dramCanAcceptReq = false)
    (h : Returns (serveDenied client fuel) s u s') : s' = s := by
  cases fuel with
  | zero =>
    rw [serveDenied, returns_pure] at h
    exact h.2.symm
  | succ fuel =>
    rw [serveDenied, returns_get_bind, hfull, if_neg Bool.false_ne_true, returns_pure] at h
    exact h.2.symm

theorem reqCallback_inv (h : Returns (reqCallback client) s u s') : Served client s s' := by
  unfold reqCallback at h
  rw [returns_get_bind] at h
  cases hqueue : s.host.deniedReqQueue with
  | nil =>
    rw [hqueue, List.length_nil, serveDenied, returns_pure] at h
    rw [← h.2]
    exact .idle (.inr hqueue)
  | cons r rest =>
    rw [hqueue, List.length_cons, serveDenied, returns_get_bind] at h
    split at h
    next hcan =>
      rw [hqueue] at h
      obtain ⟨_, t, hsend, h⟩ := returns_bind.mp h
      have hover := paraSendRequest_handedOver hsend
      have hfull := hover.dramCanAcceptReq
      obtain ⟨_, t₁, hgrant, h⟩ := returns_bind.mp h
      obtain ⟨rs, hrs, ht₁⟩ := callClient_denied hfull hgrant
      have hfull₁ : t₁.conv.dramCanAcceptReq = false := by rw [ht₁]; exact hfull
      have hqueue' : t.host.deniedReqQueue = r :: rest := by rw [hover.host]; exact hqueue
      obtain ⟨_, t₂, hresp, h⟩ := returns_bind.mp h
      obtain ⟨_, t₃, hpop, hloop⟩ := returns_bind.mp h
      have ht₃ := returns_modify.mp hpop
      unfold respWrite at hresp
      cases hw : r.isWrite with
      | true =>
        rw [hw, if_pos rfl] at hresp
        obtain ⟨rs', hrs', ht₂⟩ := callClient_denied hfull₁ hresp
        have hfull₃ : t₃.conv.dramCanAcceptReq = false := by rw [← ht₃, ht₂]; exact hfull₁
        have hs' : s' = { t with host := { t.host with
            deniedReqQueue := rest ++ (rs ++ rs')
            log := t.host.log ++ serveLog r rs rs' } } := by
          rw [serveDenied_full hfull₃ hloop, ← ht₃, ht₂, ht₁]
          simp [logged, Dramsys.denied, serveLog, hw, hqueue']
        rw [hs']
        apply Served.served hcan hqueue hover
        · intro q hq
          rcases List.mem_append.mp hq with hq | hq
          · exact hrs q hq
          · exact hrs' q hq
        · intro hread
          rw [hw] at hread
          cases hread
      | false =>
        rw [hw, if_neg Bool.false_ne_true, returns_pure] at hresp
        have hfull₃ : t₃.conv.dramCanAcceptReq = false := by
          rw [← ht₃, ← hresp.2]
          exact hfull₁
        have hs' : s' = { t with host := { t.host with
            deniedReqQueue := rest ++ (rs ++ [])
            log := t.host.log ++ serveLog r rs [] } } := by
          rw [serveDenied_full hfull₃ hloop, ← ht₃, ← hresp.2, ht₁]
          simp [logged, Dramsys.denied, serveLog, hw, hqueue']
        rw [hs']
        apply Served.served hcan hqueue hover
        · rw [List.append_nil]
          exact hrs
        · exact fun _ => rfl
    next hcan =>
      rw [returns_pure] at h
      rw [← h.2]
      exact .idle (.inl (Bool.eq_false_iff.mpr hcan))

/-! ## The bytes of reads -/

/-- The state after the first byte of the stream went to the oldest read. -/
def Dramsys.tookByte (s : Dramsys Ddr) (bytes : Bytes) (p : PendingRead) (ps : List PendingRead) :
    Dramsys Ddr :=
  { s with
    conv := { s.conv with readRspQueue := bytes }
    host := { s.host with pendingReadReqQueue := p :: ps } }

/-- The state after the head of the queue of reads was taken off. -/
def Dramsys.popPending (s : Dramsys Ddr) : Dramsys Ddr :=
  { s with host := { s.host with pendingReadReqQueue := s.host.pendingReadReqQueue.tail } }

/-- The invariant rule of `fillReads`.  The invariant is told the read that was
answered and is not yet off the queue, if there is one. -/
theorem fillReads_induct {ok : IoReq → Prop} (hclient : ∀ log, ∀ r ∈ client log, ok r)
    (I : Option PendingRead → Dramsys Ddr → Prop)
    (take : ∀ (s : Dramsys Ddr) (byte : UInt8) (bytes : Bytes) (p p' : PendingRead)
      (ps : List PendingRead), s.conv.readRspQueue = byte :: bytes →
      s.host.pendingReadReqQueue = p :: ps → p.takeByte byte = some p' → I none s →
      if p'.mask = [] then I (some p') ((s.tookByte bytes p' ps).logged [.resp p'.req p'.data])
      else I none (s.tookByte bytes p' ps))
    (submit : ∀ (p : PendingRead) (r : IoReq) (s s' : Dramsys Ddr), ok r → I (some p) s →
      Submitted s r s' → I (some p) s')
    (pop : ∀ (p : PendingRead) (s : Dramsys Ddr), I (some p) s → I none s.popPending)
    {fuel : Nat} {s s' : Dramsys Ddr} (h0 : I none s)
    (h : Returns (fillReads client fuel) s () s') : I none s' := by
  induction fuel generalizing s with
  | zero =>
    rw [fillReads, returns_pure] at h
    rw [← h.2]
    exact h0
  | succ fuel ih =>
    rw [fillReads, returns_get_bind] at h
    split at h
    next hhas =>
      split at h
      · rw [returns_pure] at h
        rw [← h.2]
        exact h0
      next p ps hpending =>
        split at h
        · exact absurd h not_returns_throw
        next p' htake =>
          obtain ⟨byte, bytes, hqueue⟩ : ∃ byte bytes, s.conv.readRspQueue = byte :: bytes := by
            apply List.exists_cons_of_ne_nil
            intro hnil
            rw [Conv.dramHasReadRsp, hnil] at hhas
            simp at hhas
          have hget : s.conv.dramGetReadRspByte =
              (byte, { s.conv with readRspQueue := bytes }) := by
            rw [Conv.dramGetReadRspByte, hqueue]
          rw [hget] at htake
          have hstep := take s byte bytes p p' ps hqueue hpending htake h0
          unfold modifyConv modifyHost at h
          rw [returns_modify_bind, returns_modify_bind] at h
          change Returns _ { s with
            conv := s.conv.dramGetReadRspByte.2
            host := { s.host with pendingReadReqQueue := p' :: ps } } () s' at h
          rw [hget] at h
          change Returns _ (s.tookByte bytes p' ps) () s' at h
          split at h
          next hmask =>
            rw [if_pos (List.length_eq_zero_iff.mp hmask)] at hstep
            obtain ⟨_, t, hcall, h⟩ := returns_bind.mp h
            rw [returns_modify_bind] at h
            apply ih _ h
            apply pop p' t
            exact callClient_induct hclient (submit p') hstep hcall
          next hmask =>
            rw [if_neg fun hnil => hmask (by rw [hnil, List.length_nil])] at hstep
            exact ih hstep h
    next hhas =>
      rw [returns_pure] at h
      rw [← h.2]
      exact h0

end SoftHier.Dram

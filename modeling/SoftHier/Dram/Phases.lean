/-
  Dram/Phases.lean --- what `peqCallback` does, whatever is registered.

  END_REQ moves the oldest request and then calls back; BEGIN_RESP of a write
  drops one and calls back; BEGIN_RESP of a read parks the response and then
  releases reads, calling back after each.
-/
import SoftHier.Dram.Conv

set_option autoImplicit false

namespace SoftHier.Dram

open SoftHier.Foundation Program

variable {δ : Type} {callbacks : Callbacks δ} {p : Payload} {s s' : Dramsys δ} {u : Unit}

namespace Conv

/-- The oldest request has been accepted. -/
def acceptReq (c : Conv) (req : Req) (rest : List Req) : Conv :=
  if req.isWrite then { c with
    writeReqList := c.writeReqList ++ [req]
    allReqList := rest }
  else { c with
    readReqList := c.readReqList ++ [req]
    inflightReadCnt := c.inflightReadCnt + 1
    allReqList := rest }

/-- The response of a read has been parked. -/
def parkRsp (c : Conv) (req : Req) (data : Bytes) : Conv :=
  { c with outOrderRspList := c.outOrderRspList ++ [(req, data)] }

/-- The oldest read has been released with the bytes of its response. -/
def releaseReq (c : Conv) (req : Req) (reqs : List Req) (data : Bytes) : Conv :=
  { c with
    readRspQueue := c.readRspQueue ++ data
    readReqList := reqs
    outOrderRspList := eraseRsp c.outOrderRspList req
    inflightReadCnt := c.inflightReadCnt - 1 }

/-- The oldest write has been answered. -/
def answerWrite (c : Conv) (rest : List Req) : Conv :=
  { c with
    writeReqList := rest
    writeRspQueue := c.writeRspQueue ++ [1] }

end Conv

theorem peqEndReq_inv (h : Returns (Conv.peqEndReq callbacks p) s u s') :
    ∃ req rest, s.conv.allReqList = req :: rest ∧
      (req.isWrite = true ↔ p.command = .write) ∧
      Returns callbacks.updateRequest { s with conv := s.conv.acceptReq req rest } u s' := by
  unfold Conv.peqEndReq at h
  rw [returns_get_bind] at h
  cases hlist : s.conv.allReqList with
  | nil =>
    rw [hlist] at h
    exact absurd h not_returns_throw
  | cons req rest =>
    rw [hlist] at h
    refine ⟨req, rest, rfl, ?_⟩
    unfold Conv.acceptReq
    cases hc : p.command with
    | read =>
      simp only [hc] at h
      split at h
      · exact absurd h not_returns_throw
      next hw =>
        rw [if_neg hw]
        split at h
        · exact absurd h not_returns_throw
        · exact ⟨⟨fun hw' => absurd hw' hw, fun hc' => by cases hc'⟩, h⟩
    | write =>
      simp only [hc] at h
      split at h
      next hw =>
        rw [if_pos hw]
        exact ⟨⟨fun _ => rfl, fun _ => hw⟩, h⟩
      · exact absurd h not_returns_throw

/-- A read is accepted only while the counter does not overflow. -/
theorem inflightReadCnt_of_peqEndReq (h : Returns (Conv.peqEndReq callbacks p) s u s')
    (hc : p.command = .read) : s.conv.inflightReadCnt + 1 < 2 ^ 31 := by
  by_contra hover
  unfold Conv.peqEndReq at h
  rw [returns_get_bind] at h
  cases hlist : s.conv.allReqList with
  | nil =>
    rw [hlist] at h
    exact not_returns_throw h
  | cons req rest =>
    simp only [hlist, hc, if_pos (not_lt.mp hover)] at h
    split at h
    · exact not_returns_throw h
    · exact not_returns_throw h

theorem peqBeginResp_write_inv {data : Bytes} (hp : p.command = .write)
    (h : Returns (Conv.peqBeginResp callbacks p data) s u s') :
    ∃ req rest, s.conv.writeReqList = req :: rest ∧
      Returns (callbacks.response true) { s with conv := s.conv.answerWrite rest } u s' := by
  unfold Conv.peqBeginResp at h
  rw [returns_get_bind, hp] at h
  cases hlist : s.conv.writeReqList with
  | nil =>
    rw [hlist] at h
    exact absurd h not_returns_throw
  | cons req rest =>
    rw [hlist] at h
    exact ⟨req, rest, rfl, h⟩

theorem peqBeginResp_read_inv {data : Bytes} (hp : p.command = .read)
    (h : Returns (Conv.peqBeginResp callbacks p data) s u s') :
    ∃ req, Conv.findReq s.conv.readReqList p = some req ∧
      Returns (Conv.releaseReads callbacks s.conv.readReqList.length)
        { s with conv := s.conv.parkRsp req (data.take req.len.toNat) } u s' := by
  unfold Conv.peqBeginResp at h
  rw [returns_get_bind, hp] at h
  cases hfind : Conv.findReq s.conv.readReqList p with
  | none =>
    simp only [hfind] at h
    exact absurd h not_returns_throw
  | some req =>
    simp only [hfind] at h
    split at h
    · exact absurd h not_returns_throw
    · exact ⟨req, rfl, h⟩

/-- The invariant rule of the loop that releases reads. -/
theorem releaseReads_induct {J : Dramsys δ → Prop}
    (release : ∀ (s : Dramsys δ) (req : Req) (reqs : List Req) (rsp : Req × Bytes),
      s.conv.readReqList = req :: reqs → Conv.findRsp s.conv.outOrderRspList req = some rsp →
      req.len.toNat ≤ rsp.2.length → J s →
      J { s with
        conv := s.conv.releaseReq req reqs (rsp.2.take req.len.toNat)
        pushed := s.pushed ++ rsp.2.take req.len.toNat })
    (response : ∀ s s', J s → Returns (callbacks.response false) s () s' → J s')
    {fuel : Nat} (h0 : J s) (h : Returns (Conv.releaseReads callbacks fuel) s u s') : J s' := by
  induction fuel generalizing s with
  | zero =>
    rw [Conv.releaseReads, returns_pure] at h
    rw [← h.2]
    exact h0
  | succ fuel ih =>
    rw [Conv.releaseReads, returns_get_bind] at h
    cases hlist : s.conv.readReqList with
    | nil =>
      rw [hlist, returns_pure] at h
      rw [← h.2]
      exact h0
    | cons req reqs =>
      rw [hlist] at h
      cases hfind : Conv.findRsp s.conv.outOrderRspList req with
      | none =>
        simp only [hfind] at h
        rw [← (returns_pure.mp h).2]
        exact h0
      | some rsp =>
        simp only [hfind] at h
        split at h
        · exact absurd h not_returns_throw
        next hlen =>
          split at h
          · exact absurd h not_returns_throw
          unfold modifyConv at h
          rw [returns_modify_bind, returns_modify_bind] at h
          obtain ⟨_, t, hcall, hloop⟩ := returns_bind.mp h
          apply ih _ hloop
          apply response _ t _ hcall
          exact release s req reqs rsp hlist hfind (by omega) h0

/-! ## Events that are handled to their end -/

theorem returns_peqEndReq {req : Req} {rest : List Req} (hlist : s.conv.allReqList = req :: rest)
    (hwrite : req.isWrite = true ↔ p.command = .write)
    (hcount : p.command = .read → s.conv.inflightReadCnt + 1 < 2 ^ 31)
    (h : Returns callbacks.updateRequest { s with conv := s.conv.acceptReq req rest } u s') :
    Returns (Conv.peqEndReq callbacks p) s u s' := by
  unfold Conv.peqEndReq
  rw [returns_get_bind, hlist]
  unfold Conv.acceptReq at h
  cases hc : p.command with
  | read =>
    have hread : ¬ req.isWrite = true := by
      rw [hwrite, hc]
      exact nofun
    rw [if_neg hread] at h
    simp only [if_neg hread, if_neg (not_le.mpr (hcount hc))]
    exact h
  | write =>
    have hw : req.isWrite = true := hwrite.mpr hc
    rw [if_pos hw] at h
    simp only [if_pos hw]
    exact h

theorem returns_peqBeginResp_write {data : Bytes} {req : Req} {rest : List Req}
    (hp : p.command = .write) (hlist : s.conv.writeReqList = req :: rest)
    (h : Returns (callbacks.response true) { s with conv := s.conv.answerWrite rest } u s') :
    Returns (Conv.peqBeginResp callbacks p data) s u s' := by
  unfold Conv.peqBeginResp
  rw [returns_get_bind, hp, hlist]
  exact h

theorem returns_peqBeginResp_read {data : Bytes} {req : Req} (hp : p.command = .read)
    (hfind : Conv.findReq s.conv.readReqList p = some req) (hlen : req.len.toNat < 2 ^ 31)
    (h : Returns (Conv.releaseReads callbacks s.conv.readReqList.length)
      { s with conv := s.conv.parkRsp req (data.take req.len.toNat) } u s') :
    Returns (Conv.peqBeginResp callbacks p data) s u s' := by
  unfold Conv.peqBeginResp
  rw [returns_get_bind, hp]
  simp only [hfind]
  rw [if_neg (not_le.mpr hlen)]
  exact h

/-- The loop stops when there is nothing to release. -/
theorem returns_releaseReads_idle {fuel : Nat}
    (h : ∀ req reqs, s.conv.readReqList = req :: reqs →
      Conv.findRsp s.conv.outOrderRspList req = none) :
    Returns (Conv.releaseReads callbacks fuel) s () s := by
  cases fuel with
  | zero => exact returns_pure.mpr ⟨rfl, rfl⟩
  | succ fuel =>
    rw [Conv.releaseReads, returns_get_bind]
    cases hlist : s.conv.readReqList with
    | nil => exact returns_pure.mpr ⟨rfl, rfl⟩
    | cons req reqs =>
      simp only [h req reqs hlist]
      exact returns_pure.mpr ⟨rfl, rfl⟩

/-- One pass of the loop. -/
theorem returns_releaseReads_succ {fuel : Nat} {req : Req} {reqs : List Req} {rsp : Req × Bytes}
    {t : Dramsys δ} (hlist : s.conv.readReqList = req :: reqs)
    (hfind : Conv.findRsp s.conv.outOrderRspList req = some rsp)
    (hlen : req.len.toNat ≤ rsp.2.length) (hcount : -2 ^ 31 < s.conv.inflightReadCnt)
    (hcall : Returns (callbacks.response false) { s with
      conv := s.conv.releaseReq req reqs (rsp.2.take req.len.toNat)
      pushed := s.pushed ++ rsp.2.take req.len.toNat } () t)
    (h : Returns (Conv.releaseReads callbacks fuel) t u s') :
    Returns (Conv.releaseReads callbacks (fuel + 1)) s u s' := by
  rw [Conv.releaseReads, returns_get_bind, hlist]
  simp only [hfind]
  rw [if_neg (not_lt.mpr hlen), if_neg (by omega)]
  unfold modifyConv
  rw [returns_modify_bind, returns_modify_bind]
  exact Returns.bind hcall h

/-- The oldest read that waits has no response among the parked ones. -/
def Settled (s : Dramsys δ) : Prop :=
  ∀ req reqs, s.conv.readReqList = req :: reqs → Conv.findRsp s.conv.outOrderRspList req = none

/-- The loop comes to its end, and then nothing is left to release, if the user
handles each read that is released. -/
theorem returns_releaseReads {I : Dramsys δ → Prop}
    (pass : ∀ (s : Dramsys δ) (req : Req) (reqs : List Req) (rsp : Req × Bytes), I s →
      s.conv.readReqList = req :: reqs → Conv.findRsp s.conv.outOrderRspList req = some rsp →
      req.len.toNat ≤ rsp.2.length ∧ -2 ^ 31 < s.conv.inflightReadCnt ∧
        ∃ t, Returns (callbacks.response false) { s with
        conv := s.conv.releaseReq req reqs (rsp.2.take req.len.toNat)
        pushed := s.pushed ++ rsp.2.take req.len.toNat } () t ∧
        I t ∧ t.conv.readReqList = reqs)
    {fuel : Nat} (hfuel : s.conv.readReqList.length ≤ fuel) (h : I s) :
    ∃ s', Returns (Conv.releaseReads callbacks fuel) s () s' ∧ I s' ∧ Settled s' := by
  induction fuel generalizing s with
  | zero =>
    have hsettled : Settled s := by
      intro req reqs hlist
      rw [hlist, List.length_cons] at hfuel
      omega
    exact ⟨s, returns_releaseReads_idle hsettled, h, hsettled⟩
  | succ fuel ih =>
    by_cases hidle : Settled s
    · exact ⟨s, returns_releaseReads_idle hidle, h, hidle⟩
    · unfold Settled at hidle
      push Not at hidle
      obtain ⟨req, reqs, hlist, hsome⟩ := hidle
      obtain ⟨rsp, hfind⟩ := Option.ne_none_iff_exists'.mp hsome
      obtain ⟨hlen, hcount, t, hcall, ht, hreads⟩ := pass s req reqs rsp h hlist hfind
      obtain ⟨s', hloop, hs', hsettled⟩ := ih (by
        rw [hreads]
        rw [hlist, List.length_cons] at hfuel
        omega) ht
      exact ⟨s', returns_releaseReads_succ hlist hfind hlen hcount hcall hloop, hs', hsettled⟩

end SoftHier.Dram

import LibSwitch.Requests

namespace LibSwitch.Sessions

open LibSwitch.PointerTable LibSwitch.ByteOrder LibSwitch.ByteBuffer LibSwitch.Common
open LibSwitch.SockComm LibSwitch.Requests

variable {H C : Type}

def target (srv : Server H C) (msg : Msg) : Except Fault (Option H) :=
  lookup srv (hdrType msg) (hdrMessageId msg)

theorem target_congr {srv : Server H C} {msg msg' : Msg} (ht : hdrType msg' = hdrType msg)
    (hm : hdrMessageId msg' = hdrMessageId msg) : target srv msg' = target srv msg := by
  rw [target, ht, hm, target]

theorem reply_target {srv : Server H C} {msg msg' : Msg} {len : Int}
    (h : (reply msg len : List (Event H C) × Option Msg).2 = some msg') :
    target srv msg' = target srv msg := by
  simp only [reply] at h
  split at h
  · obtain rfl := Option.some.inj h
    apply target_congr
    · rw [hdrType, intAt, read_put_before msg (hdrLen_fits _) (by omega), hdrType, intAt]
    · rw [hdrMessageId, intAt, read_put_before msg (hdrLen_fits _) (by omega), hdrMessageId,
        intAt]
  · cases h

theorem replaceAfter_target (srv : Server H C) (msg : Msg) (p : Param) :
    target srv (replaceAfter szHdr msg p szHdr_le) = target srv msg := by
  apply target_congr
  · rw [hdrType, intAt, read_replaceAfter msg p szHdr_le (by decide), hdrType, intAt]
  · rw [hdrMessageId, intAt, read_replaceAfter msg p szHdr_le (by decide), hdrMessageId, intAt]

/-- A round that leaves a buffer behind found a target or none to call, and the buffer still
selects the same. -/
theorem serve_target {srv : Server H C} {msg msg' : Msg} {len : Int}
    (h : (serve srv msg len).2 = some msg') :
    (∃ t, target srv msg = .ok t) ∧ target srv msg' = target srv msg := by
  cases hl : target srv msg with
  | error f =>
    rw [serve_error hl] at h
    cases h
  | ok t =>
    rw [← hl]
    refine ⟨⟨t, hl⟩, ?_⟩
    cases t with
    | none =>
      rw [serve_none hl] at h
      exact reply_target h
    | some fn =>
      cases hc : srv.call (hdrType msg).toNat fn (param msg) with
      | error f =>
        rw [serve_fault hl hc] at h
        cases h
      | ok rep =>
        rw [serve_returns hl hc] at h
        rw [reply_target h, replaceAfter_target]

theorem receive_nil (msg : Msg) {c : Chunk} (h : c.bytes = []) : receive msg c = msg := by
  apply ext
  simp [receive, put, h]

theorem calls_serve_length (srv : Server H C) (msg : Msg) (len : Int) :
    (calls (serve srv msg len).1).length ≤ 1 := by
  rw [calls_serve]
  cases selected srv msg with
  | none => exact Nat.zero_le 1
  | some c => exact Nat.le_refl 1

theorem step_calls_length {srv : Server H C} {s s' : Session} {rv : Recv}
    {es : List (Event H C)} (h : step srv s rv = some (es, s')) : (calls es).length ≤ 1 := by
  cases s with
  | closed | dead => cases h
  | live msg =>
    cases rv with
    | error =>
      cases h
      exact Nat.zero_le 1
    | data c =>
      simp only [step, Option.some.injEq, Prod.mk.injEq] at h
      rw [← h.1]
      exact calls_serve_length srv _ _

theorem run_calls_length {srv : Server H C} {s t : Session} {recvs : List Recv}
    {turns : List (List (Event H C))} (h : Run srv s recvs turns t) :
    (calls turns.flatten).length ≤ recvs.length := by
  induction h with
  | nil => exact Nat.zero_le 0
  | cons hstep _ ih =>
    have hone := step_calls_length hstep
    rw [List.flatten_cons, calls_append, List.length_append, List.length_cons]
    omega

end LibSwitch.Sessions

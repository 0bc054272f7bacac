import LibSwitch.SessionMemory

namespace LibSwitch.SessionSurvival

open LibSwitch.PointerTable LibSwitch.ByteOrder LibSwitch.ByteBuffer LibSwitch.Common
open LibSwitch.ModuleLoad LibSwitch.SockComm LibSwitch.Requests LibSwitch.Handlers
open LibSwitch.HandlerSpecs LibSwitch.SwitchQuery LibSwitch.MessageDispatch
open LibSwitch.SessionMemory LibSwitch.StubLibraries

variable {D : Type} {r : Registry Handler D} {reqs : List Request} {q : Request}
variable {msg msg' : Msg} {len : Nat}

/-- The message selects a handler whose entry exists and which fits its answer, or nothing at
all and is short enough to be sent back behind another header. -/
def Answers (r : Registry Handler D) (msg : Msg) (len : Nat) : Prop :=
  match lookup (server r) (hdrType msg) (hdrMessageId msg) with
  | .error _ => False
  | .ok none => len ≤ 500
  | .ok (some h) =>
    Present r (hdrType msg).toNat (entryOf (param msg) h) ∧ ¬ Overruns r h (param msg)

/-- The request, told from its own bytes, is answered. -/
def Answerable (r : Registry Handler D) (q : Request) : Prop :=
  Answers r (alone q.chunk) q.bytes.length

/-- How much of its parameters a handler reads before it can fail. -/
def szEntry : Handler → Nat
  | .appMsgQrySw => 4
  | .brAddBr | .brDelBr | .brAddBrIf | .brDelBrIf | .brSetAge | .brSetMaxAge => 12
  | .flwAddFlw | .flwDelFlw => 12
  | .appMsgQryProto | .brDump | .flwAddFlwIf | .flwDelFlwIf | .flwSetAge | .flwSetMaxAge
  | .flwDump => 0

theorem szEntry_le (h : Handler) : szEntry h ≤ 12 := by
  cases h <;> decide

/-- The request brings along what its handler reads to find its entry. -/
def SelfContained (r : Registry Handler D) (q : Request) : Prop :=
  ∀ h, lookup (server r) q.type q.messageId = .ok (some h) → szEntry h ≤ q.params.length

theorem entryOf_congr {k : Nat} {p p' : Param} {h : Handler} (hp : AgreeTo k p p')
    (hk : szEntry h ≤ k) : entryOf p h = entryOf p' h := by
  cases h with
  | appMsgQrySw =>
    have hid : qryId p = qryId p' := hp.intAt hk
    rw [entryOf, entryOf, hid]
  | brAddBr | brDelBr | brAddBrIf | brDelBrIf | brSetAge | brSetMaxAge | flwAddFlw | flwDelFlw =>
    have hid : bridgeId p = bridgeId p' := hp.intAt hk
    rw [entryOf, entryOf, hid]
  | _ => rfl

theorem overruns_congr {k : Nat} {p p' : Param} {h : Handler} (hp : AgreeTo k p p')
    (hk : szEntry h ≤ k) : Overruns r h p ↔ Overruns r h p' := by
  refine and_congr_right fun hh => ?_
  subst hh
  have hid : qryId p = qryId p' := hp.intAt hk
  rw [hid]

/-- Whether a request is answered does not depend on what the buffer held. -/
theorem answers_receive (hq : SelfContained r q) (msg : Msg) :
    Answers r (receive msg q.chunk) q.bytes.length ↔ Answerable r q := by
  have hparam : AgreeTo q.params.length (param (receive msg q.chunk)) (param (alone q.chunk)) := by
    have hagree := receive_agree msg q.chunk
    rw [show q.chunk.bytes.length = szHdr + q.params.length from q.length_bytes] at hagree
    exact hagree.after
  rw [Answerable, Answers, Answers, alone]
  simp only [hdrType_receive, hdrMessageId_receive]
  cases hl : lookup (server r) q.type q.messageId with
  | error f => rfl
  | ok target =>
    cases target with
    | none => rfl
    | some h =>
      have hk := hq h hl
      dsimp only
      rw [entryOf_congr hparam hk, overruns_congr hparam hk]
      rfl

theorem answerable_of_lookup {h : Handler}
    (hl : lookup (server r) q.type q.messageId = .ok (some h))
    (hp : Present r q.type.toNat (entryOf (param (alone q.chunk)) h))
    (ho : ¬ Overruns r h (param (alone q.chunk))) : Answerable r q := by
  rw [alone] at hp ho
  rw [Answerable, Answers, alone, hdrType_receive, hdrMessageId_receive, hl]
  exact ⟨hp, ho⟩

theorem send_reply {H C : Type} (msg : Msg) {n : Int} (h0 : 0 ≤ n) (hn : n ≤ 500) :
    ∃ bytes msg', (reply msg n : List (Event H C) × Option Msg) =
      ([.send (szHdr + n) bytes], some msg') := by
  have hint : toInt (szHdr + n) = szHdr + n :=
    toInt_of_mem (by rw [szHdr]; omega) (by rw [szHdr]; omega)
  simp only [reply, hint]
  rw [if_pos ⟨by rw [szHdr]; omega, by rw [szHdr, szBuf]; omega⟩]
  exact ⟨_, _, rfl⟩

theorem reply_long {H C : Type} (msg : Msg) {n : Int} (hn : 500 < n) (hmax : n ≤ szBuf) :
    (reply msg n : List (Event H C) × Option Msg).2 = none := by
  rw [szBuf] at hmax
  have hint : toInt (szHdr + n) = szHdr + n :=
    toInt_of_mem (by rw [szHdr]; omega) (by rw [szHdr]; omega)
  simp only [reply, hint]
  rw [if_neg]
  rw [szHdr, szBuf]
  omega

theorem sends_called {H C : Type} (c : Call H) (cs : List C) (n : Int) (bytes : List UInt8) :
    (Event.call c :: cs.map .device ++ [.send n bytes] : List (Event H C)).filterMap send? =
      [bytes] := by
  rw [List.cons_append, List.filterMap_cons_none rfl, List.filterMap_append]
  have hdevs : (cs.map (Event.device : C → Event H C)).filterMap send? = [] := by
    rw [List.filterMap_map]
    exact List.filterMap_eq_nil_iff.mpr fun _ _ => rfl
  rw [hdevs]
  rfl

/-- A message that is answered is answered once, and the session goes on. -/
theorem serve_answers (hr : WellFormed r) (h : Answers r msg len) :
    ∃ es msg' bytes, serve (server r) msg len = (es, some msg') ∧
      es.filterMap send? = [bytes] := by
  rw [Answers] at h
  cases hl : lookup (server r) (hdrType msg) (hdrMessageId msg) with
  | error f =>
    rw [hl] at h
    exact h.elim
  | ok target =>
    rw [hl] at h
    cases target with
    | none =>
      obtain ⟨bytes, msg', hreply⟩ :=
        send_reply (H := Handler) (C := DevCall D) msg (Int.natCast_nonneg len)
          (Int.ofNat_le.mpr h)
      exact ⟨_, msg', bytes, (serve_none hl _).trans hreply, rfl⟩
    | some f =>
      cases runHandler_ends hr (hdrType msg).toNat f (param msg) with
      | returns rep hrun hret =>
        obtain ⟨bytes, msg', hreply⟩ := send_reply (H := Handler) (C := DevCall D)
          (replaceAfter szHdr msg rep.param szHdr_le) hret.1 hret.2
        have hserve : serve (server r) msg len =
            (.call ⟨hdrType msg, hdrMessageId msg, f, param msg⟩ :: rep.calls.map .device ++
              [.send (szHdr + rep.ret) bytes], some msg') := by
          rw [serve_returns hl hrun]
          simp only [hreply]
        exact ⟨_, msg', bytes, hserve, sends_called _ _ _ _⟩
      | absent _ _ _ hp => exact absurd h.1 hp
      | overruns _ _ ho => exact absurd ho h.2

theorem serve_dies (hr : WellFormed r) (hlen : len ≤ szBuf) (h : ¬ Answers r msg len) :
    (serve (server r) msg len).2 = none := by
  rw [Answers] at h
  cases hl : lookup (server r) (hdrType msg) (hdrMessageId msg) with
  | error f => rw [serve_error hl]
  | ok target =>
    rw [hl] at h
    cases target with
    | none =>
      rw [serve_none hl]
      exact reply_long msg (by dsimp only at h; omega) (Int.ofNat_le.mpr hlen)
    | some f =>
      cases runHandler_ends hr (hdrType msg).toNat f (param msg) with
      | returns _ _ _ hp ho => exact absurd ⟨hp, ho⟩ h
      | absent _ hrun => rw [serve_fault hl hrun]
      | overruns hrun => rw [serve_fault hl hrun]

theorem run_answerable (hr : WellFormed r) (hq : SelfContained r q) (h : Answerable r q)
    (msg : Msg) : ∃ es msg₁ bytes, es.filterMap send? = [bytes] ∧ ∀ is turns t,
      Run (server r) (.live msg) (q.recv :: is) turns t ↔
        ∃ rest, turns = es :: rest ∧ Run (server r) (.live msg₁) is rest t := by
  obtain ⟨es, msg₁, bytes, hserve, hsend⟩ := serve_answers hr ((answers_receive hq msg).mpr h)
  exact ⟨es, msg₁, bytes, hsend, fun is turns t => Reactive.Run.cons_iff (step_live hserve)⟩

theorem not_run_unanswerable {is : List Recv} {turns : List (List (Event Handler (DevCall D)))}
    {msg' : Msg} (hr : WellFormed r) (hq : SelfContained r q) (h : ¬ Answerable r q) (msg : Msg) :
    ¬ Run (server r) (.live msg) (q.recv :: is) turns (.live msg') := by
  have hdies : (serveChunk (server r) msg q.chunk).2 = none :=
    serve_dies hr q.chunk.length_le (mt (answers_receive hq msg).mp h)
  intro hrun
  cases hrun with
  | cons hs hrest =>
    rw [Request.recv, step, hdies] at hs
    cases hs
    -- a dead session takes no further input, and it is not alive
    cases hrest with
    | cons hs => cases hs

theorem hundred_mem : (-2147483648 : Int) ≤ 100 ∧ (100 : Int) < 2147483648 := by decide

/-- All bridge requests of bridge 0, and one for which there is no protocol. -/
def mixedRequests : List Request :=
  [brRequest .addBr, brRequest .addBrIf, brRequest .setAge, bareRequest 100 0 hundred_mem zero_mem,
    brRequest .dump, brRequest .setMaxAge, brRequest .delBrIf, brRequest .delBr]

theorem brRequest_answerable (hbr : (server r).protocols.slots 1 = some bridge)
    (hdevs : (r.devs 1).cnt = 1) (id : BrMsgId) : Answerable r (brRequest id) := by
  have hparams : (brRequest id).params = List.replicate 12 0 ++ 5 :: List.replicate 11 0 := rfl
  have hid : bridgeId (param (alone (brRequest id).chunk)) = 0 := by
    rw [bridgeId, alone, intAt_param (zeros szBuf) (brRequest id) 8 (by rw [hparams]; decide),
      hparams]
    decide
  have hpresent : 0 ≤ bridgeId (param (alone (brRequest id).chunk)) ∧
      bridgeId (param (alone (brRequest id).chunk)) < ((r.devs 1).cnt : Int) := by
    rw [hid, hdevs]
    decide
  have hl : lookup (server r) 1 id.num = _ := lookup_slot hbr (by decide) id.num
  cases id with
  | setMaxAge => exact answerable_of_lookup hl trivial fun ho => by cases ho.1
  | _ => exact answerable_of_lookup hl hpresent fun ho => by cases ho.1

end LibSwitch.SessionSurvival

import Mathlib.Data.List.Forall2
import LibSwitch.Sessions
import LibSwitch.MessageDispatch

namespace LibSwitch.Framing

open LibSwitch.PointerTable LibSwitch.ByteOrder LibSwitch.ByteBuffer LibSwitch.Common
open LibSwitch.ModuleLoad LibSwitch.LoadedModules LibSwitch.SockComm LibSwitch.Requests
open LibSwitch.Sessions LibSwitch.Handlers LibSwitch.StubLibraries LibSwitch.MessageDispatch

variable {H C : Type}

/-- A call made for a request: it has the type, the message id and the parameters of the
request, and runs the handler these address. -/
structure Answers (srv : Server H C) (q : Request) (c : Call H) : Prop where
  type_eq : c.type = q.type
  messageId_eq : c.messageId = q.messageId
  func_eq : lookup srv q.type q.messageId = .ok (some c.func)
  params_eq : c.param.bytes.take q.params.length = q.params

def Framed (srv : Server H C) (reqs : List Request) (turns : List (List (Event H C))) : Prop :=
  List.Forall₂ (Answers srv) reqs (calls turns.flatten)

/-- The request addresses a handler, which returns a result that fits the message buffer. -/
def Deliverable (srv : Server H C) (q : Request) : Prop :=
  ∃ h, lookup srv q.type q.messageId = .ok (some h) ∧
    ∀ p : Param, p.bytes.take q.params.length = q.params →
      ∃ rep, srv.call q.type.toNat h p = .ok rep ∧ 0 ≤ rep.ret ∧ rep.ret ≤ 500

structure Cut (reqs : List Request) (chunks : List Chunk) : Prop where
  bytes_eq : (chunks.map Chunk.bytes).flatten = (reqs.map Request.bytes).flatten
  nonempty : ∀ c ∈ chunks, c.bytes ≠ []

theorem cut_whole (reqs : List Request) : Cut reqs (reqs.map Request.chunk) := by
  refine ⟨?_, ?_⟩
  · rw [List.map_map]
    rfl
  · intro c hc hnil
    obtain ⟨q, -, rfl⟩ := List.mem_map.mp hc
    have hlen := q.length_bytes
    change q.bytes = [] at hnil
    rw [hnil, List.length_nil, szHdr] at hlen
    omega

theorem reply_live (msg : Msg) {len : Int} (h0 : 0 ≤ len) (h : len ≤ 500) :
    ∃ msg', (reply msg len : List (Event H C) × Option Msg).2 = some msg' := by
  have hn : toInt (szHdr + len) = szHdr + len :=
    toInt_of_mem (by rw [szHdr]; omega) (by rw [szHdr]; omega)
  simp only [reply, hn]
  rw [if_pos ⟨by rw [szHdr]; omega, by rw [szHdr, szBuf]; omega⟩]
  exact ⟨_, rfl⟩

/-- Receiving one complete request makes one call, with what that request holds, and the
session goes on. -/
theorem step_answers {srv : Server H C} {q : Request} (hq : Deliverable srv q) (msg : Msg) :
    ∃ es msg' c, step srv (.live msg) q.recv = some (es, .live msg') ∧ calls es = [c] ∧
      Answers srv q c := by
  obtain ⟨h, hl, hcall⟩ := hq
  have hparam := param_receive msg q
  obtain ⟨rep, hrep, h0, hm⟩ := hcall (param (receive msg q.chunk)) hparam
  have htype := hdrType_receive msg q
  have hid := hdrMessageId_receive msg q
  have hl' : lookup srv (hdrType (receive msg q.chunk)) (hdrMessageId (receive msg q.chunk)) =
      .ok (some h) := by rw [htype, hid, hl]
  have hc' : srv.call (hdrType (receive msg q.chunk)).toNat h (param (receive msg q.chunk)) =
      .ok rep := by rw [htype, hrep]
  have hserve := serve_returns hl' hc' q.chunk.bytes.length
  obtain ⟨msg', hlive⟩ := reply_live (H := H) (C := C)
    (replaceAfter szHdr (receive msg q.chunk) rep.param szHdr_le) h0 hm
  refine ⟨(serveChunk srv msg q.chunk).1, msg', ⟨q.type, q.messageId, h, _⟩, ?_, ?_, rfl, rfl,
    hl, hparam⟩
  · simp only [step, Request.recv]
    rw [serveChunk, hserve]
    simp only [hlive, next]
  · rw [serveChunk, calls_serve, selected, hl', htype, hid]
    rfl

theorem run_answers {srv : Server H C} (reqs : List Request)
    (hq : ∀ q ∈ reqs, Deliverable srv q) (msg : Msg) :
    ∃ turns t, Run srv (.live msg) (reqs.map Request.recv) turns t ∧ Framed srv reqs turns := by
  induction reqs generalizing msg with
  | nil => exact ⟨[], _, Reactive.Run.nil _, List.Forall₂.nil⟩
  | cons q reqs ih =>
    obtain ⟨es, msg', c, hstep, hcalls, hans⟩ := step_answers (hq q (by simp)) msg
    obtain ⟨turns, t, hrun, hframed⟩ := ih (fun q' hq' => hq q' (by simp [hq'])) msg'
    refine ⟨es :: turns, t, Reactive.Run.cons hstep hrun, ?_⟩
    rw [Framed, List.flatten_cons, calls_append, hcalls]
    exact List.Forall₂.cons hans hframed

/-- A session frames its requests when every `recv` returns exactly one of them, and it never
does when fewer chunks than requests arrive: it handles one message for each `recv` and does
not look at the length field. -/
theorem framed_whole (srv : Server H C) (reqs : List Request)
    (hq : ∀ q ∈ reqs, Deliverable srv q) (chunks : List Chunk) :
    (chunks = reqs.map Request.chunk →
      Cut reqs chunks ∧ (∃ turns t, Run srv start (chunks.map Recv.data) turns t) ∧
        ∀ turns t, Run srv start (chunks.map Recv.data) turns t → Framed srv reqs turns) ∧
    (chunks.length < reqs.length →
      ∀ turns t, Run srv start (chunks.map Recv.data) turns t → ¬ Framed srv reqs turns) := by
  constructor
  · rintro rfl
    obtain ⟨turns, t, hrun, hframed⟩ := run_answers reqs hq (zeros szBuf)
    have hrecv : (reqs.map Request.chunk).map Recv.data = reqs.map Request.recv := by
      rw [List.map_map]
      rfl
    rw [hrecv]
    refine ⟨cut_whole reqs, ⟨turns, t, hrun⟩, ?_⟩
    intro turns' t' hrun'
    rwa [← (hrun.unique hrun').1]
  · intro hlen turns t hrun hframed
    have hcalls := run_calls_length hrun
    rw [List.length_map] at hcalls
    have heq := hframed.length_eq
    omega

theorem protocolBridge_mem : -2147483648 ≤ protocolBridge ∧ protocolBridge < 2147483648 := by
  decide

theorem dumpId_mem : (-2147483648 : Int) ≤ 5 ∧ (5 : Int) < 2147483648 := by decide

def dump : Request := bareRequest protocolBridge 5 protocolBridge_mem dumpId_mem

theorem merged_length_le : (dump.bytes ++ dump.bytes).length ≤ szBuf := by decide +kernel

def merged : Chunk := ⟨dump.bytes ++ dump.bytes, merged_length_le⟩

theorem dump_deliverable {r : Registry Handler StubDev}
    (hslot : (server r).protocols.slots 1 = some bridge) : Deliverable (server r) dump := by
  refine ⟨.brDump, ?_, ?_⟩
  · exact lookup_slot hslot (by decide) 5
  · intro p _
    exact ⟨⟨p, 1, []⟩, rfl, by dsimp only; omega⟩

theorem dump_framed : ∃ r turns t, load appFuncs stubDir = some r ∧
    Run (server r) start [.data dump.chunk, .data dump.chunk] turns t ∧
    Framed (server r) [dump, dump] turns := by
  obtain ⟨r, hr, hslot⟩ := stubDir_bridge_slot
  have hq : ∀ q ∈ [dump, dump], Deliverable (server r) q := by
    intro q hq
    obtain rfl | rfl := List.mem_pair.mp hq <;> exact dump_deliverable hslot
  obtain ⟨-, ⟨turns, t, hrun⟩, hframed⟩ :=
    (framed_whole (server r) [dump, dump] hq [dump.chunk, dump.chunk]).1 rfl
  exact ⟨r, turns, t, hr, hrun, hframed turns t hrun⟩

/-- Two requests in one chunk run one handler: the two cuttings of the stream differ. -/
theorem merged_runs_one : ∃ r turns t, load appFuncs stubDir = some r ∧
    (∀ q ∈ [dump, dump], Deliverable (server r) q) ∧ Cut [dump, dump] [merged] ∧
    Run (server r) start [.data merged] turns t ∧ ¬ Framed (server r) [dump, dump] turns := by
  obtain ⟨r, hr, hslot⟩ := stubDir_bridge_slot
  have hq : ∀ q ∈ [dump, dump], Deliverable (server r) q := by
    intro q hq
    obtain rfl | rfl := List.mem_pair.mp hq <;> exact dump_deliverable hslot
  have hcut : Cut [dump, dump] [merged] := by
    refine ⟨by simp [merged], ?_⟩
    intro c hc
    rw [List.mem_singleton.mp hc]
    decide +kernel
  have hrun : Run (server r) start [.data merged] _ _ :=
    Reactive.Run.cons rfl (Reactive.Run.nil _)
  refine ⟨r, _, _, hr, hq, hcut, hrun, ?_⟩
  intro hframed
  have hcalls := run_calls_length hrun
  have heq := hframed.length_eq
  simp only [List.length_cons, List.length_nil] at hcalls heq
  omega

end LibSwitch.Framing

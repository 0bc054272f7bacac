import LibSwitch.ClientComm
import LibSwitch.RepositoryHalts
import LibSwitch.SwitchQuery
import Mathlib.Data.Fintype.Basic
import Mathlib.Data.List.Permutation
import Mathlib.Tactic.FinCases

namespace LibSwitch.SampleClient

open LibSwitch.PointerTable LibSwitch.ByteOrder LibSwitch.ByteBuffer LibSwitch.Common
open LibSwitch.ModuleLoad LibSwitch.LoadedModules LibSwitch.DeviceLinking LibSwitch.Reactive
open LibSwitch.SockComm LibSwitch.Handlers LibSwitch.HandlerSpecs LibSwitch.StubLibraries
open LibSwitch.Requests LibSwitch.SwitchQuery LibSwitch.RepositoryHalts LibSwitch.ExitHandler
open LibSwitch.ClientComm

variable {H C D : Type}

/-- `app_qry_msg` with the query id 256. -/
def queryRequest (loop : Fin 2) : Request where
  type := protocolApp
  messageId := loop
  params := intBytes 256
  type_mem := by decide
  messageId_mem := by omega
  fits := by
    rw [length_intBytes]
    decide

/-- `br_msg_param` with the device handle 256, bridge 0 and the loop count as the interface. The
padding behind its last field is as the stack has it. -/
def bridgeParams (pad : Buffer 4) (loop : Fin 7) : List UInt8 :=
  leBytes 8 256 ++ (intBytes 0 ++ (intBytes loop ++ (intBytes 0 ++ pad.bytes)))

theorem length_bridgeParams (pad : Buffer 4) (loop : Fin 7) :
    (bridgeParams pad loop).length = 24 := by
  simp only [bridgeParams, List.length_append, length_leBytes, length_intBytes, pad.length_eq]

theorem loop_mem (loop : Fin 7) : -2147483648 ≤ (loop : Int) ∧ (loop : Int) < 2147483648 := by
  omega

def bridgeRequest (pad : Buffer 4) (loop : Fin 7) : Request where
  type := protocolBridge
  messageId := loop
  params := bridgeParams pad loop
  type_mem := bridge_mem
  messageId_mem := loop_mem loop
  fits := by
    rw [length_bridgeParams]
    decide

def sendMainAppMsg (pad : Buffer 4) : List Request :=
  (List.finRange 2).map queryRequest ++ (List.finRange 7).map (bridgeRequest pad)

/-- What a request does to a session: the devices that are called, the length of the answer, and
the message buffer afterwards. -/
def Answers (srv : Server H C) (msg : Msg) (r : Request) (cs : List C) (len : Nat) (msg' : Msg) :
    Prop :=
  ∃ es, SockComm.step srv (.live msg) r.recv = some (es, .live msg') ∧ devices es = cs ∧
    (sent es).length = len

variable {srv : Server H C} {msg : Msg} {r : Request} {cs : List C} {len : Nat}

theorem param_received (msg : Msg) (r : Request) :
    (param (receive msg r.chunk)).bytes = r.params ++ (param msg).bytes.drop r.params.length := by
  have hlen : (intBytes r.type ++ (intBytes r.messageId ++ intBytes r.len)).length = szHdr := by
    simp [szHdr]
  have hbytes : r.bytes =
      (intBytes r.type ++ (intBytes r.messageId ++ intBytes r.len)) ++ r.params := by
    simp [Request.bytes]
  have hput : (receive msg r.chunk).bytes = r.bytes ++ msg.bytes.drop r.bytes.length := by
    simp [receive, put, Request.chunk]
  calc (param (receive msg r.chunk)).bytes
      = (receive msg r.chunk).bytes.drop szHdr := rfl
    _ = r.params ++ msg.bytes.drop (szHdr + r.params.length) := by
        rw [hput, r.length_bytes, hbytes, List.append_assoc, List.drop_left' hlen]
    _ = r.params ++ (msg.bytes.drop szHdr).drop r.params.length := by rw [List.drop_drop]

theorem devices_answer (c : Call H) (n : Int) (bytes : List UInt8) :
    devices (.call c :: cs.map .device ++ [.send n bytes] : List (Event H C)) = cs := by
  have hsend : devices [(.send n bytes : Event H C)] = [] := rfl
  calc devices (.call c :: cs.map .device ++ [.send n bytes] : List (Event H C))
      = devices (cs.map .device ++ [.send n bytes] : List (Event H C)) := rfl
    _ = cs := by rw [devices_append, devices_calls, hsend, List.append_nil]

theorem sent_answer (c : Call H) (n : Int) (bytes : List UInt8) :
    sent (.call c :: cs.map .device ++ [.send n bytes] : List (Event H C)) = bytes := by
  induction cs with
  | nil => exact List.append_nil bytes
  | cons d cs ih => exact ih

theorem step_next {es : List (Event H C)} {msg' : Msg}
    (h : serve srv (receive msg r.chunk) r.bytes.length = (es, some msg')) :
    SockComm.step srv (.live msg) r.recv = some (es, .live msg') := step_live h

theorem reply_answers (m : Msg) {p : Param} {w tail : List UInt8} (hp : p.bytes = w ++ tail) :
    ∃ msg' bytes, (reply (replaceAfter szHdr m p szHdr_le) w.length :
        List (Event H C) × Option Msg) = ([.send (szHdr + w.length) bytes], some msg') ∧
      bytes.length = szHdr + w.length ∧ (param msg').bytes = p.bytes := by
  obtain ⟨msg', hreply, hbuf⟩ := reply_sends (H := H) (C := C) m hp
  have h8 : (m.bytes.take 8).length = 8 := by
    rw [List.length_take, m.length_eq]
    decide
  have hhdr : (m.bytes.take 8 ++ intBytes (szHdr + w.length)).length = szHdr := by
    rw [List.length_append, h8, length_intBytes]
    rfl
  refine ⟨msg', _, hreply, ?_, ?_⟩
  · rw [← List.append_assoc, List.length_append, hhdr]
  · calc (param msg').bytes = msg'.bytes.drop szHdr := rfl
      _ = p.bytes := by rw [hbuf, ← List.append_assoc, List.drop_left' hhdr]

theorem answers_returns {h : H} {p : Param} {w tail : List UInt8}
    (hl : lookup srv r.type r.messageId = .ok (some h))
    (hcall : srv.call r.type.toNat h (param (receive msg r.chunk)) = .ok ⟨p, w.length, cs⟩)
    (hp : p.bytes = w ++ tail) :
    ∃ msg', Answers srv msg r cs (szHdr + w.length) msg' ∧ (param msg').bytes = p.bytes := by
  obtain ⟨msg', bytes, hreply, hlen, hparam⟩ :=
    reply_answers (H := H) (C := C) (receive msg r.chunk) hp
  rw [← hdrType_receive msg r, ← hdrMessageId_receive msg r] at hl
  rw [← hdrType_receive msg r] at hcall
  have hserve := serve_returns hl hcall r.bytes.length
  dsimp only at hserve
  rw [hreply] at hserve
  refine ⟨msg', ⟨_, step_next hserve, devices_answer _ _ _, ?_⟩, hparam⟩
  rw [sent_answer, hlen]

/-- A request to a slot that is free is answered with as many bytes again behind a header. -/
theorem answers_free (msg : Msg) (hl : lookup srv r.type r.messageId = .ok none)
    (hfits : r.bytes.length ≤ szBuf - szHdr) :
    ∃ msg', Answers srv msg r [] (szHdr + r.bytes.length) msg' := by
  have hsame : replaceAfter szHdr (receive msg r.chunk) (param (receive msg r.chunk)) szHdr_le =
      receive msg r.chunk := ByteBuffer.ext (List.take_append_drop szHdr _)
  have hw : ((param (receive msg r.chunk)).bytes.take r.bytes.length).length = r.bytes.length := by
    rw [List.length_take, (param (receive msg r.chunk)).length_eq, Nat.min_eq_left hfits]
  obtain ⟨msg', bytes, hreply, hlen, -⟩ := reply_answers (H := H) (C := C) (receive msg r.chunk)
    (List.take_append_drop r.bytes.length (param (receive msg r.chunk)).bytes).symm
  rw [hsame, hw] at hreply
  rw [hw] at hlen
  rw [← hdrType_receive msg r, ← hdrMessageId_receive msg r] at hl
  have hserve := serve_none hl r.bytes.length
  rw [hreply] at hserve
  refine ⟨msg', _, step_next hserve, rfl, ?_⟩
  rw [← hlen]
  exact congrArg List.length (List.append_nil bytes)

theorem answers_kept {h : H} (msg : Msg) (hl : lookup srv r.type r.messageId = .ok (some h))
    (hcall : srv.call r.type.toNat h (param (receive msg r.chunk)) =
      .ok ⟨param (receive msg r.chunk), 1, cs⟩) :
    ∃ msg', Answers srv msg r cs 13 msg' ∧
      (param msg').bytes = r.params ++ (param msg).bytes.drop r.params.length := by
  have hw : ((param (receive msg r.chunk)).bytes.take 1).length = 1 := by
    rw [List.length_take, (param (receive msg r.chunk)).length_eq]
    decide
  obtain ⟨msg', hans, hparam⟩ := answers_returns hl (by rw [hw]; exact hcall)
    (List.take_append_drop 1 (param (receive msg r.chunk)).bytes).symm
  rw [hw] at hans
  rw [param_received] at hparam
  exact ⟨msg', hans, hparam⟩

/-- Behind a first int the parameter area is still as `memset` left it. -/
def Fresh (msg : Msg) : Prop := (param msg).bytes.drop 4 = List.replicate 496 0

theorem fresh_zeros : Fresh (zeros szBuf) := by
  rw [Fresh]
  rfl

theorem bridgeId_query {msg : Msg} (h : Fresh msg) (loop : Fin 2) :
    bridgeId (param (receive msg (queryRequest loop).chunk)) = 0 := by
  have hparams : (queryRequest loop).params = intBytes 256 := rfl
  rw [bridgeId, intAt, ByteBuffer.read, param_received, hparams, length_intBytes, h]
  decide +kernel

theorem bridgeId_bridge (msg : Msg) (pad : Buffer 4) (loop : Fin 7) :
    bridgeId (param (receive msg (bridgeRequest pad loop).chunk)) = 0 := by
  have hparams : (bridgeRequest pad loop).params = bridgeParams pad loop := rfl
  have hread : ((bridgeParams pad loop).drop 8).take 4 = intBytes 0 := by
    rw [bridgeParams, List.drop_left' (length_leBytes 8 256), List.take_left' (length_intBytes 0)]
  rw [bridgeId, intAt_param msg _ 8 (by rw [hparams, length_bridgeParams]; decide), hparams, hread,
    readInt_intBytes (by decide) (by decide)]

theorem intfId_bridge (msg : Msg) (pad : Buffer 4) (loop : Fin 7) :
    intfId (param (receive msg (bridgeRequest pad loop).chunk)) = loop := by
  have hparams : (bridgeRequest pad loop).params = bridgeParams pad loop := rfl
  have hhead : (leBytes 8 256 ++ intBytes 0).length = 12 := rfl
  have hread : ((bridgeParams pad loop).drop 12).take 4 = intBytes loop := by
    rw [bridgeParams, ← List.append_assoc, List.drop_left' hhead,
      List.take_left' (length_intBytes _)]
  rw [intfId, intAt_param msg _ 12 (by rw [hparams, length_bridgeParams]; decide), hparams, hread,
    readInt_intBytes (by omega) (by omega)]

def bridgeCalls (d : D) (v : Int) : Fin 7 → List (DevCall D)
  | 0 => [.br d (.addBr 0)]
  | 1 => [.br d (.delBr 0)]
  | 5 => []
  | _ => [.br d (.addBrIf 0 v)]

def flowCalls (d : D) : Fin 7 → List (DevCall D)
  | 0 => [.flw d ⟨.add, 0, 0, none⟩]
  | 1 => [.flw d ⟨.delete, 0, 0, none⟩]
  | _ => []

/-- A slot through which the rows call the given devices, for parameters that name bridge 0. -/
def Calls (srv : Server H C) (slot : Nat) (calls : Int → Fin 7 → List C) : Prop :=
  ∀ loop : Fin 7, ∃ h, lookup srv slot (loop : Nat) = .ok (some h) ∧
    ∀ p, bridgeId p = 0 → srv.call slot h p = .ok ⟨p, 1, calls (intfId p) loop⟩

theorem deref_single {devs : Table D} {d : D} (h : Holds devs [d]) :
    deref maxObjects devs 0 = some d := by
  rw [deref, h.read (by decide) (by decide)]
  rfl

theorem calls_bridge {r : Registry Handler D} {slot : Nat} {d : D}
    (hslot : r.protocols.slots slot = some bridge) (hlt : slot < maxObjects)
    (hdevs : Holds (r.devs slot) [d]) : Calls (server r) slot (bridgeCalls d) := by
  intro loop
  have hrun (op : Int → Int → BrCall) (p : Param) (hp : bridgeId p = 0) :
      brHandler op (r.devs slot) p = .ok ⟨p, 1, [.br d (op 0 (intfId p))]⟩ := by
    rw [brHandler, hp, deref_single hdevs]
  have hl : lookup (server r) slot (loop : Nat) = _ := lookup_slot hslot hlt _
  fin_cases loop
  · exact ⟨.brAddBr, hl, hrun fun b _ => .addBr b⟩
  · exact ⟨.brDelBr, hl, hrun fun b _ => .delBr b⟩
  · exact ⟨.brAddBrIf, hl, hrun .addBrIf⟩
  · exact ⟨.brDelBrIf, hl, hrun .addBrIf⟩
  · exact ⟨.brSetAge, hl, hrun .addBrIf⟩
  · exact ⟨.brDump, hl, fun _ _ => rfl⟩
  · exact ⟨.brSetMaxAge, hl, hrun .addBrIf⟩

theorem calls_flow {r : Registry Handler D} {slot : Nat} {d : D}
    (hslot : r.protocols.slots slot = some flow) (hlt : slot < maxObjects)
    (hdevs : Holds (r.devs slot) [d]) : Calls (server r) slot fun _ => flowCalls d := by
  intro loop
  have hrun (op : FlowTypes.FlwOp) (p : Param) (hp : bridgeId p = 0) :
      flwHandler op (r.devs slot) p = .ok ⟨p, 1, [.flw d ⟨op, 0, 0, none⟩]⟩ := by
    rw [flwHandler, hp, deref_single hdevs]
  have hl : lookup (server r) slot (loop : Nat) = _ := lookup_slot hslot hlt _
  fin_cases loop
  · exact ⟨.flwAddFlw, hl, hrun .add⟩
  · exact ⟨.flwDelFlw, hl, hrun .delete⟩
  · exact ⟨.flwAddFlwIf, hl, fun _ _ => rfl⟩
  · exact ⟨.flwDelFlwIf, hl, fun _ _ => rfl⟩
  · exact ⟨.flwSetAge, hl, fun _ _ => rfl⟩
  · exact ⟨.flwDump, hl, fun _ _ => rfl⟩
  · exact ⟨.flwSetMaxAge, hl, fun _ _ => rfl⟩

/-- A query that reaches a bridge or a flow module is served as one of its first two commands. -/
theorem query_served {calls : Int → Fin 7 → List C} (h : Calls srv 0 calls)
    (hcalls : ∀ v (loop : Fin 2), calls v (loop.castLE (by decide)) =
      calls 0 (loop.castLE (by decide))) (hmsg : Fresh msg) (loop : Fin 2) :
    ∃ msg', Answers srv msg (queryRequest loop) (calls 0 (loop.castLE (by decide))) 13 msg' ∧
      Fresh msg' := by
  obtain ⟨f, hl, hcall⟩ := h (loop.castLE (by decide))
  have hrun := hcall _ (bridgeId_query hmsg loop)
  rw [hcalls] at hrun
  obtain ⟨msg', hans, hparam⟩ := answers_kept (r := queryRequest loop) msg hl hrun
  refine ⟨msg', hans, ?_⟩
  have hparams : (queryRequest loop).params = intBytes 256 := rfl
  rw [Fresh, hparam, hparams, List.drop_left' (length_intBytes 256), length_intBytes]
  exact hmsg

theorem bridge_served {calls : Int → Fin 7 → List C} (h : Calls srv 1 calls) (pad : Buffer 4)
    (msg : Msg) (loop : Fin 7) :
    ∃ msg', Answers srv msg (bridgeRequest pad loop) (calls loop loop) 13 msg' := by
  obtain ⟨f, hl, hcall⟩ := h loop
  have hrun := hcall _ (bridgeId_bridge msg pad loop)
  rw [intfId_bridge] at hrun
  obtain ⟨msg', hans, -⟩ := answers_kept (r := bridgeRequest pad loop) msg hl hrun
  exact ⟨msg', hans⟩

theorem run_answers {ι : Type} {mk : ι → Request} {calls : ι → List C} {P : Msg → Prop}
    (h : ∀ msg i, P msg → ∃ msg', Answers srv msg (mk i) (calls i) len msg' ∧ P msg')
    (is : List ι) (hmsg : P msg) :
    ∃ turns msg', SockComm.Run srv (.live msg) ((is.map mk).map Request.recv) turns (.live msg') ∧
      P msg' ∧ (∀ t ∈ turns, (sent t).length = len) ∧ devices turns.flatten = is.flatMap calls := by
  induction is generalizing msg with
  | nil => exact ⟨[], msg, .nil _, hmsg, by rintro _ ⟨⟩, rfl⟩
  | cons i is ih =>
    obtain ⟨msg₁, ⟨es, hstep, hdev, hlen⟩, hmsg₁⟩ := h msg i hmsg
    obtain ⟨turns, msg', hrun, hmsg', hlens, hdevs⟩ := ih hmsg₁
    refine ⟨es :: turns, msg', .cons hstep hrun, hmsg', List.forall_mem_cons.mpr ⟨hlen, hlens⟩, ?_⟩
    rw [List.flatten_cons, devices_append, hdev, hdevs, List.flatMap_cons]

theorem run_client {calls₀ calls₁ : Int → Fin 7 → List C} (h₀ : Calls srv 0 calls₀)
    (h₁ : Calls srv 1 calls₁) (hcalls : ∀ v (loop : Fin 2),
      calls₀ v (loop.castLE (by decide)) = calls₀ 0 (loop.castLE (by decide))) (pad : Buffer 4) :
    ∃ turns msg, SockComm.Run srv SockComm.start ((sendMainAppMsg pad).map Request.recv) turns
        (.live msg) ∧
      (∀ t ∈ turns, (sent t).length = 13) ∧
      devices turns.flatten = (List.finRange 2).flatMap (fun loop =>
        calls₀ 0 (loop.castLE (by decide))) ++ (List.finRange 7).flatMap fun loop : Fin 7 =>
        calls₁ loop loop := by
  obtain ⟨turns₀, msg₀, hrun₀, -, hlen₀, hdev₀⟩ := run_answers (P := Fresh)
    (fun msg loop hmsg => query_served h₀ hcalls hmsg loop) (List.finRange 2) fresh_zeros
  obtain ⟨turns₁, msg₁, hrun₁, -, hlen₁, hdev₁⟩ := run_answers (P := fun _ => True)
    (fun msg loop _ => (bridge_served h₁ pad msg loop).imp fun _ h => ⟨h, trivial⟩)
    (List.finRange 7) (trivial : (fun _ => True) msg₀)
  refine ⟨turns₀ ++ turns₁, msg₁, ?_, ?_, ?_⟩
  · rw [sendMainAppMsg, List.map_append]
    exact hrun₀.append hrun₁
  · intro t ht
    obtain ht | ht := List.mem_append.mp ht
    · exact hlen₀ t ht
    · exact hlen₁ t ht
  · rw [List.flatten_append, devices_append, hdev₀, hdev₁]

def proto? : RepoLib → Option (Protocol Handler)
  | .bridge => some bridge
  | .flow => some flow
  | _ => none

def sw? : RepoLib → Option (Sw StubDev)
  | .asic => some asicSw
  | .flowStub => some flowStubSw
  | _ => none

theorem protosOf_dirOf (libs : List RepoLib) :
    protosOf (modules (dirOf libs)) = (ofKind libs .protocol).filterMap proto? := by
  rw [protosOf, modules, opened_dirOf, List.filterMap_filterMap, List.filterMap_map, ofKind]
  induction libs with
  | nil => rfl
  | cons l libs ih =>
    rw [List.filterMap_cons, ih]
    cases l <;> rfl

theorem swsOf_dirOf (libs : List RepoLib) :
    swsOf (modules (dirOf libs)) = (ofKind libs .sw).filterMap sw? := by
  rw [swsOf, modules, opened_dirOf, List.filterMap_filterMap, List.filterMap_map, ofKind]
  induction libs with
  | nil => rfl
  | cons l libs ih =>
    rw [List.filterMap_cons, ih]
    cases l <;> rfl

/-- The devices that the sample client reaches, in the order of its requests, by the protocol
module that is loaded first. -/
def clientCalls (libs : List RepoLib) : List (DevCall StubDev) :=
  if (ofKind libs .protocol).head? = some .bridge then
    [.br .asicBrDev (.addBr 0), .br .asicBrDev (.delBr 0),
      .flw .flowStubFlwDev ⟨.add, 0, 0, none⟩, .flw .flowStubFlwDev ⟨.delete, 0, 0, none⟩]
  else
    [.flw .flowStubFlwDev ⟨.add, 0, 0, none⟩, .flw .flowStubFlwDev ⟨.delete, 0, 0, none⟩,
      .br .asicBrDev (.addBr 0), .br .asicBrDev (.delBr 0), .br .asicBrDev (.addBrIf 0 2),
      .br .asicBrDev (.addBrIf 0 3), .br .asicBrDev (.addBrIf 0 4),
      .br .asicBrDev (.addBrIf 0 6)]

theorem ofKind_perm {libs : List RepoLib} (h : libs.Perm allLibs) (k : Kind) :
    (ofKind libs k).Perm (ofKind allLibs k) := h.filter _

theorem holds_devs {libs : List RepoLib} (h : libs.Perm allLibs) {r : Registry Handler StubDev}
    (hl : Linked appFuncs (dirOf libs) r) {slot : Nat} {p : Protocol Handler} {d : StubDev}
    (hslot : r.protocols.slots slot = some p) (hreg : p.registerProto = .append)
    (hd : ([asicSw, flowStubSw].filterMap fun s => s.protoRegFunc p.type) = [d] ∧
      ([flowStubSw, asicSw].filterMap fun s => s.protoRegFunc p.type) = [d]) :
    Holds (r.devs slot) [d] := by
  have hdevs := hl.devs slot p hslot hreg
  rw [swsOf_dirOf] at hdevs
  obtain hsw | hsw := List.perm_pair.mp (show (ofKind libs .sw).Perm [.asic, .flowStub] from
    ofKind_perm h .sw)
  · rw [hsw] at hdevs
    exact hd.1 ▸ hdevs
  · rw [hsw] at hdevs
    exact hd.2 ▸ hdevs

/-- What the sample client's requests lead to, for every order in which the repository's
libraries are read. -/
theorem serves_client {libs : List RepoLib} (h : libs.Perm allLibs) (pad : Buffer 4) :
    ∃ r turns msg, load appFuncs (dirOf libs) = some r ∧
      SockComm.Run (server r) SockComm.start ((sendMainAppMsg pad).map Request.recv) turns
        (.live msg) ∧
      (∀ t ∈ turns, (sent t).length = 13) ∧ devices turns.flatten = clientCalls libs := by
  have hso : ((dirOf libs).filter fun e => soName e.name).length < maxObjects := by
    refine Nat.lt_of_le_of_lt (List.length_filter_le _ _) ?_
    rw [dirOf, List.length_map, h.length_eq]
    decide
  obtain ⟨r, hr, hl⟩ := load_linked appFuncs (dirOf libs)
    (fitsHandles_of_length (Nat.le_of_lt hso)) (protosOf_length_lt hso)
  have hprotos := hl.protocols
  rw [protosOf_dirOf] at hprotos
  obtain hp | hp := List.perm_pair.mp (show (ofKind libs .protocol).Perm [.bridge, .flow] from
    ofKind_perm h .protocol)
  · rw [hp] at hprotos
    have h₀ : Calls (server r) 0 _ := calls_bridge (hprotos.slot_eq 0) (by decide)
      (holds_devs h hl (d := .asicBrDev) (hprotos.slot_eq 0) rfl ⟨rfl, rfl⟩)
    have h₁ : Calls (server r) 1 _ := calls_flow (hprotos.slot_eq 1) (by decide)
      (holds_devs h hl (d := .flowStubFlwDev) (hprotos.slot_eq 1) rfl ⟨rfl, rfl⟩)
    obtain ⟨turns, msg, hrun, hlen, hdev⟩ := run_client h₀ h₁
      (by intro v loop; fin_cases loop <;> rfl) pad
    refine ⟨r, turns, msg, hr, hrun, hlen, hdev.trans ?_⟩
    rw [clientCalls, hp]
    rfl
  · rw [hp] at hprotos
    have h₀ : Calls (server r) 0 _ := calls_flow (hprotos.slot_eq 0) (by decide)
      (holds_devs h hl (d := .flowStubFlwDev) (hprotos.slot_eq 0) rfl ⟨rfl, rfl⟩)
    have h₁ : Calls (server r) 1 _ := calls_bridge (hprotos.slot_eq 1) (by decide)
      (holds_devs h hl (d := .asicBrDev) (hprotos.slot_eq 1) rfl ⟨rfl, rfl⟩)
    obtain ⟨turns, msg, hrun, hlen, hdev⟩ := run_client h₀ h₁
      (by intro v loop; fin_cases loop <;> rfl) pad
    refine ⟨r, turns, msg, hr, hrun, hlen, hdev.trans ?_⟩
    rw [clientCalls, hp]
    rfl

/-- Whatever order the libraries are loaded in and whatever the schedule of the connection, the
sample client comes to its end in 27 acts. Its queries never reach the main application: they
and its bridge requests go to the modules in the first two slots, as commands of those. -/
theorem sample_client {libs : List RepoLib} (h : libs.Perm allLibs) (pad : Buffer 4) :
    ∃ r, load appFuncs (dirOf libs) = some r ∧
      ∀ acts outs c, ClientComm.Run (server r) (ClientComm.start (sendMainAppMsg pad)) acts outs c →
        (∀ a ∈ acts, Whole a) →
        acts.length ≤ 27 ∧ devices outs.flatten <+: clientCalls libs ∧
        (acts.length < 27 → ∃ a, Whole a ∧ (ClientComm.step (server r) c a).isSome) ∧
        (acts.length = 27 → c.Done ∧ devices outs.flatten = clientCalls libs) := by
  obtain ⟨r, turns, msg, hr, hserve, hlen, hdev⟩ := serves_client h pad
  refine ⟨r, hr, ?_⟩
  intro acts outs c hrun hacts
  have hreply : ∀ t ∈ turns, sent t ≠ [] := by
    intro t ht
    apply List.length_pos_iff.mp
    rw [hlen t ht]
    decide
  have hshort : ∀ t ∈ turns, (sent t).length ≤ szReply := by
    intro t ht
    rw [hlen t ht]
    decide
  have hin := inStep hrun hacts hserve hreply hshort
  have hnine : 3 * (sendMainAppMsg pad).length = 27 := rfl
  refine ⟨hnine ▸ hin.length_le, ?_, hnine ▸ hin.more, ?_⟩
  · rw [← hdev]
    exact hin.events.filterMap _
  · intro hall
    obtain ⟨hdone, hout⟩ := hin.all (hall.trans hnine.symm)
    exact ⟨hdone, by rw [hout, hdev]⟩

theorem sample_client_allLibs : ∃ r, load appFuncs (dirOf allLibs) = some r ∧
    ∀ acts outs c,
      ClientComm.Run (server r) (ClientComm.start (sendMainAppMsg (zeros 4))) acts outs c →
      (∀ a ∈ acts, Whole a) →
      acts.length ≤ 27 ∧ devices outs.flatten <+: clientCalls allLibs ∧
      (acts.length < 27 → ∃ a, Whole a ∧ (ClientComm.step (server r) c a).isSome) ∧
      (acts.length = 27 → c.Done ∧ devices outs.flatten = clientCalls allLibs) :=
  sample_client (List.Perm.refl allLibs) (zeros 4)

theorem qryId_query (msg : Msg) (loop : Fin 2) :
    qryId (param (receive msg (queryRequest loop).chunk)) = maxObjects := by
  have hparams : (queryRequest loop).params = intBytes 256 := rfl
  rw [qryId, intAt_param msg _ 0 (by rw [hparams, length_intBytes]), hparams, List.drop_zero,
    List.take_of_length_le (by rw [length_intBytes]), readInt_intBytes (by decide) (by decide)]
  rfl

/-- Where the main application is the only protocol, it answers the first query with all switch
types, and the requests to the bridge are echoed. -/
theorem serves_alone {r : Registry Handler D} {ss : List (Sw D)}
    (hp : Holds r.protocols [appMain appFuncs]) (hs : Holds r.switches ss)
    (hle : ss.length ≤ 125) (pad : Buffer 4) :
    ∃ turns msg, SockComm.Run (server r) SockComm.start ((sendMainAppMsg pad).map Request.recv)
        turns (.live msg) ∧ turns.map (fun t => (sent t).length) =
      (szHdr + 4 * ss.length) :: 13 :: List.replicate 7 48 := by
  have hslot : (server r).protocols.slots 0 = some (appMain appFuncs) := hp.slot_eq 0
  have hlookup (loop : Fin 2) : lookup (server r) (queryRequest loop).type
      (queryRequest loop).messageId = _ := lookup_slot hslot (by decide) _
  obtain ⟨p', hquery, hbytes⟩ := appMsgQrySw_types hs hle
    (param (receive (zeros szBuf) (queryRequest 0).chunk)) (Or.inl (qryId_query _ 0))
  have hselect : lookup (server r) (queryRequest 0).type (queryRequest 0).messageId =
      .ok (some .appMsgQrySw) := hlookup 0
  have hcall : (server r).call (queryRequest 0).type.toNat .appMsgQrySw
      (param (receive (zeros szBuf) (queryRequest 0).chunk)) = .ok ⟨p', _, []⟩ := hquery
  obtain ⟨msg₁, ⟨es₁, hstep₁, -, hlen₁⟩, -⟩ := answers_returns hselect hcall hbytes
  have hprint : (server r).call (queryRequest 1).type.toNat .appMsgQryProto
      (param (receive msg₁ (queryRequest 1).chunk)) = .ok ⟨_, 1, []⟩ := rfl
  obtain ⟨msg₂, ⟨es₂, hstep₂, -, hlen₂⟩, -⟩ := answers_kept msg₁ (hlookup 1) hprint
  have hfree (msg : Msg) (loop : Fin 7) :
      ∃ msg', Answers (server r) msg (bridgeRequest pad loop) [] 48 msg' := by
    have hparams : (bridgeRequest pad loop).params = bridgeParams pad loop := rfl
    have hlen : (bridgeRequest pad loop).bytes.length = 36 := by
      rw [Request.length_bytes, hparams, length_bridgeParams]
      rfl
    have hinside : (0 : Int) ≤ protocolBridge ∧ protocolBridge < maxObjects := by decide
    have hl : lookup (server r) (bridgeRequest pad loop).type (bridgeRequest pad loop).messageId =
        .ok none := lookup_free hinside (hp.slot_eq 1) _
    have hans := answers_free msg hl (by rw [hlen]; decide)
    rwa [hlen] at hans
  obtain ⟨turns, msg, hrun, -, hlens, -⟩ := run_answers (P := fun _ => True)
    (fun msg loop _ => (hfree msg loop).imp fun _ h => ⟨h, trivial⟩) (List.finRange 7)
    (trivial : (fun _ => True) msg₂)
  refine ⟨es₁ :: es₂ :: turns, msg, .cons hstep₁ (.cons hstep₂ hrun), ?_⟩
  have hmap : turns.map (fun t => (sent t).length) = List.replicate 7 48 := by
    rw [List.eq_replicate_iff, List.length_map, ← hrun.length_eq]
    refine ⟨rfl, ?_⟩
    intro n hn
    obtain ⟨t, ht, rfl⟩ := List.mem_map.mp hn
    exact hlens t ht
  rw [List.map_cons, List.map_cons, hmap, hlen₁, hlen₂, length_encodeInts, List.length_map,
    asked, if_pos (qryId_query _ 0)]

/-- Without a protocol module the sample client gets all its answers whole exactly when there are
at most 29 switches: with more, the list of their types is longer than its buffer. -/
theorem client_answers_iff {ents : List (DirEnt Handler D)}
    (hso : (ents.filter fun e => soName e.name).length < maxObjects)
    (hprotos : protosOf (modules ents) = []) (hsw : (swsOf (modules ents)).length ≤ 125)
    (pad : Buffer 4) :
    ∃ r turns msg, load appFuncs ents = some r ∧
      SockComm.Run (server r) SockComm.start ((sendMainAppMsg pad).map Request.recv) turns
        (.live msg) ∧
      ∀ acts outs c, ClientComm.Run (server r) (ClientComm.start (sendMainAppMsg pad)) acts outs c →
        (∀ a ∈ acts, Whole a) → c.Done →
        (c.got = turns.map sent ↔ (swsOf (modules ents)).length ≤ 29) := by
  obtain ⟨r, hr, hl⟩ := load_linked appFuncs ents (fitsHandles_of_length (Nat.le_of_lt hso))
    (protosOf_length_lt hso)
  have hp := hl.protocols
  rw [hprotos] at hp
  obtain ⟨turns, msg, hserve, hlens⟩ := serves_alone hp hl.switches hsw pad
  refine ⟨r, turns, msg, hr, hserve, ?_⟩
  intro acts outs c hrun hacts hdone
  rw [got_iff hrun hacts hdone hserve]
  have hmem : (∀ t ∈ turns, (sent t).length ≤ szReply) ↔
      ∀ n ∈ turns.map fun t => (sent t).length, n ≤ szReply := by
    rw [List.forall_mem_map]
  rw [hmem, hlens, List.forall_mem_cons, List.forall_mem_cons]
  have hrest : ∀ n ∈ List.replicate 7 48, n ≤ szReply := by decide
  constructor
  · rintro ⟨hle, -⟩
    rw [szHdr, szReply] at hle
    omega
  · intro hle
    refine ⟨?_, by decide, hrest⟩
    rw [szHdr, szReply]
    omega

theorem bareDir_answers : ∃ r turns msg, load appFuncs bareDir = some r ∧
    SockComm.Run (server r) SockComm.start ((sendMainAppMsg (zeros 4)).map Request.recv) turns
      (.live msg) ∧
    ∀ acts outs c,
      ClientComm.Run (server r) (ClientComm.start (sendMainAppMsg (zeros 4))) acts outs c →
      (∀ a ∈ acts, Whole a) → c.Done →
      (c.got = turns.map sent ↔ (swsOf (modules bareDir)).length ≤ 29) :=
  client_answers_iff (by decide) rfl (by decide) (zeros 4)

end LibSwitch.SampleClient

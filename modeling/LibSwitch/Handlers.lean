import LibSwitch.ModuleLoad
import LibSwitch.SockComm
import LibSwitch.FlowTypes

namespace LibSwitch.Handlers

open LibSwitch.PointerTable LibSwitch.ByteOrder LibSwitch.ByteBuffer LibSwitch.Common
open LibSwitch.ModuleLoad LibSwitch.SockComm LibSwitch.FlowTypes

variable {H D : Type}

inductive BrCall
  | addBr (brId : Int)
  | delBr (brId : Int)
  | addBrIf (brId intfId : Int)
  | delBrIf (brId intfId : Int)
  | setAge (brId age : Int)
  | setMaxAge (brId maxAge : Int)
  deriving DecidableEq

inductive DevCall (D : Type)
  | br (d : D) (c : BrCall)
  | flw (d : D) (c : FlwCall)

inductive Handler
  | appMsgQrySw | appMsgQryProto
  | brAddBr | brDelBr | brAddBrIf | brDelBrIf | brSetAge | brSetMaxAge | brDump
  | flwAddFlw | flwDelFlw | flwAddFlwIf | flwDelFlwIf | flwSetAge | flwSetMaxAge | flwDump
  deriving DecidableEq

def qryId (p : Param) : Int := intAt p 0

/-- `bridge_id` of a `br_msg_param` and `flow_id` of a `flw_msg_param`, behind the pointer
`dev_hdl`. -/
def bridgeId (p : Param) : Int := intAt p 8

/-- The union of `intf_id`, `age` and `max_age`. -/
def intfId (p : Param) : Int := intAt p 12

/-- The body of the loop of `app_msg_qry_sw` that overwrites the request with switch types. -/
def storeType (switches : Table (Sw D)) (loop : Nat) (p : Param) : Except Fault Param :=
  match deref maxObjects switches loop with
  | none => .error .absentSwitch
  | some s =>
    match write p (4 * loop) (intBytes s.type) with
    | none => .error .bufferOverrun
    | some p' => .ok p'

/-- `k` rounds of a loop counting up from `loop`. -/
def forLoop (body : Nat → Param → Except Fault Param) : Nat → Nat → Param → Except Fault Param
  | 0, _, p => .ok p
  | k + 1, loop, p =>
    match body loop p with
    | .error f => .error f
    | .ok p' => forLoop body k (loop + 1) p'

def appMsgQrySw (switches : Table (Sw D)) (p : Param) : Except Fault (Reply (DevCall D)) :=
  if qryId p = maxObjects then
    match forLoop (storeType switches) switches.cnt 0 p with
    | .error f => .error f
    | .ok p' => .ok ⟨p', switches.cnt * 4, []⟩
  else
    match deref maxObjects switches (qryId p) with
    | none => .error .absentSwitch
    | some s => .ok ⟨put p 0 (intBytes s.type) (by rw [length_intBytes]; decide), 4, []⟩

def printHandler (p : Param) : Except Fault (Reply (DevCall D)) := .ok ⟨p, 1, []⟩

def brHandler (op : Int → Int → BrCall) (brDevs : Table D) (p : Param) :
    Except Fault (Reply (DevCall D)) :=
  match deref maxObjects brDevs (bridgeId p) with
  | none => .error .absentBrDev
  | some d => .ok ⟨p, 1, [.br d (op (bridgeId p) (intfId p))]⟩

def brAddBr : Table D → Param → Except Fault (Reply (DevCall D)) :=
  brHandler fun brId _ => .addBr brId

def brDelBr : Table D → Param → Except Fault (Reply (DevCall D)) :=
  brHandler fun brId _ => .delBr brId

def brAddBrIf : Table D → Param → Except Fault (Reply (DevCall D)) :=
  brHandler fun brId intf => .addBrIf brId intf

def brDelBrIf : Table D → Param → Except Fault (Reply (DevCall D)) :=
  brHandler fun brId intf => .addBrIf brId intf

def brSetAge : Table D → Param → Except Fault (Reply (DevCall D)) :=
  brHandler fun brId age => .addBrIf brId age

def brSetMaxAge : Table D → Param → Except Fault (Reply (DevCall D)) :=
  brHandler fun brId maxAge => .addBrIf brId maxAge

/-- A flow handler calls an operation of the device numbered by `flow_id` on table 0 and a
null flow. -/
def flwHandler (op : FlwOp) (flwDevs : Table D) (p : Param) :
    Except Fault (Reply (DevCall D)) :=
  match deref maxObjects flwDevs (bridgeId p) with
  | none => .error .absentFlwDev
  | some d => .ok ⟨p, 1, [.flw d ⟨op, bridgeId p, 0, none⟩]⟩

def flwAddFlw : Table D → Param → Except Fault (Reply (DevCall D)) :=
  flwHandler .add

def flwDelFlw : Table D → Param → Except Fault (Reply (DevCall D)) :=
  flwHandler .delete

/-- Calling a handler through a slot of `protocols[]`: its library owns the device table. -/
def runHandler (r : Registry Handler D) (slot : Nat) :
    Handler → Param → Except Fault (Reply (DevCall D))
  | .appMsgQrySw => appMsgQrySw r.switches
  | .brAddBr => brAddBr (r.devs slot)
  | .brDelBr => brDelBr (r.devs slot)
  | .brAddBrIf => brAddBrIf (r.devs slot)
  | .brDelBrIf => brDelBrIf (r.devs slot)
  | .brSetAge => brSetAge (r.devs slot)
  | .brSetMaxAge => brSetMaxAge (r.devs slot)
  | .flwAddFlw => flwAddFlw (r.devs slot)
  | .flwDelFlw => flwDelFlw (r.devs slot)
  | .appMsgQryProto | .brDump | .flwAddFlwIf | .flwDelFlwIf | .flwSetAge | .flwSetMaxAge
  | .flwDump => printHandler

def server (r : Registry Handler D) : Server Handler (DevCall D) := ⟨r.protocols, runHandler r⟩

inductive BrMsgId
  | addBr | addBrIf | delBrIf | delBr | setAge | setMaxAge | dump
  deriving DecidableEq

def BrMsgId.num : BrMsgId → Int
  | .addBr => 0
  | .addBrIf => 1
  | .delBrIf => 2
  | .delBr => 3
  | .setAge => 4
  | .setMaxAge => 5
  | .dump => 6

def brMessage : List (Messages Handler) :=
  [⟨protocolBridge, BrMsgId.addBr.num, some .brAddBr⟩,
   ⟨protocolBridge, BrMsgId.delBr.num, some .brDelBr⟩,
   ⟨protocolBridge, BrMsgId.addBrIf.num, some .brAddBrIf⟩,
   ⟨protocolBridge, BrMsgId.delBrIf.num, some .brDelBrIf⟩,
   ⟨protocolBridge, BrMsgId.setAge.num, some .brSetAge⟩,
   ⟨protocolBridge, BrMsgId.dump.num, some .brDump⟩,
   ⟨protocolBridge, BrMsgId.setMaxAge.num, some .brSetMaxAge⟩]

def bridge : Protocol Handler where
  id := protocolBridge
  type := 1
  msgCnt := 7
  message := brMessage
  message_length := rfl
  registerProto := .append

inductive FlwMsgId
  | addFlw | addFlwIf | delFlwIf | delFlw | setAge | setMaxAge | dump
  deriving DecidableEq

def FlwMsgId.num : FlwMsgId → Int
  | .addFlw => 0
  | .addFlwIf => 1
  | .delFlwIf => 2
  | .delFlw => 3
  | .setAge => 4
  | .setMaxAge => 5
  | .dump => 6

def flwMessage : List (Messages Handler) :=
  [⟨protocolFlow, FlwMsgId.addFlw.num, some .flwAddFlw⟩,
   ⟨protocolFlow, FlwMsgId.delFlw.num, some .flwDelFlw⟩,
   ⟨protocolFlow, FlwMsgId.addFlwIf.num, some .flwAddFlwIf⟩,
   ⟨protocolFlow, FlwMsgId.delFlwIf.num, some .flwDelFlwIf⟩,
   ⟨protocolFlow, FlwMsgId.setAge.num, some .flwSetAge⟩,
   ⟨protocolFlow, FlwMsgId.dump.num, some .flwDump⟩,
   ⟨protocolFlow, FlwMsgId.setMaxAge.num, some .flwSetMaxAge⟩]

def flow : Protocol Handler where
  id := protocolFlow
  type := 2
  msgCnt := 7
  message := flwMessage
  message_length := rfl
  registerProto := .append

def appFuncs : AppFuncs Handler := ⟨.appMsgQrySw, .appMsgQryProto⟩

end LibSwitch.Handlers

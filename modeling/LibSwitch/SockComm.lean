import LibSwitch.Common
import LibSwitch.ByteBuffer
import LibSwitch.Reactive

namespace LibSwitch.SockComm

open LibSwitch.PointerTable LibSwitch.ByteOrder LibSwitch.ByteBuffer LibSwitch.Common

variable {H C : Type}

/-- `sizeof(struct app_msg_hdr)`: the ints `type`, `message_id` and `len`. -/
def szHdr : Nat := 12

theorem szHdr_le : szHdr ≤ szBuf := by decide

abbrev Msg := Buffer szBuf

/-- The part of the message buffer behind the header, which is all a handler is given. -/
abbrev Param := Buffer (szBuf - szHdr)

def hdrType (msg : Msg) : Int := intAt msg 0

def hdrMessageId (msg : Msg) : Int := intAt msg 4

def param (msg : Msg) : Param := after szHdr msg

inductive Fault
  | protocolsIndex
  | messageIndex
  | absentSwitch
  | absentBrDev
  | absentFlwDev
  | bufferOverrun
  | sendOverrun
  deriving DecidableEq

/-- What a handler leaves behind when it returns: its parameter area, its result and the
device operations it called. -/
structure Reply (C : Type) where
  param : Param
  ret : Int
  calls : List C

/-- What the session sees of the program: the table of protocols and the effect of calling a
handler through a slot of it. -/
structure Server (H C : Type) where
  protocols : Table (Protocol H)
  call : Nat → H → Param → Except Fault (Reply C)

/-- A call of a handler: the header fields that selected it and the parameter area it got. -/
structure Call (H : Type) where
  type : Int
  messageId : Int
  func : H
  param : Param

inductive Event (H C : Type)
  | call (c : Call H)
  | device (c : C)
  | send (len : Int) (bytes : List UInt8)
  | fault (f : Fault)

/-- `protocols[msg_hdr->type]`: the protocol the message is dispatched to, if any. -/
def dispatch (protocols : Table (Protocol H)) (type : Int) :
    Except Fault (Option (Protocol H)) :=
  match read maxObjects protocols type with
  | none => .error .protocolsIndex
  | some p => .ok p

/-- `protocols[msg_hdr->type]->message[msg_hdr->message_id].func`. -/
def lookup (srv : Server H C) (type messageId : Int) : Except Fault (Option H) :=
  match dispatch srv.protocols type with
  | .error f => .error f
  | .ok none => .ok none
  | .ok (some p) =>
    match p.row messageId with
    | none => .error .messageIndex
    | some row => .ok row.func

theorem dispatch_holds {protocols : Table (Protocol H)} {ps : List (Protocol H)}
    (h : Holds protocols ps) {type : Int} (h0 : 0 ≤ type) (hc : type < maxObjects) :
    dispatch protocols type = .ok ps[type.toNat]? := by
  rw [dispatch, h.read h0 hc]

theorem dispatch_outside (protocols : Table (Protocol H)) {type : Int}
    (h : ¬ (0 ≤ type ∧ type < maxObjects)) :
    dispatch protocols type = .error .protocolsIndex := by
  rw [dispatch, read_outside protocols h]

theorem hdrLen_fits (n : Int) : 8 + (intBytes n).length ≤ szBuf := by
  rw [length_intBytes]
  decide

/-- Fill in the length field and send: the bytes sent must all lie in the buffer. -/
def reply (msg : Msg) (len : Int) : List (Event H C) × Option Msg :=
  let n := toInt (szHdr + len)
  let msg := put msg 8 (intBytes n) (hdrLen_fits n)
  if 0 ≤ n ∧ n ≤ szBuf then ([.send n (msg.bytes.take n.toNat)], some msg)
  else ([.send n msg.bytes, .fault .sendOverrun], none)

/-- The loop body of a session on a buffer into which `len` bytes were received. No message
is left behind when the process dies. -/
def serve (srv : Server H C) (msg : Msg) (len : Int) : List (Event H C) × Option Msg :=
  match lookup srv (hdrType msg) (hdrMessageId msg) with
  | .error f => ([.fault f], none)
  | .ok none => reply msg len
  | .ok (some h) =>
    let called := Event.call ⟨hdrType msg, hdrMessageId msg, h, param msg⟩
    match srv.call (hdrType msg).toNat h (param msg) with
    | .error f => ([called, .fault f], none)
    | .ok r =>
      let sent := reply (replaceAfter szHdr msg r.param szHdr_le) r.ret
      (called :: r.calls.map .device ++ sent.1, sent.2)

/-- The bytes a `recv` on the buffer returns, none of them once the peer has closed. -/
structure Chunk where
  bytes : List UInt8
  length_le : bytes.length ≤ szBuf

inductive Recv
  | data (c : Chunk)
  | error

def receive (msg : Msg) (c : Chunk) : Msg := put msg 0 c.bytes (by simpa using c.length_le)

/-- A round in which `recv` returned data: the buffer keeps what the chunk does not reach. -/
def serveChunk (srv : Server H C) (msg : Msg) (c : Chunk) : List (Event H C) × Option Msg :=
  serve srv (receive msg c) c.bytes.length

inductive Session
  | live (msg : Msg)
  | closed
  | dead

def next : Option Msg → Session
  | some msg => .live msg
  | none => .dead

/-- One round of the receive loop. Only a negative result of `recv` ends the loop. -/
def step (srv : Server H C) : Session → Recv → Option (List (Event H C) × Session)
  | .live _, .error => some ([], .closed)
  | .live msg, .data c => some ((serveChunk srv msg c).1, next (serveChunk srv msg c).2)
  | .closed, _ => none
  | .dead, _ => none

def start : Session := .live (zeros szBuf)

abbrev Run (srv : Server H C) := Reactive.Run (step srv)

theorem step_live {srv : Server H C} {msg msg' : Msg} {c : Chunk} {es : List (Event H C)}
    (h : serveChunk srv msg c = (es, some msg')) :
    step srv (.live msg) (.data c) = some (es, .live msg') := by
  rw [step, h]
  rfl

def call? : Event H C → Option (Call H)
  | .call c => some c
  | _ => none

def calls (es : List (Event H C)) : List (Call H) := es.filterMap call?

theorem serve_error {srv : Server H C} {msg : Msg} {f : Fault}
    (hl : lookup srv (hdrType msg) (hdrMessageId msg) = .error f) (len : Int) :
    serve srv msg len = ([.fault f], none) := by
  rw [serve, hl]

theorem serve_none {srv : Server H C} {msg : Msg}
    (hl : lookup srv (hdrType msg) (hdrMessageId msg) = .ok none) (len : Int) :
    serve srv msg len = reply msg len := by
  rw [serve, hl]

theorem serve_fault {srv : Server H C} {msg : Msg} {h : H} {f : Fault}
    (hl : lookup srv (hdrType msg) (hdrMessageId msg) = .ok (some h))
    (hc : srv.call (hdrType msg).toNat h (param msg) = .error f) (len : Int) :
    serve srv msg len =
      ([.call ⟨hdrType msg, hdrMessageId msg, h, param msg⟩, .fault f], none) := by
  rw [serve, hl]
  simp only [hc]

theorem serve_returns {srv : Server H C} {msg : Msg} {h : H} {r : Reply C}
    (hl : lookup srv (hdrType msg) (hdrMessageId msg) = .ok (some h))
    (hc : srv.call (hdrType msg).toNat h (param msg) = .ok r) (len : Int) :
    serve srv msg len =
      let sent : List (Event H C) × Option Msg :=
        reply (replaceAfter szHdr msg r.param szHdr_le) r.ret
      (.call ⟨hdrType msg, hdrMessageId msg, h, param msg⟩ :: r.calls.map .device ++ sent.1,
        sent.2) := by
  rw [serve, hl]
  simp only [hc]

@[simp] theorem calls_reply (msg : Msg) (len : Int) :
    calls (reply msg len : List (Event H C) × Option Msg).1 = [] := by
  simp only [reply]
  split <;> simp [calls, call?]

theorem calls_device (cs : List C) : calls (cs.map (Event.device : C → Event H C)) = [] := by
  induction cs with
  | nil => rfl
  | cons c cs ih => exact ih

theorem calls_append (es fs : List (Event H C)) : calls (es ++ fs) = calls es ++ calls fs :=
  List.filterMap_append

def selected (srv : Server H C) (msg : Msg) : Option (Call H) :=
  match lookup srv (hdrType msg) (hdrMessageId msg) with
  | .ok (some h) => some ⟨hdrType msg, hdrMessageId msg, h, param msg⟩
  | _ => none

theorem calls_serve (srv : Server H C) (msg : Msg) (len : Int) :
    calls (serve srv msg len).1 = (selected srv msg).toList := by
  rw [serve, selected]
  cases hl : lookup srv (hdrType msg) (hdrMessageId msg) with
  | error f => rfl
  | ok target =>
    cases target with
    | none => exact calls_reply msg len
    | some h =>
      dsimp only
      split
      · rfl
      · next r _ =>
        rw [List.cons_append, ← List.singleton_append, calls_append, calls_append, calls_device,
          calls_reply]
        rfl

theorem dispatch_inside {protocols : Table (Protocol H)} {type : Int}
    (h : 0 ≤ type ∧ type < maxObjects) :
    dispatch protocols type = .ok (protocols.slots type.toNat) := by
  rw [dispatch, PointerTable.read, if_pos h]

theorem dispatch_slot {protocols : Table (Protocol H)} {slot : Nat} {p : Protocol H}
    (hs : protocols.slots slot = some p) (hc : slot < maxObjects) :
    dispatch protocols slot = .ok (some p) := by
  rw [dispatch_inside ⟨by omega, by omega⟩, Int.toNat_natCast, hs]

theorem lookup_free {srv : Server H C} {type : Int} (h : 0 ≤ type ∧ type < maxObjects)
    (hs : srv.protocols.slots type.toNat = none) (messageId : Int) :
    lookup srv type messageId = .ok none := by
  rw [lookup, dispatch_inside h, hs]

/-- Through a registered protocol the message id selects a row by its position. -/
theorem lookup_slot {srv : Server H C} {slot : Nat} {p : Protocol H}
    (hs : srv.protocols.slots slot = some p) (hc : slot < maxObjects) (messageId : Int) :
    lookup srv slot messageId =
      match p.row messageId with
      | none => .error .messageIndex
      | some row => .ok row.func := by
  rw [lookup, dispatch_slot hs hc]

def device? : Event H C → Option C
  | .device c => some c
  | _ => none

def devices (es : List (Event H C)) : List C := es.filterMap device?

theorem devices_append (es fs : List (Event H C)) :
    devices (es ++ fs) = devices es ++ devices fs := List.filterMap_append

theorem devices_calls (cs : List C) : devices (cs.map (Event.device : C → Event H C)) = cs := by
  induction cs with
  | nil => rfl
  | cons c cs ih => exact congrArg (c :: ·) ih

def send? : Event H C → Option (List UInt8)
  | .send _ bytes => some bytes
  | _ => none

def sent (es : List (Event H C)) : List UInt8 := (es.filterMap send?).flatten

end LibSwitch.SockComm

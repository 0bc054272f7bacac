import LibSwitch.PointerTable

namespace LibSwitch.Common

def szBuf : Nat := 512

def maxObjects : Nat := 256

def protocolApp : Int := 0

def protocolBridge : Int := 1

def protocolFlow : Int := 2

variable {H D : Type}

/-- A row of a message table. `H` stands for the function pointers of the program. -/
structure Messages (H : Type) where
  type : Int
  messageId : Int
  func : Option H

/-- What the `register_proto` member does with a device: the bridge and flow modules append
it to the device table of their library, the main application only prints. -/
inductive RegisterDev
  | append
  | ignore

structure Protocol (H : Type) where
  id : Int
  type : Int
  msgCnt : Nat
  message : List (Messages H)
  message_length : message.length = msgCnt
  registerProto : RegisterDev

/-- A switch. Its `proto_reg_func` hands the given registration function one device when it
supports the protocol, and calls nothing otherwise. -/
structure Sw (D : Type) where
  type : Int
  protoRegFunc : Int → Option D

structure Comm where
  name : String
  id : Int

structure Cli where
  name : String
  id : Int

/-- The argument pair of `register_mod`: the module type selects what the pointer is. -/
inductive Module (H D : Type)
  | sw (s : Sw D)
  | protocol (p : Protocol H)
  | comm (c : Comm)
  | cli (c : Cli)
  | unknown (type : Int)

@[simp] def Module.sw? : Module H D → Option (Sw D)
  | .sw s => some s
  | _ => none

@[simp] def Module.protocol? : Module H D → Option (Protocol H)
  | .protocol p => some p
  | _ => none

@[simp] def Module.comm? : Module H D → Option Comm
  | .comm c => some c
  | _ => none

@[simp] def Module.cli? : Module H D → Option Cli
  | .cli c => some c
  | _ => none

/-- An opened library, with the module its `init` symbol registers if it has one. -/
structure Lib (H D : Type) where
  init : Option (Module H D)

structure DirEnt (H D : Type) where
  name : List Char
  dlopen : Option (Lib H D)

/-- The message at a row of the table: absent outside `0..msg_cnt-1`. -/
def Protocol.row (p : Protocol H) (id : Int) : Option (Messages H) :=
  if 0 ≤ id then p.message[id.toNat]? else none

theorem Protocol.row_isSome (p : Protocol H) (id : Int) :
    (p.row id).isSome ↔ 0 ≤ id ∧ id < p.msgCnt := by
  rw [← p.message_length, Protocol.row]
  split
  · rw [Option.isSome_iff_ne_none, ne_eq, List.getElem?_eq_none_iff]
    omega
  · simp only [Option.isSome_none, Bool.false_eq_true, false_iff]
    omega

end LibSwitch.Common

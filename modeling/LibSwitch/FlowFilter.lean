import LibSwitch.FlowTypes
import LibSwitch.Address
import LibSwitch.Common

namespace LibSwitch.FlowFilter

open LibSwitch.PointerTable LibSwitch.ByteOrder LibSwitch.ByteBuffer LibSwitch.CText
open LibSwitch.Numeral LibSwitch.Address LibSwitch.Common LibSwitch.FlowTypes

variable {D : Type}

/-- Why `fib_cmd_filter` stops before the device call: it gives up on the line, it writes
past an array, or it follows a null result of `ether_aton`. -/
inductive Stop
  | out
  | overrun
  | nullAddr

theorem two_fits (v : Int) : 0 + (shortBytes v).length ≤ 16 := by
  rw [length_shortBytes]
  decide

theorem mac_fits (mac : Buffer 6) : 0 + mac.bytes.length ≤ 16 := by
  rw [mac.length_eq]
  decide

theorem ip_fits (ip : Buffer 4) : 0 + ip.bytes.length ≤ 16 := by
  rw [ip.length_eq]
  decide

theorem swap_fits (val : Value) : 0 + (ByteBuffer.read val 0 4).reverse.length ≤ 16 := by
  rw [List.length_reverse, ByteBuffer.read, List.length_take]
  omega

def storeShort (v : Int) (val : Value) : Value := put val 0 (shortBytes v) (two_fits v)

def swapBytes (val : Value) : Value := put val 0 (ByteBuffer.read val 0 4).reverse (swap_fits val)

def parseShort (text : CString) (val : Value) : Except Stop Value :=
  .ok (storeShort (atoi text) val)

def parseHex (text : CString) (val : Value) : Except Stop Value :=
  .ok (storeShort (strtol 16 text) val)

/-- The address of `dl-dst` is checked, that of `dl-src` is not. -/
def parseMac (bad : Stop) (text : CString) (val : Value) : Except Stop Value :=
  match etherAton text with
  | none => .error bad
  | some mac => .ok (put val 0 mac.bytes (mac_fits mac))

/-- The result of `inet_pton` is ignored: without one, the bytes swapped are the old ones. -/
def parseIp (text : CString) (val : Value) : Except Stop Value :=
  match inetPton text with
  | none => .ok (swapBytes val)
  | some ip => .ok (swapBytes (put val 0 ip.bytes (ip_fits ip)))

/-- A branch of the match loop: the option it takes and how many characters of it `strncmp`
compares, the tuple it fills, the value of `rqd_field` it asks for if it asks for one, and the
value it sets. -/
structure MatchField where
  name : CString
  len : Nat
  id : FlowTuple
  required : Option Nat
  next : Nat
  parse : CString → Value → Except Stop Value

def MatchField.word (f : MatchField) : CString := f.name.take f.len

def matchFields : List MatchField :=
  [⟨"in-phy-port".toList, 11, .inPhyPort, none, 1, parseShort⟩,
   ⟨"in-port".toList, 7, .inPort, some 1, 2, parseShort⟩,
   ⟨"dl-dst".toList, 6, .dlDst, some 2, 3, parseMac .out⟩,
   ⟨"dl-src".toList, 6, .dlSrc, some 3, 4, parseMac .nullAddr⟩,
   ⟨"dl-type".toList, 6, .dlType, some 4, 5, parseHex⟩,
   ⟨"nw-dst".toList, 6, .nw4Dst, some 5, 6, parseIp⟩,
   ⟨"nw-src".toList, 6, .nw4Src, some 6, 7, parseIp⟩,
   ⟨"nw-ecn".toList, 6, .nwEcn, some 7, 8, parseShort⟩,
   ⟨"nw-proto".toList, 8, .nwProto, some 8, 9, parseShort⟩,
   ⟨"tp-dst".toList, 6, .tpDst, some 9, 11, parseShort⟩,
   ⟨"tp-src".toList, 6, .tpSrc, some 11, 12, parseShort⟩]

/-- The locals of `fib_cmd_filter`. No command is `flow_cmd` 0. -/
structure Locals where
  rqdField : Nat
  tuples : Vector Tuple 25
  actions : Vector Action 25
  tupleCnt : Nat
  actionCnt : Nat
  devId : Int
  tblId : Int
  flowCmd : Option FlwOp

/-- Only the two arrays are not initialised. -/
def initialLocals (tuples : Vector Tuple 25) (actions : Vector Action 25) : Locals :=
  ⟨0, tuples, actions, 0, 0, 0, 0, none⟩

def devOption (devCnt : Nat) (option : CString) (s : Locals) : Except Stop Locals :=
  match optionShort option with
  | none => .error .out
  | some v => if (devCnt : Int) < v ∨ v < 0 then .error .out else .ok { s with devId := v }

def tblOption (option : CString) (s : Locals) : Except Stop Locals :=
  match optionShort option with
  | none => .error .out
  | some v => if v < 0 then .error .out else .ok { s with tblId := v }

def matchField (f : MatchField) (option : CString) (s : Locals) : Except Stop Locals :=
  if f.required.any (· != s.rqdField) then .error .out
  else if h : s.tupleCnt < 25 then
    match optionValue option with
    | none => .error .out
    | some text =>
      match f.parse text s.tuples[s.tupleCnt].value with
      | .error e => .error e
      | .ok v => .ok { s with
          rqdField := f.next
          tuples := s.tuples.set s.tupleCnt ⟨f.id, v⟩
          tupleCnt := s.tupleCnt + 1 }
  else .error .overrun

/-- One option of the match loop. There is no next state where the loop ends at `action`. -/
def matchOption (devCnt : Nat) (option : CString) (s : Locals) : Except Stop (Option Locals) :=
  if strncmpEq option "filter".toList 6 then .ok (some s)
  else if strncmpEq option "add".toList 3 then .ok (some { s with flowCmd := some .add })
  else if strncmpEq option "del".toList 3 then .ok (some { s with flowCmd := some .delete })
  else if strncmpEq option "dump".toList 4 then .ok (some { s with flowCmd := some .lookup })
  else if s.flowCmd.isNone then .error .out
  else if strncmpEq option "dev".toList 3 then (devOption devCnt option s).map some
  else if strncmpEq option "tbl".toList 3 then (tblOption option s).map some
  else
    match matchFields.find? fun f => strncmpEq option f.name f.len with
    | some f => (matchField f option s).map some
    | none => if strncmpEq option "action".toList 6 then .ok none else .error .out

/-- The match loop, with the options it leaves to the action loop. -/
def matchLoop (devCnt : Nat) : List CString → Locals → Except Stop (Locals × List CString)
  | [], s => .ok (s, [])
  | option :: rest, s =>
    match matchOption devCnt option s with
    | .error e => .error e
    | .ok none => .ok (s, rest)
    | .ok (some s') => matchLoop devCnt rest s'

/-- One option of the action loop. A `drop` does not advance `action_cnt`. -/
def actionOption (option : CString) (s : Locals) : Except Stop Locals :=
  if strncmpEq option "drop".toList 4 then
    if h : s.actionCnt < 25 then
      .ok { s with actions := s.actions.set s.actionCnt ⟨.drop, s.actions[s.actionCnt].value⟩ }
    else .error .overrun
  else if strncmpEq option "out-port".toList 8 then
    if h : s.actionCnt < 25 then
      match optionValue option with
      | none => .error .out
      | some text => .ok { s with
          actions := s.actions.set s.actionCnt
            ⟨.outPort, storeShort (atoi text) s.actions[s.actionCnt].value⟩
          actionCnt := s.actionCnt + 1 }
    else .error .overrun
  else .error .out

def actionLoop : List CString → Locals → Except Stop Locals
  | [], s => .ok s
  | option :: rest, s =>
    match actionOption option s with
    | .error e => .error e
    | .ok s' => actionLoop rest s'

inductive Outcome (D : Type)
  | stops (e : Stop)
  | nothing
  | absentDev
  | calls (d : D) (c : FlwCall)

def Locals.flow (s : Locals) : Flow := ⟨s.tuples, s.actions, s.tupleCnt, s.actionCnt⟩

def deviceCall (flwDevs : Table D) (s : Locals) : Outcome D :=
  match s.flowCmd with
  | none => .nothing
  | some op =>
    match deref maxObjects flwDevs s.devId with
    | none => .absentDev
    | some d => .calls d ⟨op, s.devId, s.tblId, some s.flow⟩

def filterLoops (devCnt : Nat) (options : List CString) (s : Locals) : Except Stop Locals :=
  match matchLoop devCnt options s with
  | .error e => .error e
  | .ok (s', rest) => actionLoop rest s'

def fibCmdFilter (flwDevs : Table D) (tuples : Vector Tuple 25) (actions : Vector Action 25)
    (cmd : CString) : Outcome D :=
  match filterLoops flwDevs.cnt (tokens ' ' cmd) (initialLocals tuples actions) with
  | .error e => .stops e
  | .ok s => deviceCall flwDevs s

end LibSwitch.FlowFilter

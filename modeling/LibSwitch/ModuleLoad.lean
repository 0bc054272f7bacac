import LibSwitch.Common
import LibSwitch.CText

namespace LibSwitch.ModuleLoad

open LibSwitch.PointerTable LibSwitch.CText LibSwitch.Common

variable {H D : Type}

/-- The global tables of the main program. `devs` is the device table of the library whose
protocol is registered at a slot of `protocols[]`. -/
structure Registry (H D : Type) where
  switches : Table (Sw D)
  protocols : Table (Protocol H)
  commMods : Table Comm
  cliMods : Table Cli
  hndl : Table (Lib H D)
  devs : Nat → Table D

def initial : Registry H D := ⟨empty, empty, empty, empty, empty, fun _ => empty⟩

def registerSw (r : Registry H D) (s : Sw D) : Option (Registry H D) :=
  (push maxObjects r.switches s).map fun t => { r with switches := t }

def registerProto (r : Registry H D) (p : Protocol H) : Option (Registry H D) :=
  (push maxObjects r.protocols p).map fun t => { r with protocols := t }

def registerComm (r : Registry H D) (c : Comm) : Option (Registry H D) :=
  (push maxObjects r.commMods c).map fun t => { r with commMods := t }

def registerCli (r : Registry H D) (c : Cli) : Option (Registry H D) :=
  (push maxObjects r.cliMods c).map fun t => { r with cliMods := t }

def registerMod (r : Registry H D) : Module H D → Option (Registry H D)
  | .protocol p => registerProto r p
  | .sw s => registerSw r s
  | .comm c => registerComm r c
  | .cli c => registerCli r c
  | .unknown _ => some r

def soName (name : CString) : Bool := (strstr ".so".toList name).isSome

/-- A round of `read_libs`: the handle is stored first and counted only when it opened. -/
def readEnt (r : Registry H D) (ent : DirEnt H D) : Option (Registry H D) :=
  if soName ent.name then
    (store maxObjects r.hndl ent.dlopen).map fun t =>
      { r with hndl := if ent.dlopen.isSome then advance t else t }
  else some r

def readLibs (ents : List (DirEnt H D)) (r : Registry H D) : Option (Registry H D) :=
  ents.foldlM readEnt r

def initLib (r : Registry H D) (loop : Nat) : Option (Registry H D) :=
  match (r.hndl.slots loop).bind Lib.init with
  | some m => registerMod r m
  | none => some r

def loadLibs (r : Registry H D) : Option (Registry H D) :=
  (List.range r.hndl.cnt).foldlM initLib r

structure AppFuncs (H : Type) where
  appMsgQrySw : H
  appMsgQryProto : H

def appMain (f : AppFuncs H) : Protocol H where
  id := protocolApp
  type := 0
  msgCnt := 2
  message := [⟨protocolApp, 0, some f.appMsgQrySw⟩, ⟨protocolApp, 1, some f.appMsgQryProto⟩]
  message_length := rfl
  registerProto := .ignore

def appInit (f : AppFuncs H) (r : Registry H D) : Option (Registry H D) :=
  registerMod r (.protocol (appMain f))

def registerDev (r : Registry H D) (slot : Nat) (d : D) : RegisterDev → Option (Registry H D)
  | .ignore => some r
  | .append =>
    (push maxObjects (r.devs slot) d).map fun t =>
      { r with devs := Function.update r.devs slot t }

def linkSwitch (p : Protocol H) (slot : Nat) (r : Registry H D) (loop : Nat) :
    Option (Registry H D) :=
  match r.switches.slots loop with
  | none => none
  | some s =>
    match s.protoRegFunc p.type with
    | none => some r
    | some d => registerDev r slot d p.registerProto

def linkProto (r : Registry H D) (protoLoop : Nat) : Option (Registry H D) :=
  match r.protocols.slots protoLoop with
  | none => some r
  | some p => (List.range r.switches.cnt).foldlM (linkSwitch p protoLoop) r

def linkAll (r : Registry H D) : Option (Registry H D) :=
  (List.range r.protocols.cnt).foldlM linkProto r

/-- `main` up to the start of the communications modules. The result is absent when a table
overflows. -/
def load (f : AppFuncs H) (ents : List (DirEnt H D)) : Option (Registry H D) := do
  let r ← readLibs ents initial
  let r ← loadLibs r
  let r ← appInit f r
  linkAll r

end LibSwitch.ModuleLoad

import LibSwitch.Common
import LibSwitch.LineInput
import LibSwitch.Numeral
import LibSwitch.Reactive

namespace LibSwitch.CliShell

open LibSwitch.PointerTable LibSwitch.Common LibSwitch.CText LibSwitch.LineInput
open LibSwitch.Numeral

variable {H : Type}

def szLine : Nat := 4096

/-- Where the shell leaves defined behaviour: the byte before an empty string, the step behind
a null `sub_cmd`, an index outside `cli_protos[]`, an argument behind the end of the line. -/
inductive Fault
  | beforeBuf
  | nullSubCmd
  | protosIndex
  | behindLine
  deriving DecidableEq

inductive Event
  | command (buf : CString)
  | help (loops : List Nat)
  | quit
  | exit
  | cliCmd (protoId : Int) (arg : CString)
  | invalid
  | fault (f : Fault)
  deriving DecidableEq

inductive Shell
  | loop (buf : CString)
  | killed
  | dead

def cmdHelp (cliProtos : Table (Protocol H)) : List Nat :=
  (List.range maxObjects).filter fun loop => (cliProtos.slots loop).isSome

/-- The branch of a `sec` line, on the line and its first space. -/
def sec (cliProtos : Table (Protocol H)) (bufptr : CString) : Except Fault (List Event) :=
  match strstr [' '] bufptr with
  | none => .error .nullSubCmd
  | some subCmd =>
    let protoId := atoi (subCmd.drop 1)
    match read maxObjects cliProtos protoId with
    | none => .error .protosIndex
    | some none => .ok []
    | some (some _) =>
      if subCmd.length < 3 then .error .behindLine else .ok [.cliCmd protoId (subCmd.drop 3)]

/-- What a round does with the string in its buffer, once the newline is removed. -/
def interpret (cliProtos : Table (Protocol H)) (buf : CString) : List Event × Shell :=
  if strncmpEq buf "help".toList 4 then ([.help (cmdHelp cliProtos)], .loop buf)
  else if strncmpEq buf "quit".toList 4 then ([.quit], .killed)
  else if strncmpEq buf "exit".toList 4 then ([.exit], .killed)
  else if strncmpEq buf "sec".toList 3 then
    match sec cliProtos buf with
    | .error f => ([.fault f], .dead)
    | .ok es => (es, .loop buf)
  else ([.invalid], .loop buf)

/-- `buf[strlen(buf)-1]=0x0` cuts the last character, whatever it is. -/
def turn (cliProtos : Table (Protocol H)) (buf : CString) : List Event × Shell :=
  if buf = [] then ([.fault .beforeBuf], .dead)
  else
    let next := interpret cliProtos buf.dropLast
    (.command buf.dropLast :: next.1, next.2)

/-- One round of `run_cmd` on the result of its `fgets`: a failed read leaves the buffer as it
was. -/
def step (cliProtos : Table (Protocol H)) : Shell → Option CString → Option (List Event × Shell)
  | .loop _, some line => some (turn cliProtos line)
  | .loop buf, none => some (turn cliProtos buf)
  | .killed, _ => none
  | .dead, _ => none

abbrev Run (cliProtos : Table (Protocol H)) := Reactive.Run (step cliProtos)

def call? : Event → Option (Int × CString)
  | .cliCmd protoId arg => some (protoId, arg)
  | _ => none

def calls (es : List Event) : List (Int × CString) := es.filterMap call?

def command? : Event → Option CString
  | .command buf => some buf
  | _ => none

def commands (es : List Event) : List CString := es.filterMap command?

theorem commands_append (es fs : List Event) :
    commands (es ++ fs) = commands es ++ commands fs := List.filterMap_append

theorem turn_line (cliProtos : Table (Protocol H)) (l : CString) :
    turn cliProtos (l ++ ['\n']) =
      (.command l :: (interpret cliProtos l).1, (interpret cliProtos l).2) := by
  rw [turn, if_neg (by simp), List.dropLast_concat]

theorem interpret_sec (cliProtos : Table (Protocol H)) (s : CString) :
    interpret cliProtos ("sec".toList ++ s) =
      match sec cliProtos ("sec".toList ++ s) with
      | .error f => ([.fault f], .dead)
      | .ok es => (es, .loop ("sec".toList ++ s)) := rfl

end LibSwitch.CliShell

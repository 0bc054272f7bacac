import LibSwitch.CliShell
import LibSwitch.ProcessPool
import LibSwitch.SockComm

namespace LibSwitch.ProcessTree

open LibSwitch.PointerTable LibSwitch.ByteBuffer LibSwitch.CText LibSwitch.Common
open LibSwitch.SockComm LibSwitch.ProcessPool

variable {H C M : Type}

inductive Start
  | sockComm
  | cliComm
  deriving DecidableEq

/-- What a `ch_id` holds: the child of the fork, 0 in that child, -1 where the fork failed. -/
inductive ChId
  | child (pid : Nat)
  | zero
  | failed
  deriving DecidableEq

/-- Where a process is in the program. The start functions still to be called are those with
which `main` goes on once the current one has returned. -/
inductive Code
  | main (left : List Start)
  | binding (left : List Start)
  | accepting (left : List Start)
  | serving (msg : Msg) (left : List Start)
  | shell (buf : CString)
  | exiting (chIds : List ChId)
  | ended

/-- A process with its copy of the memory: the child ids that the modules hold, in the order of
their starts, the flag `exit_main`, and whatever the switch modules store. -/
structure Proc (M : Type) where
  code : Code
  chIds : List ChId
  exitMain : Bool
  mem : M
  parent : Nat

/-- The modules with a start function: any number of socket modules and at most one CLI, whose
line buffer is uninitialised. -/
structure Config where
  comms : Nat
  cli : Bool
  buf : CString

def Config.starts (cfg : Config) : List Start :=
  List.replicate cfg.comms .sockComm ++ if cfg.cli then [.cliComm] else []

inductive Sig
  | usr1
  | term
  | int
  | kill
  deriving DecidableEq

/-- `sigint_handler` sets `exit_main` on SIGUSR1 and gives the other two signals back their
default actions. Until then it catches SIGTERM, and the CLI has SIGINT ignored. The flag of a
process that has ended is never read again. -/
def Proc.handle (cfg : Config) (s : Sig) (p : Proc M) : Proc M :=
  match s with
  | .usr1 => { p with exitMain := true }
  | .term => if p.exitMain then { p with code := .ended } else p
  | .int => if p.exitMain || !cfg.cli then { p with code := .ended } else p
  | .kill => { p with code := .ended }

/-- Whom `kill` reaches when it is called by a process: one process, the whole group, or all
processes but the caller. -/
def reaches (self : Nat) : ChId → Nat → Bool
  | .child pid, i => i == pid
  | .zero, _ => true
  | .failed, i => i != self

/-- The returns of `accept` and of the `fork` behind it. -/
inductive Accepted
  | failed
  | unforked
  | forked
  deriving DecidableEq

/-- What a process does next, where the system or the input decides. A read of the shell comes
with what the command that it calls does, if it calls one: its device operations, and whether it
returns or dies. A `socket` that fails ends the start function as a `bind` that fails does, and
is told as one. -/
inductive Choice (C : Type)
  | fork (ok : Bool)
  | bind (ok : Bool)
  | accept (r : Accepted)
  | recv (rv : Recv)
  | line (input : Option CString) (cs : List C) (returns : Bool)
  | leave
  | kill

abbrev ProcEffect (H C M : Type) := Effect (Proc M) (List (Event H C))

def quiet (self : Proc M) : ProcEffect H C M := ⟨[], self, none, fun _ p => p⟩

def forks (self child : Proc M) : ProcEffect H C M := ⟨[], self, some child, fun _ p => p⟩

def sends (cfg : Config) (pid : Nat) (id : ChId) (s : Sig) (self : Proc M) : ProcEffect H C M :=
  ⟨[], self, none, fun i p => if reaches pid id i then p.handle cfg s else p⟩

def Start.childCode (cfg : Config) : Start → List Start → Code
  | .sockComm, left => .binding left
  | .cliComm, _ => .shell cfg.buf

def afterRound (left : List Start) : Session → Code
  | .live msg => .serving msg left
  | .closed => .accepting left
  | .dead => .ended

/-- What a process runs: the server of its sessions, the protocols its shell relays to, and what
a device operation does to the memory of the switch modules. -/
structure Services (H C M : Type) where
  srv : Server H C
  protos : Table (Protocol H)
  device : M → C → M

/-- `run_cmd` on one more read: only a line that is relayed to a protocol can call devices or
die in a command. -/
def shellTurn (cfg : Config) (sv : Services H C M) (pid : Nat) (p : Proc M) (buf : CString)
    (input : Option CString) (cs : List C) (returns : Bool) : Option (ProcEffect H C M) :=
  match CliShell.step sv.protos (.loop buf) input with
  | none => none
  | some (es, s) =>
    if cs.isEmpty && returns || !(CliShell.calls es).isEmpty then
      match s with
      | .loop buf' =>
        some ⟨cs.map .device, { p with
          code := if returns then .shell buf' else .ended, mem := cs.foldl sv.device p.mem },
          none, fun _ q => q⟩
      | .killed => some (sends cfg pid (.child p.parent) .usr1 { p with code := .ended })
      | .dead => some (quiet { p with code := .ended })
    else none

def turn (cfg : Config) (sv : Services H C M) (pid n : Nat) (p : Proc M) :
    Choice C → Option (ProcEffect H C M)
  | .fork ok =>
    match p.code with
    | .main (s :: left) =>
      if ok then
        some (forks { p with code := .main left, chIds := p.chIds ++ [.child n] }
          ⟨s.childCode cfg left, p.chIds ++ [.zero], p.exitMain, p.mem, pid⟩)
      else some (quiet { p with code := .main left, chIds := p.chIds ++ [.failed] })
    | _ => none
  | .bind ok =>
    match p.code with
    | .binding left => some (quiet { p with code := if ok then .accepting left else .main left })
    | _ => none
  | .accept r =>
    match p.code with
    | .accepting left =>
      match r with
      -- `return 0` of the child ends `sock_comm_start` and leads into the rest of `main`
      | .failed => some (quiet { p with code := .main left })
      | .unforked => some (quiet p)
      | .forked => some (forks p { p with code := .serving (zeros szBuf) left, parent := pid })
    | _ => none
  | .recv rv =>
    match p.code with
    | .serving msg left =>
      (SockComm.step sv.srv (.live msg) rv).map fun r =>
        ⟨r.1, { p with code := afterRound left r.2, mem := (devices r.1).foldl sv.device p.mem },
          none, fun _ q => q⟩
    | _ => none
  | .line input cs returns =>
    match p.code with
    | .shell buf => shellTurn cfg sv pid p buf input cs returns
    | _ => none
  | .leave =>
    match p.code with
    | .main [] => if p.exitMain then some (quiet { p with code := .exiting p.chIds }) else none
    | _ => none
  | .kill =>
    match p.code with
    | .exiting (id :: ids) => some (sends cfg pid id .kill { p with code := .exiting ids })
    | .exiting [] => some (quiet { p with code := .ended })
    | _ => none

def program (cfg : Config) (sv : Services H C M) :
    Program (Proc M) (List (Event H C)) (Choice C) Sig :=
  ⟨turn cfg sv, Proc.handle cfg, []⟩

abbrev Act (C : Type) := ProcessPool.Act (Choice C) Sig

def start (cfg : Config) (mem : M) : List (Proc M) := [⟨.main cfg.starts, [], false, mem, 0⟩]

abbrev Run (cfg : Config) (sv : Services H C M) := (program cfg sv).Run

variable {cfg : Config} {sv : Services H C M} {pid n : Nat} {p : Proc M}

inductive Turns (cfg : Config) (sv : Services H C M) (pid n : Nat) (p : Proc M) :
    Choice C → ProcEffect H C M → Prop
  | forked {s : Start} {left : List Start} (hc : p.code = .main (s :: left)) :
      Turns cfg sv pid n p (.fork true)
        (forks { p with code := .main left, chIds := p.chIds ++ [.child n] }
          ⟨s.childCode cfg left, p.chIds ++ [.zero], p.exitMain, p.mem, pid⟩)
  | unforked {s : Start} {left : List Start} (hc : p.code = .main (s :: left)) :
      Turns cfg sv pid n p (.fork false)
        (quiet { p with code := .main left, chIds := p.chIds ++ [.failed] })
  | bound {left : List Start} (hc : p.code = .binding left) :
      Turns cfg sv pid n p (.bind true) (quiet { p with code := .accepting left })
  | bindFails {left : List Start} (hc : p.code = .binding left) :
      Turns cfg sv pid n p (.bind false) (quiet { p with code := .main left })
  | acceptFails {left : List Start} (hc : p.code = .accepting left) :
      Turns cfg sv pid n p (.accept .failed) (quiet { p with code := .main left })
  | acceptUnforked {left : List Start} (hc : p.code = .accepting left) :
      Turns cfg sv pid n p (.accept .unforked) (quiet p)
  | accepted {left : List Start} (hc : p.code = .accepting left) :
      Turns cfg sv pid n p (.accept .forked)
        (forks p { p with code := .serving (zeros szBuf) left, parent := pid })
  | received {msg : Msg} {left : List Start} {rv : Recv} {es : List (Event H C)} {s : Session}
      (hc : p.code = .serving msg left) (hs : SockComm.step sv.srv (.live msg) rv = some (es, s)) :
      Turns cfg sv pid n p (.recv rv)
        ⟨es, { p with code := afterRound left s, mem := (devices es).foldl sv.device p.mem },
          none, fun _ q => q⟩
  | relayed {buf buf' : CString} {input : Option CString} {cs : List C} {returns : Bool}
      {es : List CliShell.Event} (hc : p.code = .shell buf)
      (hs : CliShell.step sv.protos (.loop buf) input = some (es, .loop buf'))
      (hcs : cs = [] ∧ returns = true ∨ CliShell.calls es ≠ []) :
      Turns cfg sv pid n p (.line input cs returns)
        ⟨cs.map .device, { p with
          code := if returns then .shell buf' else .ended, mem := cs.foldl sv.device p.mem },
          none, fun _ q => q⟩
  | quits {buf : CString} {input : Option CString} {cs : List C} {returns : Bool}
      {es : List CliShell.Event} (hc : p.code = .shell buf)
      (hs : CliShell.step sv.protos (.loop buf) input = some (es, .killed)) :
      Turns cfg sv pid n p (.line input cs returns)
        (sends cfg pid (.child p.parent) .usr1 { p with code := .ended })
  | crashes {buf : CString} {input : Option CString} {cs : List C} {returns : Bool}
      {es : List CliShell.Event} (hc : p.code = .shell buf)
      (hs : CliShell.step sv.protos (.loop buf) input = some (es, .dead)) :
      Turns cfg sv pid n p (.line input cs returns) (quiet { p with code := .ended })
  | leaves (hc : p.code = .main []) (hexit : p.exitMain = true) :
      Turns cfg sv pid n p .leave (quiet { p with code := .exiting p.chIds })
  | kills {id : ChId} {ids : List ChId} (hc : p.code = .exiting (id :: ids)) :
      Turns cfg sv pid n p .kill (sends cfg pid id .kill { p with code := .exiting ids })
  | exits (hc : p.code = .exiting []) :
      Turns cfg sv pid n p .kill (quiet { p with code := .ended })

theorem shellTurn_turns {buf : CString} {input : Option CString} {cs : List C} {returns : Bool}
    {e : ProcEffect H C M} (hc : p.code = .shell buf)
    (h : shellTurn cfg sv pid p buf input cs returns = some e) :
    Turns cfg sv pid n p (.line input cs returns) e := by
  rw [shellTurn] at h
  split at h
  · cases h
  · next es s hs =>
    split at h
    · next hcs =>
      rw [Bool.or_eq_true, Bool.and_eq_true, List.isEmpty_iff, Bool.not_eq_true',
        List.isEmpty_eq_false_iff] at hcs
      cases s with
      | loop buf' =>
        cases h
        exact .relayed hc hs hcs
      | killed =>
        cases h
        exact .quits hc hs
      | dead =>
        cases h
        exact .crashes hc hs
    · cases h

theorem turn_turns {c : Choice C} {e : ProcEffect H C M} (h : turn cfg sv pid n p c = some e) :
    Turns cfg sv pid n p c e := by
  cases c with
  | fork ok =>
    simp only [turn] at h
    split at h
    · next s left hc =>
      cases ok with
      | true =>
        cases h
        exact .forked hc
      | false =>
        cases h
        exact .unforked hc
    · cases h
  | bind ok =>
    simp only [turn] at h
    split at h
    · next left hc =>
      cases ok with
      | true =>
        cases h
        exact .bound hc
      | false =>
        cases h
        exact .bindFails hc
    · cases h
  | accept r =>
    simp only [turn] at h
    split at h
    · next left hc =>
      cases r with
      | failed =>
        cases h
        exact .acceptFails hc
      | unforked =>
        cases h
        exact .acceptUnforked hc
      | forked =>
        cases h
        exact .accepted hc
    · cases h
  | recv rv =>
    simp only [turn] at h
    split at h
    · next msg left hc =>
      obtain ⟨⟨es, s⟩, hs, rfl⟩ := Option.map_eq_some_iff.mp h
      exact .received hc hs
    · cases h
  | line input cs returns =>
    simp only [turn] at h
    split at h
    · next buf hc => exact shellTurn_turns hc h
    · cases h
  | leave =>
    simp only [turn] at h
    split at h
    · next hc =>
      split at h
      · next hexit =>
        cases h
        exact .leaves hc hexit
      · cases h
    · cases h
  | kill =>
    simp only [turn] at h
    split at h
    · next id ids hc =>
      cases h
      exact .kills hc
    · next hc =>
      cases h
      exact .exits hc
    · cases h

@[simp] theorem Proc.chIds_handle (s : Sig) (p : Proc M) : (p.handle cfg s).chIds = p.chIds := by
  cases s with
  | usr1 | kill => rfl
  | term | int =>
    simp only [Proc.handle]
    split <;> rfl

@[simp] theorem Proc.mem_handle (s : Sig) (p : Proc M) : (p.handle cfg s).mem = p.mem := by
  cases s with
  | usr1 | kill => rfl
  | term | int =>
    simp only [Proc.handle]
    split <;> rfl

theorem Proc.code_handle (cfg : Config) (s : Sig) (p : Proc M) :
    (p.handle cfg s).code = p.code ∨ (p.handle cfg s).code = .ended := by
  cases s with
  | usr1 => exact Or.inl rfl
  | kill => exact Or.inr rfl
  | term | int =>
    simp only [Proc.handle]
    split
    · exact Or.inr rfl
    · exact Or.inl rfl

/-- Every signal that a process sends reaches the others as `handle` or leaves them alone. -/
theorem Turns.signal_cases {c : Choice C} {e : ProcEffect H C M} (h : Turns cfg sv pid n p c e)
    (i : Nat) (q : Proc M) : e.signal i q = q ∨ ∃ s, e.signal i q = q.handle cfg s := by
  cases h with
  | quits | kills =>
    dsimp only [sends]
    split
    · exact Or.inr ⟨_, rfl⟩
    · exact Or.inl rfl
  | _ => exact Or.inl rfl

theorem program_turn {c : Choice C} {e : ProcEffect H C M}
    (h : (program cfg sv).turn pid n p c = some e) : Turns cfg sv pid n p c e := turn_turns h

theorem Turns.child_cases {c : Choice C} {e : ProcEffect H C M} {q : Proc M}
    (h : Turns cfg sv pid n p c e) (hq : e.child = some q) :
    (∃ s left, p.code = .main (s :: left) ∧
      q = ⟨s.childCode cfg left, p.chIds ++ [.zero], p.exitMain, p.mem, pid⟩) ∨
    ∃ left, p.code = .accepting left ∧
      q = { p with code := .serving (zeros szBuf) left, parent := pid } := by
  cases h with
  | @forked s left hc =>
    cases hq
    exact Or.inl ⟨s, left, hc, rfl⟩
  | @accepted left hc =>
    cases hq
    exact Or.inr ⟨left, hc, rfl⟩
  | _ => cases hq

theorem Turns.exitMain_self {c : Choice C} {e : ProcEffect H C M}
    (h : Turns cfg sv pid n p c e) : e.self.exitMain = p.exitMain := by
  cases h <;> rfl

theorem everywhere_start {Q : Nat → Nat → Proc M → Prop} {mem : M}
    (hq : Q 1 0 ⟨.main cfg.starts, [], false, mem, 0⟩) : Everywhere Q (start cfg mem) := by
  intro i p hp
  cases i with
  | zero =>
    cases hp
    exact hq
  | succ i => cases hp

/-- A property of single processes that signals keep is kept by a step of the tree when each
turn keeps it and gives it to the child. -/
theorem everywhere_step {Q : Nat → Nat → Proc M → Prop} {a : Act C} {o : List (Event H C)}
    {procs procs' : List (Proc M)}
    (hgrow : ∀ n m i p, n ≤ m → Q n i p → Q m i p)
    (hhandle : ∀ n i s p, Q n i p → Q n i (p.handle cfg s))
    (hturn : ∀ pid n p c e, a = .turn pid c → Turns cfg sv pid n p c e → pid < n → Q n pid p →
      Q (n + e.child.toList.length) pid e.self ∧ ∀ q, e.child = some q → Q (n + 1) n q)
    (h : (program cfg sv).step procs a = some (o, procs')) (hq : Everywhere Q procs) :
    Everywhere Q procs' := by
  have hsignal {pid n m i : Nat} {p q : Proc M} {c : Choice C} {e : ProcEffect H C M}
      (he : Turns cfg sv pid n p c e) (hq : Q m i q) : Q m i (e.signal i q) := by
    obtain heq | ⟨s, heq⟩ := he.signal_cases i q
    · rwa [heq]
    · rw [heq]
      exact hhandle m i s q hq
  refine Program.everywhere_step hgrow ?_ ?_ ?_ ?_ h hq
  · intro pid n p c e ha he hpid hp
    exact hsignal (program_turn he) (hturn pid n p c e ha (program_turn he) hpid hp).1
  · intro pid n p c e q ha he hpid hp hc
    exact hsignal (program_turn he) ((hturn pid n p c e ha (program_turn he) hpid hp).2 q hc)
  · intro pid n p c e i q _ he _ _ hq
    exact hsignal (program_turn he) hq
  · intro pid s n p _ hp
    exact hhandle n pid s p hp

end LibSwitch.ProcessTree

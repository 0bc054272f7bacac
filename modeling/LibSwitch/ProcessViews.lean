import LibSwitch.ForkedMemory
import LibSwitch.MainProcess

namespace LibSwitch.ProcessViews

open LibSwitch.PointerTable LibSwitch.ByteBuffer LibSwitch.CText LibSwitch.Common
open LibSwitch.Reactive LibSwitch.SockComm LibSwitch.ProcessPool LibSwitch.ProcessTree
open LibSwitch.MainProcess

variable {H C M : Type} {cfg : Config} {sv : Services H C M} {mem : M}
variable {procs procs' : List (Proc M)} {acts : List (ProcessTree.Act C)}
variable {os : List (List (Event H C))}
variable {pid n i : Nat} {p q : Proc M} {c : Choice C} {e : ProcEffect H C M}

section
variable {S J O' : Type} {place : Code → Option S} {own : Choice C → Option J} {s₀ : S}

/-- The process is outside the part, or where the part stands. -/
def At (place : Code → Option S) (p : Proc M) (s : S) : Prop := ∀ t, place p.code = some t → s = t

theorem at_signal {s : S} (hended : place .ended = none) (he : Turns cfg sv pid n p c e)
    (hq : At place q s) : At place (e.signal i q) s := by
  obtain heq | ⟨y, heq⟩ := he.signal_cases i q
  · rwa [heq]
  · rw [heq, At]
    obtain hcode | hcode := q.code_handle cfg y
    · rwa [hcode]
    · rw [hcode, hended]
      rintro t ⟨⟩

theorem at_handle {s : S} (hended : place .ended = none) (y : Sig) (hq : At place q s) :
    At place (q.handle cfg y) s := by
  rw [At]
  obtain hcode | hcode := q.code_handle cfg y
  · rwa [hcode]
  · rw [hcode, hended]
    rintro t ⟨⟩

theorem tree_component (part : S → J → Option (O' × S)) (tells : List (Event H C) → O' → Prop)
    (hended : place .ended = none)
    (hown : ∀ n p c e j, Turns cfg sv i n p c e → own c = some j → ∃ s, place p.code = some s ∧
      ∃ o s', part s j = some (o, s') ∧ tells e.out o ∧ At place e.self s')
    (hother : ∀ n p c e t, Turns cfg sv i n p c e → own c = none →
      place e.self.code = some t → place p.code = some t)
    (hchild : ∀ pid n p c e q, Turns cfg sv pid n p c e → e.child = some q → At place q s₀)
    (hstart : place (.main cfg.starts) = none)
    (h : ProcessTree.Run cfg sv (ProcessTree.start cfg mem) acts os procs) :
    ∃ os' s, Reactive.Run part s₀ (acts.filterMap (ownTurn i own)) os' s ∧
      List.Forall₂ tells (picked (ownTurn i own) acts os) os' ∧
      ∀ q, procs[i]? = some q → At place q s := by
  refine Program.component ?_ ?_ ?_ ?_ ?_ h ?_
  · intro n p c e j s he hj hp
    obtain ⟨s₁, hs₁, o, s', hpart, htells, hself⟩ := hown n p c e j (program_turn he) hj
    rw [hp s₁ hs₁]
    exact ⟨o, s', hpart, htells, hself⟩
  · exact fun n p c e s he hc hp t ht => hp t (hother n p c e t (program_turn he) hc ht)
  · exact fun pid n p c e q he hq => hchild pid n p c e q (program_turn he) hq
  · exact fun pid n p c e q s he hq => at_signal hended (program_turn he) hq
  · exact fun y q s hq => at_handle hended y hq
  · intro p hp t ht
    cases i with
    | zero =>
      cases hp
      cases hstart.symm.trans ht
    | succ i => cases hp

end

def recvOf : Choice C → Option Recv
  | .recv rv => some rv
  | _ => none

def sessionAt : Code → Option Session
  | .serving msg _ => some (.live msg)
  | _ => none

/-- In every run of the program, what a process does as a session is what one session does on the
receives of that process: no other client, no command of the shell and no shutdown moves it. -/
theorem session_refines (h : ProcessTree.Run cfg sv (ProcessTree.start cfg mem) acts os procs)
    (i : Nat) :
    ∃ s, SockComm.Run sv.srv SockComm.start (acts.filterMap (ownTurn i recvOf))
      (picked (ownTurn i recvOf) acts os) s ∧
      ∀ q, procs[i]? = some q → ∀ msg left, q.code = .serving msg left → s = .live msg := by
  have hown : ∀ n p c e rv, Turns cfg sv i n p c e → recvOf c = some rv →
      ∃ s, sessionAt p.code = some s ∧ ∃ o s', SockComm.step sv.srv s rv = some (o, s') ∧
        e.out = o ∧ At sessionAt e.self s' := by
    intro n p c e rv he hrv
    cases he with
    | @received msg left rv' es s hc hs =>
      cases hrv
      refine ⟨.live msg, by rw [hc]; rfl, es, s, hs, rfl, ?_⟩
      intro t ht
      cases s with
      | live msg' => exact Option.some.inj ht
      | closed | dead => cases ht
    | _ => cases hrv
  have hother : ∀ n p c e t, Turns cfg sv i n p c e → recvOf c = none →
      sessionAt e.self.code = some t → sessionAt p.code = some t := by
    intro n p c e t he hc ht
    cases he with
    | received => cases hc
    | acceptUnforked | accepted => exact ht
    | @relayed _ _ _ _ returns =>
      cases returns with
      | true | false => cases ht
    | _ => cases ht
  have hchild : ∀ pid n p c e q, Turns cfg sv pid n p c e → e.child = some q →
      At sessionAt q SockComm.start := by
    intro pid n p c e q he hq t ht
    obtain ⟨s, left, -, rfl⟩ | ⟨left, -, rfl⟩ := he.child_cases hq
    · cases s with
      | sockComm | cliComm => cases ht
    · exact Option.some.inj ht
  obtain ⟨turns, s, hrun, hall, hat⟩ :=
    tree_component (SockComm.step sv.srv) (· = ·) rfl hown hother hchild rfl h
  rw [List.forall₂_eq_eq_eq] at hall
  rw [hall]
  refine ⟨s, hrun, ?_⟩
  intro q hq msg left hc
  exact hat q hq (.live msg) (by rw [hc]; rfl)

/-- A turn of the shell calls devices only on a command that is relayed to a protocol. -/
def Relays (o : List (Event H C)) (es : List CliShell.Event) : Prop :=
  o ≠ [] → CliShell.calls es ≠ []

def readOf : Choice C → Option (Option CString)
  | .line input _ _ => some input
  | _ => none

def shellAt : Code → Option CliShell.Shell
  | .shell buf => some (.loop buf)
  | _ => none

/-- In every run of the program, what a process reads as a shell is interpreted as `run_cmd` does
it alone, and the process calls devices only on lines that `run_cmd` relays. -/
theorem shell_refines (h : ProcessTree.Run cfg sv (ProcessTree.start cfg mem) acts os procs)
    (i : Nat) :
    ∃ turns s, CliShell.Run sv.protos (.loop cfg.buf) (acts.filterMap (ownTurn i readOf)) turns s ∧
      List.Forall₂ Relays (picked (ownTurn i readOf) acts os) turns ∧
      ∀ q, procs[i]? = some q → ∀ buf, q.code = .shell buf → s = .loop buf := by
  have hown : ∀ n p c (e : ProcEffect H C M) input, Turns cfg sv i n p c e →
      readOf c = some input → ∃ s, shellAt p.code = some s ∧
        ∃ es s', CliShell.step sv.protos s input = some (es, s') ∧
          Relays e.out es ∧ At shellAt e.self s' := by
    intro n p c e input he hread
    cases he with
    | @relayed buf buf' input' cs returns es hc hs hcs =>
      cases hread
      refine ⟨.loop buf, by rw [hc]; rfl, es, .loop buf', hs, ?_, ?_⟩
      · intro hout
        obtain ⟨rfl, -⟩ | hcalls := hcs
        · exact absurd rfl hout
        · exact hcalls
      · intro t ht
        cases returns with
        | true => exact Option.some.inj ht
        | false => cases ht
    | @quits buf input' cs returns es hc hs =>
      cases hread
      exact ⟨.loop buf, by rw [hc]; rfl, es, .killed, hs, fun hout => absurd rfl hout,
        by rintro t ⟨⟩⟩
    | @crashes buf input' cs returns es hc hs =>
      cases hread
      exact ⟨.loop buf, by rw [hc]; rfl, es, .dead, hs, fun hout => absurd rfl hout,
        by rintro t ⟨⟩⟩
    | _ => cases hread
  have hother : ∀ n p c (e : ProcEffect H C M) t, Turns cfg sv i n p c e → readOf c = none →
      shellAt e.self.code = some t → shellAt p.code = some t := by
    intro n p c e t he hc ht
    cases he with
    | relayed | quits | crashes => cases hc
    | acceptUnforked | accepted => exact ht
    | @received _ _ _ _ s =>
      cases s with
      | live | closed | dead => cases ht
    | _ => cases ht
  have hchild : ∀ pid n p c (e : ProcEffect H C M) q, Turns cfg sv pid n p c e →
      e.child = some q → At shellAt q (.loop cfg.buf) := by
    intro pid n p c e q he hq t ht
    obtain ⟨s, left, -, rfl⟩ | ⟨left, -, rfl⟩ := he.child_cases hq
    · cases s with
      | sockComm => cases ht
      | cliComm => exact Option.some.inj ht
    · cases ht
  obtain ⟨turns, s, hrun, hall, hat⟩ :=
    tree_component (CliShell.step sv.protos) Relays rfl hown hother hchild rfl h
  refine ⟨turns, s, hrun, hall, ?_⟩
  intro q hq buf hc
  exact hat q hq (.loop buf) (by rw [hc]; rfl)

/-- In every run of the program each process shows one session on its own receives and one shell
on its own lines, and no other process, signal or shutdown has an influence on either. -/
theorem parts_alone (h : ProcessTree.Run cfg sv (ProcessTree.start cfg mem) acts os procs)
    (i : Nat) :
    (∃ s, SockComm.Run sv.srv SockComm.start (acts.filterMap (ownTurn i recvOf))
      (picked (ownTurn i recvOf) acts os) s ∧
      ∀ q, procs[i]? = some q → ∀ msg left, q.code = .serving msg left → s = .live msg) ∧
    ∃ turns s, CliShell.Run sv.protos (.loop cfg.buf) (acts.filterMap (ownTurn i readOf)) turns s ∧
      List.Forall₂ Relays (picked (ownTurn i readOf) acts os) turns ∧
      ∀ q, procs[i]? = some q → ∀ buf, q.code = .shell buf → s = .loop buf :=
  ⟨session_refines h i, shell_refines h i⟩

open LibSwitch.ForkedMemory in
theorem typedRule_alone :
    ∃ turns s, CliShell.Run recording.protos (.loop [])
      [some ['s', 'e', 'c', ' ', '0', ';', 'x', '\n']] turns s ∧
      List.Forall₂ Relays [[.device (H := Unit) 7]] turns ∧
      ∀ q, afterRule[2]? = some q → ∀ buf, q.code = .shell buf → s = .loop buf :=
  (parts_alone typedRule_run 2).2

end LibSwitch.ProcessViews

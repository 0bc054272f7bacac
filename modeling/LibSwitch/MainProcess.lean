import LibSwitch.ProcessTree

namespace LibSwitch.MainProcess

open LibSwitch.PointerTable LibSwitch.ByteBuffer LibSwitch.CText LibSwitch.Common
open LibSwitch.Reactive LibSwitch.SockComm LibSwitch.ProcessPool LibSwitch.ProcessTree

variable {H C M : Type} {cfg : Config} {sv : Services H C M} {mem : M}
variable {procs procs' : List (Proc M)} {acts : List (ProcessTree.Act C)}
variable {o : List (Event H C)} {os : List (List (Event H C))}

/-- The code of `main` itself: its start loops, its wait and its exit handler. -/
def InMain : Code → Prop
  | .main _ => True
  | .exiting _ => True
  | _ => False

theorem inMain_handle {s : Sig} {p : Proc M} (h : InMain (p.handle cfg s).code) :
    InMain p.code := by
  obtain heq | heq := p.code_handle cfg s
  · rwa [heq] at h
  · rw [heq] at h
    cases h

/-- The first process runs the code of `main` until it ends. -/
def FirstInMain (_ pid : Nat) (p : Proc M) : Prop := pid = 0 → InMain p.code ∨ p.code = .ended

def OnlyMain (_ pid : Nat) (p : Proc M) : Prop := InMain p.code → pid = 0

/-- The acts behind which a child returns from the start function it was forked in. -/
def Fails : ProcessTree.Act C → Prop
  | .turn _ (.bind ok) => ok = false
  | .turn _ (.accept r) => r = .failed
  | _ => False

theorem firstInMain_step {a : ProcessTree.Act C}
    (h : (program cfg sv).step procs a = some (o, procs')) (hq : Everywhere FirstInMain procs) :
    Everywhere FirstInMain procs' := by
  refine ProcessTree.everywhere_step ?_ ?_ ?_ h hq
  · exact fun _ _ _ _ _ hp => hp
  · intro _ i s p hp hi
    obtain heq | heq := p.code_handle cfg s
    · rw [heq]
      exact hp hi
    · exact Or.inr heq
  · intro pid n p c e _ he hpid hp
    refine ⟨?_, fun q _ hn => absurd hpid (by omega)⟩
    intro h0
    cases he with
    | forked | unforked | bindFails | acceptFails | leaves | kills => exact Or.inl trivial
    | quits | crashes | exits => exact Or.inr rfl
    | bound hc | acceptUnforked hc | accepted hc | received hc | relayed hc =>
      obtain hmain | hended := hp h0
      · rw [hc] at hmain
        cases hmain
      · rw [hc] at hended
        cases hended

theorem onlyMain_self {pid n : Nat} {p : Proc M} {c : Choice C} {e : ProcEffect H C M}
    (he : Turns cfg sv pid n p c e) (ha : ¬ Fails (.turn pid c)) (hp : InMain p.code → pid = 0)
    (hmain : InMain e.self.code) : pid = 0 := by
  cases he with
  | forked hc | unforked hc | leaves hc | kills hc =>
    apply hp
    rw [hc]
    trivial
  | bindFails | acceptFails => exact absurd rfl ha
  | acceptUnforked | accepted => exact hp hmain
  | bound | quits | crashes | exits => cases hmain
  | @received _ _ _ _ s =>
    cases s with
    | live | closed | dead => cases hmain
  | @relayed _ _ _ _ returns =>
    cases returns with
    | true | false => cases hmain

theorem onlyMain_step {a : ProcessTree.Act C}
    (h : (program cfg sv).step procs a = some (o, procs')) (ha : ¬ Fails a)
    (hq : Everywhere OnlyMain procs) : Everywhere OnlyMain procs' := by
  refine ProcessTree.everywhere_step ?_ ?_ ?_ h hq
  · exact fun _ _ _ _ _ hp => hp
  · exact fun _ _ _ _ hp hmain => hp (inMain_handle hmain)
  · intro pid n p c e hact he _ hp
    subst hact
    refine ⟨onlyMain_self he ha hp, ?_⟩
    intro q hchild hmain
    obtain ⟨s, left, -, rfl⟩ | ⟨left, -, rfl⟩ := he.child_cases hchild
    · cases s with
      | sockComm | cliComm => cases hmain
    · cases hmain

/-- A child whose `bind` or `accept` fails goes on in `main`. -/
theorem not_onlyMain {a : ProcessTree.Act C}
    (h : (program cfg sv).step procs a = some (o, procs')) (ha : Fails a)
    (hq : Everywhere FirstInMain procs) : ¬ Everywhere OnlyMain procs' := by
  intro hall
  cases a with
  | signal pid s => cases ha
  | turn pid c =>
    obtain ⟨p, e, hp, he, -, rfl⟩ := Program.step_turn h
    have hself := hall pid _ (e.get_self hp)
    have hpid (hcode : ¬ (InMain p.code ∨ p.code = .ended)) : pid ≠ 0 :=
      fun h0 => hcode (hq pid p hp h0)
    cases program_turn he with
    | bindFails hc =>
      refine hpid ?_ (hself trivial)
      rw [hc]
      simp [InMain]
    | acceptFails hc =>
      refine hpid ?_ (hself trivial)
      rw [hc]
      simp [InMain]
    | bound | acceptUnforked | accepted => cases ha
    | _ => exact ha

/-- In every state that a run reaches the first process alone is in the code of `main`, exactly
when no `bind` or `accept` of the run fails: the start functions return in the child as well. -/
theorem onlyMain_iff (h : ProcessTree.Run cfg sv (ProcessTree.start cfg mem) acts os procs) :
    (∀ acts' os' procs', acts' <+: acts →
      ProcessTree.Run cfg sv (ProcessTree.start cfg mem) acts' os' procs' →
      ∀ (pid : Nat) p, procs'[pid]? = some p → InMain p.code → pid = 0) ↔
    ∀ a ∈ acts, ¬ Fails a := by
  refine h.throughout_iff (fun _ _ _ _ => firstInMain_step) ?_ ?_ ?_ ?_
  · exact fun _ _ _ _ hs ha _ => onlyMain_step hs ha
  · exact fun _ _ _ _ hs ha hq => not_onlyMain hs (not_not.mp ha) hq
  · exact everywhere_start fun _ => Or.inl trivial
  · exact everywhere_start (Q := OnlyMain) fun _ => rfl

def noServices : Services Unit Unit Unit :=
  ⟨⟨empty, fun _ _ p => .ok ⟨p, 0, []⟩⟩, empty, fun m _ => m⟩

def typedQuit : List (ProcessTree.Act Unit) :=
  [.turn 0 (.fork true), .turn 0 (.fork true), .turn 1 (.bind true), .turn 1 (.accept .forked),
    .turn 2 (.line (some ['q', 'u', 'i', 't', '\n']) [] true), .turn 0 .leave]

def afterQuit : List (Proc Unit) :=
  [⟨.exiting [.child 1, .child 2], [.child 1, .child 2], true, (), 0⟩,
    ⟨.accepting [.cliComm], [.zero], false, (), 0⟩, ⟨.ended, [.child 1, .zero], false, (), 0⟩,
    ⟨.serving (zeros szBuf) [.cliComm], [.zero], false, (), 1⟩]

theorem typedQuit_run :
    ProcessTree.Run ⟨1, true, []⟩ noServices (ProcessTree.start ⟨1, true, []⟩ ()) typedQuit
      (List.replicate 6 []) afterQuit :=
  .cons rfl (.cons rfl (.cons rfl (.cons rfl (.cons rfl (.cons rfl (.nil _))))))

theorem typedQuit_onlyMain :
    (∀ a ∈ typedQuit, ¬ Fails a) ∧
    ∀ acts' os' procs', acts' <+: typedQuit →
      ProcessTree.Run ⟨1, true, []⟩ noServices (ProcessTree.start ⟨1, true, []⟩ ()) acts' os'
        procs' →
      ∀ (pid : Nat) p, procs'[pid]? = some p → InMain p.code → pid = 0 := by
  have hsucceeds : ∀ a ∈ typedQuit, ¬ Fails a := by
    intro a ha
    simp only [typedQuit, List.mem_cons, List.not_mem_nil, or_false] at ha
    obtain rfl | rfl | rfl | rfl | rfl | rfl := ha <;> simp [Fails]
  exact ⟨hsucceeds, (onlyMain_iff typedQuit_run).mpr hsucceeds⟩

def AsksExit (line : CString) : Prop :=
  line.take 4 = "quit".toList ∨ line.take 4 = "exit".toList

/-- A turn of a shell that signals the process of a number. -/
def Asks (i : Nat) (p : Proc M) : Choice C → Prop
  | .line input _ _ =>
    ∃ buf, p.code = .shell buf ∧ p.parent = i ∧ AsksExit (input.getD buf).dropLast
  | _ => False

def Requests (procs : List (Proc M)) : ProcessTree.Act C → Prop
  | .signal pid s => pid = 0 ∧ s = .usr1
  | .turn pid c => ∃ p, procs[pid]? = some p ∧ Asks 0 p c

theorem interpret_killed (protos : Table (Protocol H)) (l : CString) :
    (CliShell.interpret protos l).2 = .killed ↔ AsksExit l := by
  have eq_iff (w : CString) : strncmpEq l w 4 = true ↔ l.take 4 = w.take 4 := beq_iff_eq
  rw [CliShell.interpret, AsksExit]
  split
  · next hhelp =>
    rw [(eq_iff _).mp hhelp]
    simp
  · split
    · next hquit => exact iff_of_true rfl (Or.inl ((eq_iff _).mp hquit))
    · next hquit =>
      split
      · next hexit => exact iff_of_true rfl (Or.inr ((eq_iff _).mp hexit))
      · next hexit =>
        refine iff_of_false ?_ ?_
        · split
          · split <;> exact CliShell.Shell.noConfusion
          · exact CliShell.Shell.noConfusion
        · rintro (h | h)
          · exact hquit ((eq_iff _).mpr h)
          · exact hexit ((eq_iff _).mpr h)

theorem step_killed {protos : Table (Protocol H)} {buf : CString} {input : Option CString}
    {es : List CliShell.Event} {s : CliShell.Shell}
    (h : CliShell.step protos (.loop buf) input = some (es, s)) :
    s = .killed ↔ AsksExit (input.getD buf).dropLast := by
  have hturn : CliShell.turn protos (input.getD buf) = (es, s) := by
    cases input with
    | none | some line => exact Option.some.inj h
  rw [CliShell.turn] at hturn
  split at hturn
  · next hnil =>
    cases hturn
    rw [hnil]
    simp [AsksExit]
  · cases hturn
    exact interpret_killed protos _

@[simp] theorem exitMain_handle (s : Sig) (p : Proc M) :
    (p.handle cfg s).exitMain = true ↔ p.exitMain = true ∨ s = .usr1 := by
  cases s with
  | usr1 => simp [Proc.handle]
  | kill => simp [Proc.handle]
  | term | int =>
    simp only [Proc.handle]
    split <;> simp

theorem exitMain_signal {pid n i : Nat} {p q : Proc M} {c : Choice C} {e : ProcEffect H C M}
    (he : Turns cfg sv pid n p c e) :
    (e.signal i q).exitMain = true ↔ q.exitMain = true ∨ Asks i p c := by
  cases he with
  | @quits buf input cs returns es hc hs =>
    have hasks := (step_killed hs).mp rfl
    have hreach : reaches pid (.child p.parent) i = true ↔ p.parent = i := by
      rw [reaches, beq_iff_eq, eq_comm]
    have : Asks i p (.line input cs returns : Choice C) ↔ p.parent = i := by
      constructor
      · rintro ⟨buf', -, hi, -⟩
        exact hi
      · exact fun hi => ⟨buf, hc, hi, hasks⟩
    dsimp only [sends]
    rw [this, ← hreach]
    split <;> simp_all
  | @relayed buf buf' input cs returns es hc hs hcs =>
    have : ¬ Asks i p (.line input cs returns : Choice C) := by
      rintro ⟨buf₁, hc₁, -, hasks⟩
      cases hc.symm.trans hc₁
      cases (step_killed hs).mpr hasks
    exact (or_iff_left this).symm
  | @crashes buf input cs returns es hc hs =>
    have : ¬ Asks i p (.line input cs returns : Choice C) := by
      rintro ⟨buf₁, hc₁, -, hasks⟩
      cases hc.symm.trans hc₁
      cases (step_killed hs).mpr hasks
    exact (or_iff_left this).symm
  | kills hc =>
    dsimp only [sends]
    split <;> simp [Asks]
  | _ => exact (or_iff_left id).symm

/-- What a step makes of the flag of the first process. -/
theorem exitMain_step {a : ProcessTree.Act C} {p : Proc M}
    (h : (program cfg sv).step procs a = some (o, procs')) (hp : procs[0]? = some p) :
    ∃ p', procs'[0]? = some p' ∧
      (p'.exitMain = true ↔ p.exitMain = true ∨ Requests procs a) := by
  cases a with
  | signal pid s =>
    cases h
    rw [List.getElem?_modify, hp]
    refine ⟨_, rfl, ?_⟩
    split
    · next hpid => simp [Requests, hpid, program]
    · next hpid => simp [Requests, hpid]
  | turn pid c =>
    obtain ⟨q, e, hq, he, -, rfl⟩ := Program.step_turn h
    have hreq : Requests procs (.turn pid c) ↔ Asks 0 q c := by
      rw [Requests]
      simp [hq]
    rw [hreq]
    by_cases hpid : pid = 0
    · subst hpid
      obtain rfl := Option.some.inj (hp.symm.trans hq)
      refine ⟨_, e.get_self hp, ?_⟩
      rw [exitMain_signal (program_turn he), (program_turn he).exitMain_self]
    · exact ⟨_, e.get_other (Ne.symm hpid) hp, exitMain_signal (program_turn he)⟩

theorem exiting_step {a : ProcessTree.Act C}
    (h : (program cfg sv).step procs a = some (o, procs'))
    (hq : Everywhere (fun _ _ p => ∀ ids, p.code = .exiting ids → p.exitMain = true) procs) :
    Everywhere (fun _ _ p => ∀ ids, p.code = .exiting ids → p.exitMain = true) procs' := by
  refine ProcessTree.everywhere_step ?_ ?_ ?_ h hq
  · exact fun _ _ _ _ _ hp => hp
  · intro _ _ s p hp ids hids
    obtain heq | heq := p.code_handle cfg s
    · rw [heq] at hids
      exact (exitMain_handle s p).mpr (Or.inl (hp ids hids))
    · rw [heq] at hids
      cases hids
  · intro pid n p c e _ he _ hp
    refine ⟨?_, ?_⟩
    · intro ids hids
      rw [he.exitMain_self]
      cases he with
      | leaves _ hexit => exact hexit
      | kills hc => exact hp _ hc
      | acceptUnforked | accepted => exact hp ids hids
      | @received _ _ _ _ s =>
        cases s with
        | live | closed | dead => cases hids
      | @relayed _ _ _ _ returns =>
        cases returns with
        | true | false => cases hids
      | _ => cases hids
    · intro q hchild ids hids
      obtain ⟨s, left, -, rfl⟩ | ⟨left, -, rfl⟩ := he.child_cases hchild
      · cases s with
        | sockComm | cliComm => cases hids
      · cases hids

/-- The flag of `main` is set exactly when SIGUSR1 was sent to it from outside, or a shell that
it forked has interpreted a line that starts with `quit` or `exit`; without the flag it never
comes to its exit handler. -/
theorem exitMain_iff (h : ProcessTree.Run cfg sv (ProcessTree.start cfg mem) acts os procs)
    {p : Proc M} (hp : procs[0]? = some p) :
    (p.exitMain = true ↔
      During (program cfg sv).step (ProcessTree.start cfg mem) acts Requests) ∧
    ∀ ids, p.code = .exiting ids → p.exitMain = true := by
  constructor
  · suffices hall : ∃ p, procs[0]? = some p ∧ (p.exitMain = true ↔
        During (program cfg sv).step (ProcessTree.start cfg mem) acts Requests) by
      obtain ⟨p', hp', hiff⟩ := hall
      rwa [Option.some.inj (hp.symm.trans hp')]
    refine h.history (J := fun is _ u => ∃ p, u[0]? = some p ∧ (p.exitMain = true ↔
      During (program cfg sv).step (ProcessTree.start cfg mem) is Requests))
      ⟨_, rfl, iff_of_false Bool.false_ne_true (not_during_nil _)⟩ ?_
    intro is os u i o v hrun ⟨p, hp, hiff⟩ hs
    obtain ⟨p', hp', hiff'⟩ := exitMain_step hs hp
    exact ⟨p', hp', by rw [hiff', hiff, hrun.during_concat]⟩
  · refine h.invariant (Everywhere fun _ _ p => ∀ ids, p.code = .exiting ids → p.exitMain = true)
      (fun _ => True) (fun _ _ _ _ hs _ hq => exiting_step hs hq) (fun _ _ => trivial) ?_ 0 p hp
    exact everywhere_start fun ids hids => by cases hids

theorem typedQuit_requests :
    During (program ⟨1, true, []⟩ noServices).step (ProcessTree.start ⟨1, true, []⟩ ()) typedQuit
      Requests :=
  (exitMain_iff typedQuit_run rfl).1.mp rfl

end LibSwitch.MainProcess

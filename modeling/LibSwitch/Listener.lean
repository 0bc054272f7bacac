import LibSwitch.SockComm

namespace LibSwitch.Listener

open LibSwitch.PointerTable LibSwitch.ByteBuffer LibSwitch.Common LibSwitch.SockComm

variable {H C : Type}

/-- A process of the socket server. The flag of one in the accept loop tells whether it has
served a session. -/
inductive Process
  | accepting (served : Bool)
  | serving (msg : Msg)
  | ended

/-- Behind the receive loop a session closes its connection and goes on in the accept loop. -/
def afterRound : Session → Process
  | .live msg => .serving msg
  | .closed => .accepting true
  | .dead => .ended

/-- A client is accepted by a process, or the `recv` of a session returns. -/
inductive Act
  | accept (pid : Nat)
  | recv (pid : Nat) (rv : Recv)

/-- The processes are listed in the order in which they were forked. -/
def step (srv : Server H C) (procs : List Process) :
    Act → Option (List (Event H C) × List Process)
  | .accept pid =>
    match procs[pid]? with
    | some (.accepting _) => some ([], procs ++ [.serving (zeros szBuf)])
    | _ => none
  | .recv pid rv =>
    match procs[pid]? with
    | some (.serving msg) =>
      (SockComm.step srv (.live msg) rv).map fun r => (r.1, procs.set pid (afterRound r.2))
    | _ => none

/-- The process forked by `sock_comm_start`, which `halt` kills. -/
def listener : Nat := 0

def start : List Process := [.accepting false]

abbrev Run (srv : Server H C) := Reactive.Run (step srv)

/-- No process is back in the accept loop after a session, and the listener alone accepts. -/
structure OnlyListener (procs : List Process) : Prop where
  notServed : ∀ pid : Nat, procs[pid]? ≠ some (Process.accepting true)
  accepts : ∀ pid : Nat, (∃ served, procs[pid]? = some (Process.accepting served)) ↔ pid = listener

variable {srv : Server H C} {procs procs' : List Process} {pid : Nat} {rv : Recv}
variable {es : List (Event H C)}

theorem step_accept (h : step srv procs (.accept pid) = some (es, procs')) :
    procs' = procs ++ [.serving (zeros szBuf)] := by
  simp only [step] at h
  split at h
  · cases h
    rfl
  · cases h

theorem step_recv (h : step srv procs (.recv pid rv) = some (es, procs')) :
    ∃ msg s, procs[pid]? = some (.serving msg) ∧
      SockComm.step srv (.live msg) rv = some (es, s) ∧ procs' = procs.set pid (afterRound s) := by
  simp only [step] at h
  split at h
  · next msg hmsg =>
    obtain ⟨⟨es', s⟩, hs, heq⟩ := Option.map_eq_some_iff.mp h
    cases heq
    exact ⟨msg, s, hmsg, hs, rfl⟩
  · cases h

theorem onlyListener_start : OnlyListener start := by
  constructor
  · intro pid h
    cases pid with
    | zero => cases h
    | succ pid => cases h
  · intro pid
    cases pid with
    | zero => exact iff_of_true ⟨false, rfl⟩ rfl
    | succ pid => exact iff_of_false (by rintro ⟨served, h⟩; cases h) (Nat.succ_ne_zero pid)

theorem OnlyListener.set (hp : OnlyListener procs) {msg : Msg} {q : Process}
    (hpid : procs[pid]? = some (.serving msg)) (hq : ∀ served, q ≠ .accepting served) :
    OnlyListener (procs.set pid q) := by
  have hlt : pid < procs.length := (List.getElem?_eq_some_iff.mp hpid).1
  have hself : (procs.set pid q)[pid]? = some q := List.getElem?_set_self hlt
  constructor
  · intro i h
    by_cases hi : pid = i
    · rw [← hi, hself] at h
      exact hq true (Option.some.inj h)
    · rw [List.getElem?_set_ne hi] at h
      exact hp.notServed i h
  · intro i
    by_cases hi : pid = i
    · rw [← hi, hself, ← hp.accepts pid, hpid]
      refine iff_of_false ?_ (by simp)
      rintro ⟨served, h⟩
      exact hq served (Option.some.inj h)
    · rw [List.getElem?_set_ne hi]
      exact hp.accepts i

theorem OnlyListener.fork (hp : OnlyListener procs) (msg : Msg) :
    OnlyListener (procs ++ [.serving msg]) := by
  have hget (i : Nat) (served : Bool) :
      (procs ++ [.serving msg])[i]? = some (.accepting served) ↔
        procs[i]? = some (.accepting served) := by
    obtain hi | rfl | hi := Nat.lt_trichotomy i procs.length
    · rw [List.getElem?_append_left hi]
    · simp
    · rw [List.getElem?_eq_none (by rw [List.length_append, List.length_singleton]; omega),
        List.getElem?_eq_none (by omega)]
  constructor
  · intro i h
    exact hp.notServed i ((hget i true).mp h)
  · intro i
    simp only [hget]
    exact hp.accepts i

def Act.Fails : Act → Prop
  | .recv _ .error => True
  | _ => False

theorem onlyListener_step {a : Act} (h : step srv procs a = some (es, procs')) (ha : ¬ a.Fails)
    (hp : OnlyListener procs) : OnlyListener procs' := by
  cases a with
  | accept pid =>
    rw [step_accept h]
    exact hp.fork _
  | recv pid rv =>
    obtain ⟨msg, s, hmsg, hs, rfl⟩ := step_recv h
    apply hp.set hmsg
    cases rv with
    | error => exact absurd trivial ha
    | data c =>
      simp only [SockComm.step, Option.some.injEq, Prod.mk.injEq] at hs
      rw [← hs.2]
      cases (serveChunk srv msg c).2 <;> simp [next, afterRound]

/-- A session whose `recv` fails is in the accept loop next. -/
theorem step_fails {a : Act} (h : step srv procs a = some (es, procs')) (ha : a.Fails) :
    ¬ OnlyListener procs' := by
  cases a with
  | accept pid => cases ha
  | recv pid rv =>
    cases rv with
    | data c => cases ha
    | error =>
      obtain ⟨msg, s, hmsg, hs, rfl⟩ := step_recv h
      cases hs
      intro hp
      exact hp.notServed pid (List.getElem?_set_self (List.getElem?_eq_some_iff.mp hmsg).1)

/-- The listener alone accepts, in every state a run reaches, exactly when no `recv` of a
session fails in the run: nothing ends the process behind the receive loop. -/
theorem onlyListener_iff {acts : List Act} {turns : List (List (Event H C))}
    (h : Run srv start acts turns procs) :
    (∀ acts' turns' procs', acts' <+: acts → Run srv start acts' turns' procs' →
      OnlyListener procs') ↔ ∀ a ∈ acts, ¬ a.Fails := by
  constructor
  · intro hall a ha hfails
    obtain ⟨pre, post, rfl⟩ := List.append_of_mem ha
    rw [List.append_cons] at h hall
    obtain ⟨turns₁, u, _, -, hrun, -⟩ := h.split
    have hbad := hall _ _ _ (List.prefix_append _ post) hrun
    obtain ⟨_, v, _, -, -, hlast⟩ := hrun.split
    cases hlast with
    | cons hs hnil =>
      cases hnil
      exact step_fails hs hfails hbad
  · intro hacts acts' turns' procs' hpre hrun
    exact hrun.invariant OnlyListener (fun a => ¬ a.Fails)
      (fun _ _ _ _ hs ha hp => onlyListener_step hs ha hp)
      (fun a ha => hacts a (hpre.subset ha)) onlyListener_start

def noServer : Server Unit Unit := ⟨empty, fun _ _ p => .ok ⟨p, 0, []⟩⟩

def twoClients : List Act :=
  [.accept 0, .accept 0, .recv 2 (.data ⟨[], Nat.zero_le szBuf⟩)]

theorem twoClients_onlyListener : ∃ turns procs, Run noServer start twoClients turns procs ∧
    ∀ acts' turns' procs', acts' <+: twoClients → Run noServer start acts' turns' procs' →
      OnlyListener procs' := by
  have hrun : Run noServer start twoClients _ _ :=
    .cons rfl (.cons rfl (.cons rfl (.nil _)))
  refine ⟨_, _, hrun, (onlyListener_iff hrun).mpr ?_⟩
  intro a ha
  simp only [twoClients, List.mem_cons, List.not_mem_nil, or_false] at ha
  obtain rfl | rfl | rfl := ha <;> exact id

/-- After one client whose connection is reset, two processes accept. -/
theorem reset_accepts : ¬ ∀ acts turns procs, Run noServer start acts turns procs →
    OnlyListener procs := by
  intro hall
  have hrun : Run noServer start [.accept 0, .recv 1 .error] _ _ :=
    .cons rfl (.cons rfl (.nil _))
  exact (hall _ _ _ hrun).notServed 1 rfl

end LibSwitch.Listener

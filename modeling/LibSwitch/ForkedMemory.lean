import LibSwitch.ProcessTree

namespace LibSwitch.ForkedMemory

open LibSwitch.PointerTable LibSwitch.ByteBuffer LibSwitch.CText LibSwitch.Common
open LibSwitch.Reactive LibSwitch.SockComm LibSwitch.ProcessPool LibSwitch.ProcessTree

variable {H C M : Type} {cfg : Config} {sv : Services H C M} {mem : M}
variable {procs procs' : List (Proc M)} {acts : List (ProcessTree.Act C)}
variable {o : List (Event H C)} {os : List (List (Event H C))}
variable {pid n i : Nat} {p q : Proc M} {c : Choice C} {e : ProcEffect H C M}

def turnOf (i : Nat) : ProcessTree.Act C → Option (Choice C)
  | .turn pid c => if pid = i then some c else none
  | .signal _ _ => none

/-- The device operations that a process has called itself. -/
def ownCalls (i : Nat) (acts : List (ProcessTree.Act C)) (os : List (List (Event H C))) : List C :=
  devices (picked (turnOf i) acts os).flatten

/-- The places in which no device operation has been called, as long as no session returns from
its receive loop. -/
def Idle : Code → Prop
  | .serving _ _ => False
  | .shell _ => False
  | .ended => False
  | _ => True

def Resets : ProcessTree.Act C → Prop
  | .turn _ (.recv .error) => True
  | _ => False

theorem ownCalls_concat (h : acts.length = os.length) (a : ProcessTree.Act C)
    (o : List (Event H C)) :
    ownCalls i (acts ++ [a]) (os ++ [o]) =
      ownCalls i acts os ++ if (turnOf i a).isSome then devices o else [] := by
  rw [ownCalls, picked_append _ h, List.flatten_append, devices_append, ← ownCalls]
  apply congrArg
  rw [picked]
  split
  · exact congrArg devices (List.append_nil o)
  · rfl

theorem mem_self (he : Turns cfg sv pid n p c e) :
    e.self.mem = (devices e.out).foldl sv.device p.mem := by
  cases he with
  | relayed => exact congrArg (List.foldl sv.device p.mem) (devices_calls _).symm
  | _ => rfl

/-- A turn that leads to an idle place starts in one and calls no device. -/
theorem idle_self (he : Turns cfg sv pid n p c e) (hc : ¬ Resets (.turn pid c))
    (hidle : Idle e.self.code) : Idle p.code ∧ devices e.out = [] := by
  cases he with
  | forked h | unforked h | bound h | bindFails h | acceptFails h | acceptUnforked h | accepted h
  | leaves h | kills h | exits h =>
    rw [h]
    exact ⟨trivial, rfl⟩
  | @received msg _ rv _ s h hs =>
    cases s with
    | closed =>
      cases rv with
      | error => exact absurd trivial hc
      | data chunk =>
        cases hn : (serveChunk sv.srv msg chunk).2 <;>
          simp [SockComm.step, hn, SockComm.next] at hs
    | live | dead => cases hidle
  | @relayed _ _ _ _ returns =>
    cases returns with
    | true | false => cases hidle
  | quits | crashes => cases hidle

theorem child_idle (he : Turns cfg sv pid n p c e) (hq : e.child = some q) :
    Idle p.code ∧ q.mem = p.mem := by
  obtain ⟨s, left, hc, rfl⟩ | ⟨left, hc, rfl⟩ := he.child_cases hq
  · rw [hc]
    exact ⟨trivial, rfl⟩
  · rw [hc]
    exact ⟨trivial, rfl⟩

theorem signal_mem (he : Turns cfg sv pid n p c e) : (e.signal i q).mem = q.mem := by
  obtain heq | ⟨s, heq⟩ := he.signal_cases i q
  · rw [heq]
  · rw [heq, q.mem_handle]

theorem idle_handle {s : Sig} (h : Idle (q.handle cfg s).code) : Idle q.code := by
  obtain heq | heq := q.code_handle cfg s
  · rwa [heq] at h
  · rw [heq] at h
    cases h

theorem idle_signal (he : Turns cfg sv pid n p c e) (h : Idle (e.signal i q).code) :
    Idle q.code := by
  obtain heq | ⟨s, heq⟩ := he.signal_cases i q
  · rwa [heq] at h
  · rw [heq] at h
    exact idle_handle h

/-- What the processes hold after the acts so far: each its own calls, applied to the memory of
`main`, and no calls yet those that are not forked. -/
structure Own (sv : Services H C M) (mem : M) (acts : List (ProcessTree.Act C))
    (os : List (List (Event H C))) (procs : List (Proc M)) : Prop where
  mem : ∀ (i : Nat) q, procs[i]? = some q → q.mem = (ownCalls i acts os).foldl sv.device mem
  idle : ∀ (i : Nat) q, procs[i]? = some q → Idle q.code → ownCalls i acts os = []
  unborn : ∀ i, procs.length ≤ i → ownCalls i acts os = []

theorem own_signal {s : Sig} (h : Own sv mem acts os procs) (hlen : acts.length = os.length) :
    Own sv mem (acts ++ [.signal pid s]) (os ++ [[]]) (procs.modify pid (Proc.handle cfg s)) := by
  have hcalls (i : Nat) :
      ownCalls i (acts ++ [.signal pid s]) (os ++ [[]]) = ownCalls i acts os := by
    rw [ownCalls_concat hlen]
    exact List.append_nil _
  have hget (i : Nat) (q' : Proc M) (hq' : (procs.modify pid (Proc.handle cfg s))[i]? = some q') :
      ∃ q, procs[i]? = some q ∧ q'.mem = q.mem ∧ (Idle q'.code → Idle q.code) := by
    rw [List.getElem?_modify, Option.map_eq_map, Option.map_eq_some_iff] at hq'
    obtain ⟨q, hq, rfl⟩ := hq'
    refine ⟨q, hq, ?_⟩
    split
    · exact ⟨q.mem_handle s, idle_handle⟩
    · exact ⟨rfl, id⟩
  constructor
  · intro i q' hq'
    obtain ⟨q, hq, hmem, -⟩ := hget i q' hq'
    rw [hmem, hcalls, h.mem i q hq]
  · intro i q' hq' hidle
    obtain ⟨q, hq, -, hidle'⟩ := hget i q' hq'
    rw [hcalls]
    exact h.idle i q hq (hidle' hidle)
  · intro i hi
    rw [List.length_modify] at hi
    rw [hcalls]
    exact h.unborn i hi

theorem own_turn (h : Own sv mem acts os procs) (hlen : acts.length = os.length)
    (hp : procs[pid]? = some p) (he : Turns cfg sv pid procs.length p c e)
    (hc : ¬ Resets (.turn pid c)) :
    Own sv mem (acts ++ [.turn pid c]) (os ++ [e.out]) (e.apply pid procs) := by
  have hpid : pid < procs.length := (List.getElem?_eq_some_iff.mp hp).1
  have hself : ownCalls pid (acts ++ [.turn pid c]) (os ++ [e.out]) =
      ownCalls pid acts os ++ devices e.out := by
    rw [ownCalls_concat hlen, turnOf, if_pos rfl]
    rfl
  have hother (i : Nat) (hi : i ≠ pid) :
      ownCalls i (acts ++ [.turn pid c]) (os ++ [e.out]) = ownCalls i acts os := by
    rw [ownCalls_concat hlen, turnOf, if_neg (Ne.symm hi)]
    exact List.append_nil _
  have hchild {q : Proc M} (hq : e.child = some q) : q.mem = mem := by
    obtain ⟨hidle, hmem⟩ := child_idle he hq
    rw [hmem, h.mem pid p hp, h.idle pid p hp hidle]
    rfl
  constructor
  · intro i q hq
    obtain ⟨q, rfl, ⟨rfl, rfl⟩ | ⟨hne, hq⟩ | ⟨rfl, hforked⟩⟩ := e.get_apply hp hq
    · rw [signal_mem he, mem_self he, hself, List.foldl_append, ← h.mem i p hp]
    · rw [signal_mem he, hother i hne, h.mem i q hq]
    · rw [signal_mem he, hother _ (Nat.ne_of_gt hpid), h.unborn _ (Nat.le_refl _), hchild hforked]
      rfl
  · intro i q hq hidle
    obtain ⟨q, rfl, ⟨rfl, rfl⟩ | ⟨hne, hq⟩ | ⟨rfl, -⟩⟩ := e.get_apply hp hq
    · obtain ⟨hp', hout⟩ := idle_self he hc (idle_signal he hidle)
      rw [hself, hout, h.idle i p hp hp']
      rfl
    · rw [hother i hne, h.idle i q hq (idle_signal he hidle)]
    · rw [hother _ (Nat.ne_of_gt hpid), h.unborn _ (Nat.le_refl _)]
  · intro i hi
    rw [e.length_apply] at hi
    rw [hother i (by omega), h.unborn i (by omega)]

theorem own_run (h : ProcessTree.Run cfg sv (ProcessTree.start cfg mem) acts os procs)
    (hacts : ∀ a ∈ acts, ¬ Resets a) : Own sv mem acts os procs := by
  refine h.history (J := fun is os u => (∀ a ∈ is, ¬ Resets a) → Own sv mem is os u) ?_ ?_ hacts
  · intro _
    refine ⟨?_, fun _ _ _ _ => rfl, fun _ _ => rfl⟩
    exact everywhere_start (Q := fun _ _ q => q.mem = mem) rfl
  · intro is os u a o v hrun ih hs hacts
    have ha := hacts a (List.mem_append_right _ (List.mem_singleton_self a))
    have hown := ih fun a ha => hacts a (List.mem_append_left _ ha)
    cases a with
    | signal pid s =>
      cases hs
      exact own_signal hown hrun.length_eq
    | turn pid c =>
      obtain ⟨p, e, hp, he, rfl, rfl⟩ := Program.step_turn hs
      exact own_turn hown hrun.length_eq hp (program_turn he) ha

/-- The processes share no memory: the device operations called in one process change its own
copy of the switch modules and no other, and `main` keeps the state in which it has loaded them. -/
theorem forked_memory (h : ProcessTree.Run cfg sv (ProcessTree.start cfg mem) acts os procs)
    (hacts : ∀ a ∈ acts, ¬ Resets a) (hq : procs[i]? = some q) :
    q.mem = (ownCalls i acts os).foldl sv.device mem ∧ (Idle q.code → q.mem = mem) := by
  have hown := own_run h hacts
  refine ⟨hown.mem i q hq, ?_⟩
  intro hidle
  rw [hown.mem i q hq, hown.idle i q hq hidle]
  rfl

def recording : Services Unit Nat (List Nat) :=
  ⟨⟨empty, fun _ _ p => .ok ⟨p, 0, []⟩⟩, ⟨fun _ => some ⟨0, 0, 0, [], rfl, .append⟩, 1⟩,
    fun m c => m ++ [c]⟩

def typedRule : List (ProcessTree.Act Nat) :=
  [.turn 0 (.fork true), .turn 0 (.fork true), .turn 1 (.bind true),
    .turn 2 (.line (some ['s', 'e', 'c', ' ', '0', ';', 'x', '\n']) [7] true),
    .turn 1 (.accept .forked)]

def afterRule : List (Proc (List Nat)) :=
  [⟨.main [], [.child 1, .child 2], false, [], 0⟩, ⟨.accepting [.cliComm], [.zero], false, [], 0⟩,
    ⟨.shell ['s', 'e', 'c', ' ', '0', ';', 'x'], [.child 1, .zero], false, [7], 0⟩,
    ⟨.serving (zeros szBuf) [.cliComm], [.zero], false, [], 1⟩]

theorem typedRule_run : ProcessTree.Run ⟨1, true, []⟩ recording
    (ProcessTree.start ⟨1, true, []⟩ []) typedRule [[], [], [], [.device 7], []] afterRule :=
  .cons rfl (.cons rfl (.cons rfl (.cons rfl (.cons rfl (.nil _)))))

theorem typedRule_memory : ∃ q, afterRule[2]? = some q ∧ q.mem = [7] ∧
    q.mem = (ownCalls (H := Unit) 2 typedRule [[], [], [], [.device 7], []]).foldl
      recording.device [] ∧ (Idle q.code → q.mem = []) := by
  refine ⟨_, rfl, rfl, forked_memory (i := 2) typedRule_run ?_ rfl⟩
  intro a ha
  simp only [typedRule, List.mem_cons, List.not_mem_nil, or_false] at ha
  obtain rfl | rfl | rfl | rfl | rfl := ha <;> exact id

end LibSwitch.ForkedMemory

import LibSwitch.MainProcess

namespace LibSwitch.Shutdown

open LibSwitch.PointerTable LibSwitch.ByteBuffer LibSwitch.CText LibSwitch.Common
open LibSwitch.Reactive LibSwitch.SockComm LibSwitch.ProcessPool LibSwitch.ProcessTree
open LibSwitch.MainProcess

variable {H C M : Type} {cfg : Config} {sv : Services H C M} {mem : M}
variable {procs procs' : List (Proc M)} {acts : List (ProcessTree.Act C)}
variable {o : List (Event H C)} {os : List (List (Event H C))}
variable {pid n i : Nat} {p q : Proc M} {ids : List ChId} {c : Choice C} {e : ProcEffect H C M}

/-- The child ids of a process: other processes all, and 0 among them in a child of `main`. -/
structure OwnIds (n pid : Nat) (ids : List ChId) : Prop where
  child : ∀ c, .child c ∈ ids → c < n ∧ c ≠ pid
  zero : pid ≠ 0 → .zero ∈ ids

theorem OwnIds.grow {m : Nat} (h : OwnIds n pid ids) (hle : n ≤ m) : OwnIds m pid ids :=
  ⟨fun c hc => ⟨Nat.lt_of_lt_of_le (h.child c hc).1 hle, (h.child c hc).2⟩, h.zero⟩

/-- A child of `main` gets the ids of its elder siblings and its own 0. -/
theorem OwnIds.child_zero (h : OwnIds n pid ids) : OwnIds (n + 1) n (ids ++ [.zero]) := by
  constructor
  · intro c hc
    rw [List.mem_append, List.mem_singleton] at hc
    obtain hc | hc := hc
    · exact ⟨Nat.lt_succ_of_lt (h.child c hc).1, Nat.ne_of_lt (h.child c hc).1⟩
    · cases hc
  · intro _
    exact List.mem_append_right _ (List.mem_singleton_self _)

theorem OwnIds.concat {id : ChId} (h : OwnIds n pid ids)
    (hid : ∀ c, id = .child c → c < n ∧ c ≠ pid) : OwnIds n pid (ids ++ [id]) := by
  constructor
  · intro c hc
    rw [List.mem_append, List.mem_singleton] at hc
    obtain hc | hc := hc
    · exact h.child c hc
    · exact hid c hc.symm
  · exact fun hpid => List.mem_append_left _ (h.zero hpid)

theorem OwnIds.tail {id : ChId} (h : OwnIds n pid (id :: ids)) (hid : id ≠ .zero) :
    OwnIds n pid ids := by
  constructor
  · exact fun c hc => h.child c (List.mem_cons_of_mem id hc)
  · intro hpid
    obtain heq | hmem := List.mem_cons.mp (h.zero hpid)
    · exact absurd heq.symm hid
    · exact hmem

/-- The ids that a process holds, those that its exit handler has still to kill, and its place. -/
structure Holds (n pid : Nat) (p : Proc M) : Prop where
  own : OwnIds n pid p.chIds
  left : ∀ ids, p.code = .exiting ids → OwnIds n pid ids
  first : pid = 0 → InMain p.code ∨ p.code = .ended

theorem Holds.handle (h : Holds n pid p) (s : Sig) : Holds n pid (p.handle cfg s) := by
  refine ⟨?_, ?_, ?_⟩
  · rw [p.chIds_handle]
    exact h.own
  · intro ids hids
    obtain heq | heq := p.code_handle cfg s
    · exact h.left ids (heq.symm.trans hids)
    · cases heq.symm.trans hids
  · intro hpid
    obtain heq | heq := p.code_handle cfg s
    · rw [heq]
      exact h.first hpid
    · exact Or.inr heq

theorem Holds.not_first (h : Holds n pid p) (hmain : ¬ InMain p.code) (hended : p.code ≠ .ended) :
    pid ≠ 0 := by
  intro hpid
  obtain hc | hc := h.first hpid
  · exact hmain hc
  · exact hended hc

theorem Holds.moves (h : Holds n pid p) (hids : q.chIds = p.chIds)
    (hcode : ∀ ids, q.code ≠ .exiting ids) (hfirst : pid = 0 → InMain q.code ∨ q.code = .ended) :
    Holds n pid q :=
  ⟨by rw [hids]; exact h.own, fun ids h => absurd h (hcode ids), hfirst⟩

theorem holds_self (he : Turns cfg sv pid n p c e) (hpid : pid < n) (h : Holds n pid p) :
    Holds (n + e.child.toList.length) pid (e.signal pid e.self) := by
  cases he with
  | forked hc =>
    refine ⟨?_, by simp [forks], fun _ => Or.inl trivial⟩
    refine (h.own.grow (Nat.le_succ n)).concat ?_
    rintro c ⟨⟩
    exact ⟨Nat.lt_succ_self n, Nat.ne_of_gt hpid⟩
  | unforked hc =>
    refine ⟨h.own.concat ?_, by simp [quiet], fun _ => Or.inl trivial⟩
    rintro c ⟨⟩
  | bound hc =>
    have hne := h.not_first (by rw [hc]; exact id) (by rw [hc]; simp)
    exact h.moves rfl (by simp [quiet]) fun h0 => absurd h0 hne
  | bindFails | acceptFails => exact h.moves rfl (by simp [quiet]) fun _ => Or.inl trivial
  | acceptUnforked => exact h
  | accepted => exact ⟨h.own.grow (Nat.le_succ n), fun ids hids => (h.left ids hids).grow
      (Nat.le_succ n), h.first⟩
  | @received _ _ _ _ s hc =>
    have hne := h.not_first (by rw [hc]; exact id) (by rw [hc]; simp)
    refine h.moves rfl ?_ fun h0 => absurd h0 hne
    cases s <;> simp [ProcessTree.afterRound]
  | @relayed _ _ _ _ returns _ hc =>
    have hne := h.not_first (by rw [hc]; exact id) (by rw [hc]; simp)
    refine h.moves rfl ?_ fun h0 => absurd h0 hne
    cases returns <;> simp
  | quits =>
    have hended : Holds n pid { p with code := .ended } :=
      h.moves rfl (by simp) fun _ => Or.inr rfl
    dsimp only [sends]
    split
    · exact hended.handle _
    · exact hended
  | crashes | exits => exact h.moves rfl (by simp [quiet]) fun _ => Or.inr rfl
  | leaves => exact ⟨h.own, by rintro ids ⟨⟩; exact h.own, fun _ => Or.inl trivial⟩
  | @kills id ids hc =>
    dsimp only [sends]
    by_cases hid : id = .zero
    · subst hid
      exact h.moves rfl (by simp [reaches, Proc.handle]) fun _ => Or.inr rfl
    · have hleft : Holds n pid { p with code := .exiting ids } := by
        refine ⟨h.own, ?_, fun _ => Or.inl trivial⟩
        rintro _ ⟨⟩
        exact (h.left _ hc).tail hid
      split
      · exact hleft.handle _
      · exact hleft

theorem holds_child (he : Turns cfg sv pid n p c e) (h : Holds n pid p) (hpid : pid < n)
    (hq : e.child = some q) : Holds (n + 1) n q := by
  have hn : n ≠ 0 := Nat.ne_of_gt (Nat.zero_lt_of_lt hpid)
  obtain ⟨s, left, -, rfl⟩ | ⟨left, hc, rfl⟩ := he.child_cases hq
  · refine ⟨h.own.child_zero, ?_, fun h0 => absurd h0 hn⟩
    cases s <;> simp [Start.childCode]
  · have hne := h.not_first (by rw [hc]; exact id) (by rw [hc]; simp)
    refine ⟨⟨?_, fun _ => h.own.zero hne⟩, by simp, fun h0 => absurd h0 hn⟩
    exact fun c hc => ⟨Nat.lt_succ_of_lt (h.own.child c hc).1, Nat.ne_of_lt (h.own.child c hc).1⟩

theorem holds_step {a : ProcessTree.Act C}
    (h : (program cfg sv).step procs a = some (o, procs')) (hq : Everywhere Holds procs) :
    Everywhere Holds procs' := by
  have hgrow (n m i : Nat) (p : Proc M) (hle : n ≤ m) (hp : Holds n i p) : Holds m i p :=
    ⟨hp.own.grow hle, fun ids hids => (hp.left ids hids).grow hle, hp.first⟩
  refine Program.everywhere_step hgrow ?_ ?_ ?_ ?_ h hq
  · exact fun _ _ _ _ _ _ he hpid hp => holds_self (program_turn he) hpid hp
  · intro pid n p c e q _ he hpid hp hc
    obtain heq | ⟨s, heq⟩ := (program_turn he).signal_cases n q
    · rw [heq]
      exact holds_child (program_turn he) hp hpid hc
    · rw [heq]
      exact (holds_child (program_turn he) hp hpid hc).handle s
  · intro pid n p c e i q _ he _ _ hq
    obtain heq | ⟨s, heq⟩ := (program_turn he).signal_cases i q
    · rwa [heq]
    · rw [heq]
      exact hq.handle s
  · exact fun _ s _ _ _ hp => hp.handle s

theorem holds_run (h : ProcessTree.Run cfg sv (ProcessTree.start cfg mem) acts os procs) :
    Everywhere Holds procs := by
  refine h.invariant (Everywhere Holds) (fun _ => True) (fun _ _ _ _ hs _ hq => holds_step hs hq)
    (fun _ _ => trivial) (everywhere_start ⟨⟨?_, ?_⟩, by rintro ids ⟨⟩, fun _ => Or.inl trivial⟩)
  · intro c hc
    cases hc
  · exact fun h => absurd rfl h

theorem kill_step (cfg : Config) (sv : Services H C M) {id : ChId} (hp : procs[pid]? = some p)
    (hc : p.code = .exiting (id :: ids)) :
    (program cfg sv).step procs (.turn pid .kill) =
      some ([], (sends cfg pid id .kill { p with code := .exiting ids } : ProcEffect H C M).apply
        pid procs) := by
  simp only [program, Program.step, hp, turn, hc]
  rfl

/-- The exit handler of a process that holds 0 ends every process. -/
theorem kills_all (hp : procs[pid]? = some p) (hc : p.code = .exiting ids)
    (hids : OwnIds procs.length pid ids) (hpid : pid ≠ 0) :
    ∃ k os procs', k ≤ ids.length ∧
      ProcessTree.Run cfg sv procs (List.replicate k (.turn pid .kill)) os procs' ∧
      ∀ (i : Nat) q, procs'[i]? = some q → q.code = .ended := by
  induction ids generalizing procs p with
  | nil => cases hids.zero hpid
  | cons id ids ih =>
    have hstep := kill_step cfg sv hp hc
    by_cases hzero : id = .zero
    · subst hzero
      refine ⟨1, _, _, Nat.le_add_left 1 _, .cons hstep (.nil _), ?_⟩
      intro i q hq
      obtain ⟨q, rfl, -⟩ := Effect.get_apply _ hp hq
      rfl
    · have hself : ∀ s : Proc M, (if reaches pid id pid then s.handle cfg .kill else s) = s := by
        intro s
        cases id with
        | child c =>
          have hne := (hids.child c (List.mem_cons_self)).2
          exact if_neg (by simpa [reaches] using Ne.symm hne)
        | zero => exact absurd rfl hzero
        | failed => exact if_neg (by simp [reaches])
      have hget := Effect.get_self
        (sends cfg pid id .kill { p with code := .exiting ids } : ProcEffect H C M) hp
      rw [sends] at hget
      dsimp only at hget
      rw [hself] at hget
      have hlen : ((sends cfg pid id .kill { p with code := .exiting ids } :
          ProcEffect H C M).apply pid procs).length = procs.length := Effect.length_apply _
      obtain ⟨k, os, procs', hk, hrun, hall⟩ := ih hget rfl (by
        rw [← sends, hlen]
        exact hids.tail hzero)
      exact ⟨k + 1, _, _, Nat.succ_le_succ hk, .cons hstep hrun, hall⟩

/-- A second process in the exit handler of `main` kills the whole tree, itself included: behind
a start function that returned in the child its `ch_id` is 0. -/
theorem second_main_kills (h : ProcessTree.Run cfg sv (ProcessTree.start cfg mem) acts os procs)
    (hp : procs[pid]? = some p) (hc : p.code = .exiting ids) (hpid : pid ≠ 0) :
    ∃ k os' procs', k ≤ ids.length ∧
      ProcessTree.Run cfg sv procs (List.replicate k (.turn pid .kill)) os' procs' ∧
      ∀ (i : Nat) q, procs'[i]? = some q → q.code = .ended :=
  kills_all hp hc ((holds_run h pid p hp).left ids hc) hpid

/-- The port is taken: the forked server goes on in `main`, until SIGUSR1 comes to it. -/
def portTaken : List (ProcessTree.Act Unit) :=
  [.turn 0 (.fork true), .turn 1 (.bind false), .turn 0 (.fork true), .turn 1 (.fork true),
    .signal 1 .usr1, .turn 1 .leave]

def twoMains : List (Proc Unit) :=
  [⟨.main [], [.child 1, .child 2], false, (), 0⟩,
    ⟨.exiting [.zero, .child 3], [.zero, .child 3], true, (), 0⟩,
    ⟨.shell [], [.child 1, .zero], false, (), 0⟩, ⟨.shell [], [.zero, .zero], false, (), 1⟩]

theorem portTaken_run :
    ProcessTree.Run ⟨1, true, []⟩ noServices (ProcessTree.start ⟨1, true, []⟩ ()) portTaken
      (List.replicate 6 []) twoMains :=
  .cons rfl (.cons rfl (.cons rfl (.cons rfl (.cons rfl (.cons rfl (.nil _))))))

theorem portTaken_kills : ∃ k os procs, k ≤ [ChId.zero, .child 3].length ∧
    ProcessTree.Run ⟨1, true, []⟩ noServices twoMains (List.replicate k (.turn 1 .kill)) os procs ∧
    ∀ (i : Nat) q, procs[i]? = some q → q.code = .ended :=
  second_main_kills portTaken_run rfl rfl Nat.one_ne_zero

end LibSwitch.Shutdown

import LibSwitch.OrderlyShutdown

namespace LibSwitch.ShutdownProgress

open LibSwitch.PointerTable LibSwitch.ByteBuffer LibSwitch.CText LibSwitch.Common
open LibSwitch.Reactive LibSwitch.SockComm LibSwitch.ProcessPool LibSwitch.ProcessTree
open LibSwitch.MainProcess LibSwitch.OrderlyShutdown

variable {H C M : Type} {cfg : Config} {sv : Services H C M} {mem : M}
variable {procs procs' : List (Proc M)} {acts acts' : List (ProcessTree.Act C)}
variable {o : List (Event H C)} {os os' : List (List (Event H C))}
variable {pid n : Nat} {p q : Proc M} {c : Choice C} {e : ProcEffect H C M}

/-- The turns that `main` has still to take: a fork for each start function, the step out of its
wait, a kill for each id, among them those of the children still to be forked, and its own end. -/
def remaining (p : Proc M) : Nat :=
  match p.code with
  | .main left => 2 * left.length + p.chIds.length + 2
  | .exiting ids => ids.length + 1
  | _ => 0

def isFirst : ProcessTree.Act C → Bool
  | .turn pid _ => pid == 0
  | .signal _ _ => false

/-- The first process is in `main` and is asked to exit, or has done so. -/
def Asked (procs : List (Proc M)) : Prop :=
  ∃ p, procs[0]? = some p ∧ Tied procs p ∧ p.exitMain = true

def firstRemaining (procs : List (Proc M)) : Nat := (procs[0]?.map remaining).getD 0

theorem firstRemaining_eq (hp : procs[0]? = some p) : firstRemaining procs = remaining p := by
  rw [firstRemaining, hp]
  rfl

theorem remaining_congr {p' : Proc M} (hcode : p'.code = p.code) (hids : p'.chIds = p.chIds) :
    remaining p' = remaining p := by
  rw [remaining, remaining, hcode, hids]

theorem remaining_self (ht : Tied procs p) (he : Turns cfg sv 0 n p c e) (hc : Succeeds c) :
    1 + remaining e.self = remaining p := by
  cases he with
  | forked h =>
    simp only [remaining, h, forks, List.length_cons, List.length_append, List.length_nil]
    omega
  | leaves h =>
    simp only [remaining, h, quiet, List.length_nil]
    omega
  | kills h =>
    simp only [remaining, h, sends, List.length_cons]
    omega
  | exits h => simp only [remaining, h, quiet, List.length_nil]
  | unforked => cases hc
  | bindFails => cases hc
  | acceptFails => exact absurd rfl hc
  | bound h | acceptUnforked h | accepted h | received h | relayed h | quits h | crashes h =>
    obtain hcode | hcode := ht.place h <;> cases hcode

theorem asked_step {a : ProcessTree.Act C} (h : (program cfg sv).step procs a = some (o, procs'))
    (ha : Orderly a) (hasked : Asked procs) :
    Asked procs' ∧ (if isFirst a then 1 else 0) + firstRemaining procs' = firstRemaining procs := by
  obtain ⟨p, hp, ht, hexit⟩ := hasked
  obtain ⟨p', hp', ht'⟩ := tied_step h ha hp ht
  suffices hgo : p'.exitMain = true ∧ (if isFirst a then 1 else 0) + remaining p' = remaining p by
    rw [firstRemaining_eq hp, firstRemaining_eq hp']
    exact ⟨⟨p', hp', ht', hgo.1⟩, hgo.2⟩
  cases a with
  | signal pid s =>
    cases h
    rw [List.getElem?_modify, hp] at hp'
    obtain rfl := Option.some.inj hp'
    rw [isFirst, if_neg Bool.false_ne_true, Nat.zero_add]
    split
    · next hpid =>
      rw [ha hpid]
      exact ⟨rfl, remaining_congr rfl rfl⟩
    · exact ⟨hexit, rfl⟩
  | turn pid c =>
    obtain ⟨q, e, hq, he, -, rfl⟩ := Program.step_turn h
    by_cases hpid : pid = 0
    · subst hpid
      cases hp.symm.trans hq
      have hself := Effect.get_self e hp
      rw [ht.signal_self (program_turn he), hp'] at hself
      obtain rfl := Option.some.inj hself
      rw [isFirst, if_pos (beq_self_eq_true 0), (program_turn he).exitMain_self]
      exact ⟨hexit, remaining_self ht (program_turn he) ha⟩
    · have hother := Effect.get_other e (Ne.symm hpid) hp
      rw [hp'] at hother
      obtain rfl := Option.some.inj hother
      rw [isFirst, if_neg (by simpa using hpid), Nat.zero_add]
      obtain heq | heq := (outside (program_turn he) ha (ht.notMain pid q hpid hq)).signal 0 p
      · rw [heq]
        exact ⟨hexit, rfl⟩
      · rw [heq]
        exact ⟨rfl, remaining_congr rfl rfl⟩

/-- A turn of `main` is always possible: none of them waits for another process. -/
theorem first_enabled (hp : procs[0]? = some p) (hexit : p.exitMain = true)
    (hpos : remaining p ≠ 0) :
    ∃ c, Succeeds c ∧ ((program cfg sv).step procs (.turn 0 c)).isSome := by
  cases hc : p.code with
  | main left =>
    cases left with
    | nil => exact ⟨.leave, trivial, by simp [program, Program.step, hp, turn, hc, hexit]⟩
    | cons s left => exact ⟨.fork true, rfl, by simp [program, Program.step, hp, turn, hc]⟩
  | exiting ids =>
    cases ids with
    | nil => exact ⟨.kill, trivial, by simp [program, Program.step, hp, turn, hc]⟩
    | cons id ids => exact ⟨.kill, trivial, by simp [program, Program.step, hp, turn, hc]⟩
  | _ =>
    rw [remaining, hc] at hpos
    exact absurd rfl hpos

theorem remaining_zero (ht : Tied procs p) (h : remaining p = 0) : p.code = .ended := by
  obtain hmain | hended := ht.first
  · rw [remaining] at h
    cases hc : p.code with
    | main left =>
      rw [hc] at h
      exact absurd h (Nat.succ_ne_zero _)
    | exiting ids =>
      rw [hc] at h
      exact absurd h (Nat.succ_ne_zero _)
    | _ => simp [InMain, hc] at hmain
  · exact hended

/-- Once `main` is asked to exit, it ends in every run that goes on long enough: it has a fixed
number of turns left, it can always take the next one, and behind the last one there are only
sessions. -/
theorem exit_ends (h : ProcessTree.Run cfg sv (ProcessTree.start cfg mem) acts os procs)
    (hacts : ∀ a ∈ acts, Orderly a) (hp : procs[0]? = some p) (hexit : p.exitMain = true)
    (h' : ProcessTree.Run cfg sv procs acts' os' procs') (hacts' : ∀ a ∈ acts', Orderly a) :
    ∃ p', procs'[0]? = some p' ∧ acts'.countP isFirst + remaining p' = remaining p ∧
      (remaining p' ≠ 0 →
        ∃ c, Succeeds c ∧ ((program cfg sv).step procs' (.turn 0 c)).isSome) ∧
      (remaining p' = 0 → ∀ (i : Nat) q, procs'[i]? = some q →
        q.code = .ended ∨ ∃ msg left, q.code = .serving msg left) := by
  obtain ⟨_, hp₀, ht⟩ := tied_run h hacts
  cases hp.symm.trans hp₀
  obtain ⟨⟨p', hp', ht', hexit'⟩, hcount⟩ := h'.rank Asked Orderly isFirst firstRemaining
    (fun _ _ _ _ hs ha hasked => asked_step hs ha hasked) hacts' ⟨p, hp, ht, hexit⟩
  rw [firstRemaining_eq hp, firstRemaining_eq hp'] at hcount
  refine ⟨p', hp', hcount, first_enabled hp' hexit', ?_⟩
  intro hzero i q hq
  exact ht'.ended hp' (remaining_zero ht' hzero) hq

theorem typedQuit_ends : ∃ p', afterKills[0]? = some p' ∧
    (List.replicate 3 (.turn 0 .kill)).countP (isFirst (C := Unit)) + remaining p' = 3 ∧
      (remaining p' ≠ 0 → ∃ c, Succeeds c ∧
        ((program ⟨1, true, []⟩ noServices).step afterKills (.turn 0 c)).isSome) ∧
      (remaining p' = 0 → ∀ (i : Nat) q, afterKills[i]? = some q →
        q.code = .ended ∨ ∃ msg left, q.code = .serving msg left) := by
  refine exit_ends typedQuit_run orderly_typedQuit rfl rfl kills_run ?_
  intro a ha
  rw [List.eq_of_mem_replicate ha]
  exact trivial

end LibSwitch.ShutdownProgress

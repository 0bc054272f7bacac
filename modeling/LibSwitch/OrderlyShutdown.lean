import LibSwitch.Shutdown

namespace LibSwitch.OrderlyShutdown

open LibSwitch.PointerTable LibSwitch.ByteBuffer LibSwitch.CText LibSwitch.Common
open LibSwitch.Reactive LibSwitch.SockComm LibSwitch.ProcessPool LibSwitch.ProcessTree
open LibSwitch.MainProcess

variable {H C M : Type} {cfg : Config} {sv : Services H C M} {mem : M}
variable {procs procs' : List (Proc M)} {acts : List (ProcessTree.Act C)}
variable {o : List (Event H C)} {os : List (List (Event H C))}
variable {pid n i : Nat} {p q : Proc M} {c : Choice C} {e : ProcEffect H C M}

def Succeeds : Choice C → Prop
  | .fork ok => ok = true
  | .bind ok => ok = true
  | .accept r => r ≠ .failed
  | .recv .error => False
  | _ => True

/-- No system call fails, and from outside `main` gets no signal but SIGUSR1. -/
def Orderly : ProcessTree.Act C → Prop
  | .turn _ c => Succeeds c
  | .signal pid s => pid = 0 → s = .usr1

def Managed : Code → Prop
  | .binding _ => True
  | .accepting _ => True
  | .shell _ => True
  | _ => False

def Serving : Code → Prop
  | .serving _ _ => True
  | _ => False

/-- The ids that the first process has still to kill, once it halts. -/
def held (p : Proc M) : List ChId :=
  match p.code with
  | .exiting ids => ids
  | .ended => []
  | _ => p.chIds

/-- What a successful turn of a process outside `main` leads to: it moves on to no other kind of
place, forks sessions only and sends SIGUSR1 only. -/
structure Outside (cfg : Config) (p : Proc M) (e : ProcEffect H C M) : Prop where
  notMain : ¬ InMain e.self.code
  managed : Managed e.self.code → Managed p.code
  serving : Serving e.self.code → Serving p.code
  child : ∀ q, e.child = some q → Serving q.code
  signal : ∀ i q, e.signal i q = q ∨ e.signal i q = q.handle cfg .usr1

theorem outside (he : Turns cfg sv pid n p c e) (hc : Succeeds c) (hp : ¬ InMain p.code) :
    Outside cfg p e := by
  have keeps (i : Nat) (q : Proc M) : q = q ∨ q = q.handle cfg .usr1 := Or.inl rfl
  cases he with
  | forked h | unforked h | leaves h | kills h | exits h =>
    rw [h] at hp
    exact absurd trivial hp
  | bindFails => cases hc
  | acceptFails => exact absurd rfl hc
  | bound h => exact ⟨id, fun _ => by rw [h]; trivial, by rintro ⟨⟩, by rintro _ ⟨⟩, keeps⟩
  | acceptUnforked => exact ⟨hp, id, id, by rintro _ ⟨⟩, keeps⟩
  | accepted => exact ⟨hp, id, id, by rintro _ ⟨⟩; trivial, keeps⟩
  | @received msg _ rv _ s h hs =>
    cases s with
    | live => exact ⟨id, by rintro ⟨⟩, fun _ => by rw [h]; trivial, by rintro _ ⟨⟩, keeps⟩
    | closed =>
      cases rv with
      | error => cases hc
      | data chunk =>
        cases hn : (serveChunk sv.srv msg chunk).2 <;>
          simp [SockComm.step, hn, SockComm.next] at hs
    | dead => exact ⟨id, by rintro ⟨⟩, by rintro ⟨⟩, by rintro _ ⟨⟩, keeps⟩
  | @relayed _ _ _ _ returns _ h =>
    cases returns with
    | true => exact ⟨id, fun _ => by rw [h]; trivial, by rintro ⟨⟩, by rintro _ ⟨⟩, keeps⟩
    | false => exact ⟨id, by rintro ⟨⟩, by rintro ⟨⟩, by rintro _ ⟨⟩, keeps⟩
  | quits =>
    refine ⟨id, by rintro ⟨⟩, by rintro ⟨⟩, by rintro _ ⟨⟩, ?_⟩
    intro i q
    dsimp only [sends]
    split
    · exact Or.inr rfl
    · exact Or.inl rfl
  | crashes => exact ⟨id, by rintro ⟨⟩, by rintro ⟨⟩, by rintro _ ⟨⟩, keeps⟩

/-- The first process knows every socket server and the shell by their ids, and no session. -/
structure Tied (procs : List (Proc M)) (p : Proc M) : Prop where
  first : InMain p.code ∨ p.code = .ended
  ids : ∀ id ∈ p.chIds, ∃ c, id = .child c ∧ c ≠ 0 ∧ c < procs.length
  left : ∀ id ∈ held p, id ∈ p.chIds
  notServing : ∀ (c : Nat) q, .child c ∈ p.chIds → procs[c]? = some q → ¬ Serving q.code
  notMain : ∀ (i : Nat) q, i ≠ 0 → procs[i]? = some q → ¬ InMain q.code
  managed : ∀ (i : Nat) q, i ≠ 0 → procs[i]? = some q → Managed q.code → .child i ∈ held p

theorem Tied.place (ht : Tied procs p) {code : Code} (hcode : p.code = code) :
    InMain code ∨ code = .ended := by
  rw [← hcode]
  exact ht.first

theorem held_congr {p' : Proc M} (hcode : p'.code = p.code) (hids : p'.chIds = p.chIds) :
    held p' = held p := by
  rw [held, held, hcode, hids]

theorem not_managed_serving {code : Code} (h : Serving code) : ¬ Managed code := by
  cases code with
  | serving => exact id
  | _ => cases h

/-- While the first process stays where it is, the others may move on, end and fork sessions. -/
theorem Tied.follow {p' : Proc M} (ht : Tied procs p) (hcode : p'.code = p.code)
    (hids : p'.chIds = p.chIds) (hlen : procs.length ≤ procs'.length)
    (hothers : ∀ (i : Nat) q', i ≠ 0 → procs'[i]? = some q' → ¬ InMain q'.code ∧
      ((∃ q, procs[i]? = some q ∧ (Managed q'.code → Managed q.code) ∧
        (Serving q'.code → Serving q.code)) ∨ procs.length ≤ i ∧ Serving q'.code)) :
    Tied procs' p' := by
  refine ⟨?_, ?_, ?_, ?_, fun i q hi hq => (hothers i q hi hq).1, ?_⟩
  · rw [hcode]
    exact ht.first
  · rw [hids]
    intro id hid
    obtain ⟨c, rfl, hc, hlt⟩ := ht.ids id hid
    exact ⟨c, rfl, hc, Nat.lt_of_lt_of_le hlt hlen⟩
  · rw [held_congr hcode hids, hids]
    exact ht.left
  · rw [hids]
    intro c q' hc hq' hserv
    obtain ⟨_, ⟨⟩, hc0, hlt⟩ := ht.ids _ hc
    obtain ⟨-, ⟨q, hq, -, hq''⟩ | ⟨hle, -⟩⟩ := hothers c q' hc0 hq'
    · exact ht.notServing c q hc hq (hq'' hserv)
    · omega
  · rw [held_congr hcode hids]
    intro i q' hi hq' hman
    obtain ⟨-, ⟨q, hq, hq'', -⟩ | ⟨-, hserv⟩⟩ := hothers i q' hi hq'
    · exact ht.managed i q hi hq (hq'' hman)
    · exact absurd hman (not_managed_serving hserv)

theorem tied_signal {s : Sig} (hp : procs[0]? = some p) (ht : Tied procs p)
    (hs : pid = 0 → s = .usr1) :
    ∃ p', (procs.modify pid (Proc.handle cfg s))[0]? = some p' ∧
      Tied (procs.modify pid (Proc.handle cfg s)) p' := by
  rw [List.getElem?_modify, hp]
  refine ⟨_, rfl, ht.follow ?_ ?_ (Nat.le_of_eq (List.length_modify _ _ _).symm) ?_⟩
  · split
    · next hpid => rw [hs hpid]; rfl
    · rfl
  · split
    · exact p.chIds_handle s
    · rfl
  · intro i q' hi hq'
    rw [List.getElem?_modify, Option.map_eq_map, Option.map_eq_some_iff] at hq'
    obtain ⟨q, hq, rfl⟩ := hq'
    have hmain := ht.notMain i q hi hq
    split
    · obtain heq | heq := q.code_handle cfg s
      · rw [heq]
        exact ⟨hmain, Or.inl ⟨q, hq, id, id⟩⟩
      · rw [heq]
        exact ⟨id, Or.inl ⟨q, hq, by rintro ⟨⟩, by rintro ⟨⟩⟩⟩
    · exact ⟨hmain, Or.inl ⟨q, hq, id, id⟩⟩

theorem tied_other (hp : procs[0]? = some p) (ht : Tied procs p) (hq : procs[pid]? = some q)
    (hpid : pid ≠ 0) (he : Outside cfg q e) :
    ∃ p', (e.apply pid procs)[0]? = some p' ∧ Tied (e.apply pid procs) p' := by
  have hcode (i : Nat) (r : Proc M) :
      (e.signal i r).code = r.code ∧ (e.signal i r).chIds = r.chIds := by
    obtain heq | heq := he.signal i r
    · rw [heq]
      exact ⟨rfl, rfl⟩
    · rw [heq]
      exact ⟨rfl, rfl⟩
  refine ⟨_, e.get_other (Ne.symm hpid) hp, ht.follow (hcode 0 p).1 (hcode 0 p).2 ?_ ?_⟩
  · rw [e.length_apply]
    exact Nat.le_add_right _ _
  · intro i q' hi hq'
    obtain ⟨q₀, rfl, ⟨rfl, rfl⟩ | ⟨-, hq₀⟩ | ⟨rfl, hc⟩⟩ := e.get_apply hq hq'
    · rw [(hcode _ _).1]
      exact ⟨he.notMain, Or.inl ⟨q, hq, he.managed, he.serving⟩⟩
    · rw [(hcode _ _).1]
      exact ⟨ht.notMain i q₀ hi hq₀, Or.inl ⟨q₀, hq₀, id, id⟩⟩
    · rw [(hcode _ _).1]
      have hserv := he.child q₀ hc
      refine ⟨?_, Or.inr ⟨Nat.le_refl _, hserv⟩⟩
      intro hmain
      cases hcq : q₀.code with
      | serving =>
        rw [hcq] at hmain
        cases hmain
      | _ =>
        rw [hcq] at hserv
        cases hserv

theorem managed_childCode (s : Start) (left : List Start) : Managed (s.childCode cfg left) := by
  cases s <;> exact trivial

theorem not_inMain_managed {code : Code} (h : Managed code) : ¬ InMain code := by
  cases code with
  | main | exiting => cases h
  | _ => exact id

theorem tied_forked {s : Start} {left : List Start} {p' : Proc M} (hp : procs[0]? = some p)
    (hc : p.code = .main (s :: left)) (ht : Tied procs p) (hq : q.code = s.childCode cfg left)
    (hp' : p' = { p with code := .main left, chIds := p.chIds ++ [.child procs.length] }) :
    Tied ((forks p' q : ProcEffect H C M).apply 0 procs) p' := by
  have hlen : ((forks p' q : ProcEffect H C M).apply 0 procs).length = procs.length + 1 :=
    Effect.length_apply _
  have hman : Managed q.code := by rw [hq]; exact managed_childCode s left
  have hheld : held p = p.chIds := by rw [held, hc]
  have hcases (i : Nat) (r : Proc M) (hi : i ≠ 0)
      (h : ((forks p' q : ProcEffect H C M).apply 0 procs)[i]? = some r) :
      procs[i]? = some r ∨ i = procs.length ∧ r = q := by
    obtain ⟨r, rfl, ⟨h0, -⟩ | ⟨-, hr⟩ | ⟨hi, ⟨⟩⟩⟩ := Effect.get_apply _ hp h
    · exact absurd h0 hi
    · exact Or.inl hr
    · exact Or.inr ⟨hi, rfl⟩
  subst hp'
  refine ⟨Or.inl trivial, ?_, fun _ hid => hid, ?_, ?_, ?_⟩
  · intro id hid
    rw [List.mem_append, List.mem_singleton] at hid
    obtain hid | rfl := hid
    · obtain ⟨c, rfl, hc0, hlt⟩ := ht.ids id hid
      exact ⟨c, rfl, hc0, by omega⟩
    · have hpos : 0 < procs.length := (List.getElem?_eq_some_iff.mp hp).1
      exact ⟨procs.length, rfl, by omega, by omega⟩
  · intro c r hc hr hserv
    rw [List.mem_append, List.mem_singleton] at hc
    obtain hc | ⟨⟨⟩⟩ := hc
    · obtain ⟨_, ⟨⟩, hc0, hlt⟩ := ht.ids _ hc
      obtain hr | ⟨rfl, -⟩ := hcases c r hc0 hr
      · exact ht.notServing c r hc hr hserv
      · omega
    · obtain ⟨hlt, -⟩ := List.getElem?_eq_some_iff.mp hp
      obtain hr | ⟨-, rfl⟩ := hcases _ r (by omega) hr
      · rw [List.getElem?_eq_none (Nat.le_refl _)] at hr
        cases hr
      · exact not_managed_serving hserv hman
  · intro i r hi hr
    obtain hr | ⟨-, rfl⟩ := hcases i r hi hr
    · exact ht.notMain i r hi hr
    · exact not_inMain_managed hman
  · intro i r hi hr hrman
    obtain hr | ⟨rfl, rfl⟩ := hcases i r hi hr
    · rw [← hheld]
      exact List.mem_append_left _ (ht.managed i r hi hr hrman)
    · exact List.mem_append_right _ (List.mem_singleton_self _)

/-- A turn on which the first process goes on among its own places, and which ends at most
managed processes: the ids that it has still to kill are those of the processes that are left. -/
theorem tied_main {p' : Proc M} (ht : Tied procs p)
    (hmain : InMain p'.code ∨ p'.code = .ended) (hids : p'.chIds = p.chIds)
    (hlen : procs'.length = procs.length) (hsub : ∀ id ∈ held p', id ∈ held p)
    (hothers : ∀ (i : Nat) q', i ≠ 0 → procs'[i]? = some q' →
      (procs[i]? = some q' ∧ (.child i ∈ held p → .child i ∈ held p')) ∨ q'.code = .ended) :
    Tied procs' p' := by
  refine ⟨hmain, ?_, ?_, ?_, ?_, ?_⟩
  · rw [hids, hlen]
    exact ht.ids
  · rw [hids]
    exact fun id hid => ht.left id (hsub id hid)
  · rw [hids]
    intro c q' hc hq' hserv
    obtain ⟨_, ⟨⟩, hc0, -⟩ := ht.ids _ hc
    obtain ⟨hq, -⟩ | hended := hothers c q' hc0 hq'
    · exact ht.notServing c q' hc hq hserv
    · rw [hended] at hserv
      cases hserv
  · intro i q' hi hq'
    obtain ⟨hq, -⟩ | hended := hothers i q' hi hq'
    · exact ht.notMain i q' hi hq
    · rw [hended]
      exact id
  · intro i q' hi hq' hman
    obtain ⟨hq, hmem⟩ | hended := hothers i q' hi hq'
    · exact hmem (ht.managed i q' hi hq hman)
    · rw [hended] at hman
      cases hman

theorem quiet_others {p' r : Proc M} (hp : procs[0]? = some p) (hi : i ≠ 0)
    (h : ((quiet p' : ProcEffect H C M).apply 0 procs)[i]? = some r) : procs[i]? = some r := by
  obtain ⟨r, rfl, ⟨h0, -⟩ | ⟨-, hr⟩ | ⟨-, ⟨⟩⟩⟩ := Effect.get_apply _ hp h
  · exact absurd h0 hi
  · exact hr

theorem Tied.signal_self (ht : Tied procs p) (he : Turns cfg sv 0 n p c e) :
    e.signal 0 e.self = e.self := by
  cases he with
  | @kills id ids h =>
    have hheld : id ∈ held p := by
      rw [held, h]
      exact List.mem_cons_self
    obtain ⟨k, rfl, hk, -⟩ := ht.ids id (ht.left id hheld)
    exact if_neg (by simpa [reaches] using Ne.symm hk)
  | quits h =>
    obtain hcode | hcode := ht.place h <;> cases hcode
  | _ => rfl

/-- A kill of the exit handler takes the process with the id out of those that are left. -/
theorem tied_kills {id : ChId} {ids : List ChId} {p' : Proc M} (hp : procs[0]? = some p)
    (h : p.code = .exiting (id :: ids)) (ht : Tied procs p)
    (hp' : p' = { p with code := .exiting ids }) :
    Tied ((sends cfg 0 id .kill p' : ProcEffect H C M).apply 0 procs) p' := by
  have hheld : held p = id :: ids := by rw [held, h]
  obtain ⟨k, rfl, -, -⟩ := ht.ids id (ht.left id (by rw [hheld]; exact List.mem_cons_self))
  subst hp'
  refine tied_main ht (Or.inl trivial) rfl (Effect.length_apply _) ?_ ?_
  · rw [hheld]
    exact fun _ hid => List.mem_cons_of_mem _ hid
  · intro i r hi hr
    obtain ⟨r, rfl, ⟨h0, -⟩ | ⟨-, hr⟩ | ⟨-, ⟨⟩⟩⟩ := Effect.get_apply _ hp hr
    · exact absurd h0 hi
    · by_cases hik : i = k
      · subst hik
        refine Or.inr ?_
        simp [sends, reaches, Proc.handle]
      · have hkept : (sends cfg 0 (.child k) .kill { p with code := .exiting ids } :
            ProcEffect H C M).signal i r = r := if_neg (by simpa [reaches] using hik)
        rw [hkept, hheld]
        refine Or.inl ⟨hr, ?_⟩
        intro hmem
        obtain heq | hmem := List.mem_cons.mp hmem
        · cases heq
          exact absurd rfl hik
        · exact hmem

theorem tied_first (hp : procs[0]? = some p) (ht : Tied procs p)
    (he : Turns cfg sv 0 procs.length p c e) (hc : Succeeds c) :
    ∃ p', (e.apply 0 procs)[0]? = some p' ∧ Tied (e.apply 0 procs) p' := by
  have hself : (e.apply 0 procs)[0]? = some e.self := by rw [e.get_self hp, ht.signal_self he]
  refine ⟨e.self, hself, ?_⟩
  cases he with
  | forked h => exact tied_forked hp h ht rfl rfl
  | kills h => exact tied_kills hp h ht rfl
  | leaves h =>
    have hheld : held p = p.chIds := by rw [held, h]
    refine tied_main ht (Or.inl trivial) rfl (Effect.length_apply _) ?_ ?_
    · rw [hheld]
      exact fun _ hid => hid
    · intro i r hi hr
      rw [hheld]
      exact Or.inl ⟨quiet_others hp hi hr, id⟩
  | exits h =>
    have hheld : held p = [] := by rw [held, h]
    refine tied_main ht (Or.inr rfl) rfl (Effect.length_apply _) ?_ ?_
    · rintro _ ⟨⟩
    · intro i r hi hr
      rw [hheld]
      exact Or.inl ⟨quiet_others hp hi hr, by rintro ⟨⟩⟩
  | unforked => cases hc
  | bindFails => cases hc
  | acceptFails => exact absurd rfl hc
  | bound h | acceptUnforked h | accepted h | received h | relayed h | quits h | crashes h =>
    obtain hcode | hcode := ht.place h <;> cases hcode

theorem tied_step {a : ProcessTree.Act C} (h : (program cfg sv).step procs a = some (o, procs'))
    (ha : Orderly a) (hp : procs[0]? = some p) (ht : Tied procs p) :
    ∃ p', procs'[0]? = some p' ∧ Tied procs' p' := by
  cases a with
  | signal pid s =>
    cases h
    exact tied_signal hp ht ha
  | turn pid c =>
    obtain ⟨q, e, hq, he, -, rfl⟩ := Program.step_turn h
    by_cases hpid : pid = 0
    · subst hpid
      cases hp.symm.trans hq
      exact tied_first hp ht (program_turn he) ha
    · exact tied_other hp ht hq hpid (outside (program_turn he) ha (ht.notMain pid q hpid hq))

theorem tied_run (h : ProcessTree.Run cfg sv (ProcessTree.start cfg mem) acts os procs)
    (hacts : ∀ a ∈ acts, Orderly a) : ∃ p, procs[0]? = some p ∧ Tied procs p := by
  refine h.invariant (fun procs => ∃ p, procs[0]? = some p ∧ Tied procs p) Orderly
    (fun _ _ _ _ hs ha ⟨p, hp, ht⟩ => tied_step hs ha hp ht) hacts ⟨_, rfl, ?_⟩
  refine ⟨Or.inl trivial, by rintro _ ⟨⟩, fun _ hid => hid, by rintro _ _ ⟨⟩, ?_, ?_⟩
  · intro i q hi hq
    cases i with
    | zero => exact absurd rfl hi
    | succ i => cases hq
  · intro i q hi hq
    cases i with
    | zero => exact absurd rfl hi
    | succ i => cases hq

theorem Tied.ended (ht : Tied procs p) (hp : procs[0]? = some p) (hended : p.code = .ended)
    (hq : procs[i]? = some q) : q.code = .ended ∨ ∃ msg left, q.code = .serving msg left := by
  by_cases hi : i = 0
  · subst hi
    cases hp.symm.trans hq
    exact Or.inl hended
  · have hheld : held p = [] := by rw [held, hended]
    have hmain := ht.notMain i q hi hq
    have hman := ht.managed i q hi hq
    rw [hheld] at hman
    cases hc : q.code with
    | ended => exact Or.inl rfl
    | serving msg left => exact Or.inr ⟨msg, left, rfl⟩
    | main | exiting =>
      rw [hc] at hmain
      exact absurd trivial hmain
    | binding | accepting | shell =>
      rw [hc] at hman
      cases hman trivial

/-- Once `main` has halted, every process has ended but the sessions: where no system call
fails, the ids that the exit handler kills are all there is to end. -/
theorem shutdown_complete
    (h : ProcessTree.Run cfg sv (ProcessTree.start cfg mem) acts os procs)
    (hacts : ∀ a ∈ acts, Orderly a) (hp : procs[0]? = some p) (hended : p.code = .ended)
    (hq : procs[i]? = some q) : q.code = .ended ∨ ∃ msg left, q.code = .serving msg left := by
  obtain ⟨p', hp', ht⟩ := tied_run h hacts
  cases hp.symm.trans hp'
  exact ht.ended hp hended hq

def afterKills : List (Proc Unit) :=
  [⟨.ended, [.child 1, .child 2], true, (), 0⟩, ⟨.ended, [.zero], false, (), 0⟩,
    ⟨.ended, [.child 1, .zero], false, (), 0⟩,
    ⟨.serving (zeros szBuf) [.cliComm], [.zero], false, (), 1⟩]

theorem orderly_typedQuit : ∀ a ∈ typedQuit, Orderly a := by
  intro a ha
  simp only [typedQuit, List.mem_cons, List.not_mem_nil, or_false] at ha
  obtain rfl | rfl | rfl | rfl | rfl | rfl := ha <;> simp [Orderly, Succeeds]

theorem kills_run : ProcessTree.Run ⟨1, true, []⟩ noServices afterQuit
    (List.replicate 3 (.turn 0 .kill)) (List.replicate 3 []) afterKills :=
  .cons rfl (.cons rfl (.cons rfl (.nil _)))

theorem typedQuit_complete : ∃ q, afterKills[3]? = some q ∧
    (q.code = .ended ∨ ∃ msg left, q.code = .serving msg left) := by
  refine ⟨_, rfl, shutdown_complete (i := 3) (typedQuit_run.append kills_run) ?_ rfl rfl rfl⟩
  intro a ha
  obtain ha | ha := List.mem_append.mp ha
  · exact orderly_typedQuit a ha
  · rw [List.eq_of_mem_replicate ha]
    exact trivial

def Spares (i : Nat) : ProcessTree.Act C → Prop
  | .turn pid _ => pid ≠ i
  | .signal pid s => pid = i → s = .usr1

/-- No process signals a session: the exit handler of `main` holds no id of one. -/
theorem signal_serving (hp : procs[0]? = some p) (ht : Tied procs p) {r : Proc M}
    (hr : procs[pid]? = some r) (he : Turns cfg sv pid procs.length r c e) (hc : Succeeds c)
    (hq : procs[i]? = some q) (hserv : Serving q.code) :
    (e.signal i q).code = q.code ∧ (e.signal i q).mem = q.mem := by
  by_cases hpid : pid = 0
  · subst hpid
    cases hp.symm.trans hr
    cases he with
    | quits =>
      dsimp only [sends]
      split
      · exact ⟨rfl, rfl⟩
      · exact ⟨rfl, rfl⟩
    | @kills id ids h =>
      have hheld : held p = id :: ids := by rw [held, h]
      have hid := ht.left id (by rw [hheld]; exact List.mem_cons_self)
      obtain ⟨k, rfl, -, -⟩ := ht.ids id hid
      have hik : i ≠ k := by
        rintro rfl
        exact ht.notServing i q hid hq hserv
      have hkept : (sends cfg 0 (.child k) .kill { p with code := .exiting ids } :
          ProcEffect H C M).signal i q = q := if_neg (by simpa [reaches] using hik)
      rw [hkept]
      exact ⟨rfl, rfl⟩
    | _ => exact ⟨rfl, rfl⟩
  · obtain heq | heq := (outside he hc (ht.notMain pid r hpid hr)).signal i q
    · rw [heq]
      exact ⟨rfl, rfl⟩
    · rw [heq]
      exact ⟨rfl, q.mem_handle _⟩

theorem serving_step {a : ProcessTree.Act C} (h : (program cfg sv).step procs a = some (o, procs'))
    (ha : Orderly a) (hi : Spares i a) (hp : procs[0]? = some p) (ht : Tied procs p)
    (hq : procs[i]? = some q) (hserv : Serving q.code) :
    ∃ q', procs'[i]? = some q' ∧ q'.code = q.code ∧ q'.mem = q.mem := by
  cases a with
  | signal pid s =>
    cases h
    rw [List.getElem?_modify, hq]
    refine ⟨_, rfl, ?_⟩
    split
    · next hpid => rw [hi hpid]; exact ⟨rfl, rfl⟩
    · exact ⟨rfl, rfl⟩
  | turn pid c =>
    obtain ⟨r, e, hr, he, -, rfl⟩ := Program.step_turn h
    exact ⟨_, e.get_other (Ne.symm hi) hq,
      signal_serving hp ht hr (program_turn he) ha hq hserv⟩

/-- A session outlives the shutdown: whatever the other processes do, it stays as it is until it
takes a turn of its own. -/
theorem session_survives
    (h : ProcessTree.Run cfg sv (ProcessTree.start cfg mem) acts os procs)
    (hacts : ∀ a ∈ acts, Orderly a) (hq : procs[i]? = some q) (hserv : Serving q.code)
    {acts' : List (ProcessTree.Act C)} {os' : List (List (Event H C))}
    (h' : ProcessTree.Run cfg sv procs acts' os' procs')
    (hacts' : ∀ a ∈ acts', Orderly a ∧ Spares i a) :
    ∃ q', procs'[i]? = some q' ∧ q'.code = q.code ∧ q'.mem = q.mem := by
  obtain ⟨p, hp, ht⟩ := tied_run h hacts
  have hall : (∃ p, procs'[0]? = some p ∧ Tied procs' p) ∧
      ∃ q', procs'[i]? = some q' ∧ q'.code = q.code ∧ q'.mem = q.mem := by
    refine h'.invariant (fun u => (∃ p, u[0]? = some p ∧ Tied u p) ∧
      ∃ q', u[i]? = some q' ∧ q'.code = q.code ∧ q'.mem = q.mem) (fun a => Orderly a ∧ Spares i a)
      ?_ hacts' ⟨⟨p, hp, ht⟩, q, hq, rfl, rfl⟩
    rintro u a o v hs ⟨ha, hi⟩ ⟨⟨p, hp, ht⟩, q', hq', hcode, hmem⟩
    refine ⟨tied_step hs ha hp ht, ?_⟩
    obtain ⟨q'', hq'', hcode', hmem'⟩ :=
      serving_step hs ha hi hp ht hq' (by rw [hcode]; exact hserv)
    exact ⟨q'', hq'', hcode'.trans hcode, hmem'.trans hmem⟩
  exact hall.2

theorem typedQuit_survives : ∃ q, afterKills[3]? = some q ∧
    q.code = .serving (zeros szBuf) [.cliComm] ∧ q.mem = () := by
  have hq : afterQuit[3]? = some ⟨.serving (zeros szBuf) [.cliComm], [.zero], false, (), 1⟩ := rfl
  refine session_survives typedQuit_run orderly_typedQuit hq trivial kills_run ?_
  intro a ha
  rw [List.eq_of_mem_replicate ha]
  exact ⟨trivial, Nat.zero_ne_add_one 2⟩

end LibSwitch.OrderlyShutdown

import LibSwitch.Reactive

namespace LibSwitch.ProcessPool

variable {P O X Y : Type}

/-- What a turn of a process leads to: its output, its next state, the process it forked, if
any, and what a signal that it sends does to the process of a number. -/
structure Effect (P O : Type) where
  out : O
  self : P
  child : Option P
  signal : Nat → P → P

/-- The processes are numbered in the order of their forks. -/
def Effect.apply (e : Effect P O) (pid : Nat) (procs : List P) : List P :=
  (procs.set pid e.self ++ e.child.toList).mapIdx e.signal

inductive Act (X Y : Type)
  | turn (pid : Nat) (x : X)
  | signal (pid : Nat) (y : Y)

/-- A program of processes: the turns of one, by its number and the number of the next fork,
and what a signal does to the process that gets it. -/
structure Program (P O X Y : Type) where
  turn : Nat → Nat → P → X → Option (Effect P O)
  handle : Y → P → P
  silent : O

def Program.step (prog : Program P O X Y) (procs : List P) : Act X Y → Option (O × List P)
  | .turn pid x =>
    match procs[pid]? with
    | none => none
    | some p => (prog.turn pid procs.length p x).map fun e => (e.out, e.apply pid procs)
  | .signal pid y => some (prog.silent, procs.modify pid (prog.handle y))

abbrev Program.Run (prog : Program P O X Y) := Reactive.Run prog.step

variable {prog : Program P O X Y} {procs procs' : List P} {pid i : Nat} {p q : P} {o : O}
variable {e : Effect P O}

theorem Program.step_turn {x : X} (h : prog.step procs (.turn pid x) = some (o, procs')) :
    ∃ p e, procs[pid]? = some p ∧ prog.turn pid procs.length p x = some e ∧ o = e.out ∧
      procs' = e.apply pid procs := by
  simp only [step] at h
  split at h
  · cases h
  · next p hp =>
    obtain ⟨e, he, heq⟩ := Option.map_eq_some_iff.mp h
    cases heq
    exact ⟨p, e, hp, he, rfl, rfl⟩

theorem Effect.get_apply (e : Effect P O) (hp : procs[pid]? = some p)
    (h : (e.apply pid procs)[i]? = some q) :
    ∃ q₀, q = e.signal i q₀ ∧ (i = pid ∧ q₀ = e.self ∨ i ≠ pid ∧ procs[i]? = some q₀ ∨
      i = procs.length ∧ e.child = some q₀) := by
  obtain ⟨hpid, -⟩ := List.getElem?_eq_some_iff.mp hp
  rw [Effect.apply, List.getElem?_mapIdx, Option.map_eq_some_iff] at h
  obtain ⟨q₀, hq₀, rfl⟩ := h
  refine ⟨q₀, rfl, ?_⟩
  obtain hlt | heq | hgt := Nat.lt_trichotomy i procs.length
  · rw [List.getElem?_append_left (by rwa [List.length_set])] at hq₀
    by_cases hi : i = pid
    · subst hi
      rw [List.getElem?_set_self hpid] at hq₀
      exact Or.inl ⟨rfl, (Option.some.inj hq₀).symm⟩
    · rw [List.getElem?_set_ne (Ne.symm hi)] at hq₀
      exact Or.inr (Or.inl ⟨hi, hq₀⟩)
  · rw [List.getElem?_append_right (by rw [List.length_set]; omega), List.length_set, heq,
      Nat.sub_self] at hq₀
    refine Or.inr (Or.inr ⟨heq, ?_⟩)
    cases hc : e.child with
    | none =>
      rw [hc] at hq₀
      cases hq₀
    | some c =>
      rw [hc] at hq₀
      exact hq₀
  · rw [List.getElem?_append_right (by rw [List.length_set]; omega), List.length_set] at hq₀
    cases hc : e.child with
    | none =>
      rw [hc] at hq₀
      cases hq₀
    | some c =>
      rw [hc, Option.toList_some, List.getElem?_eq_none (by rw [List.length_singleton]; omega)]
        at hq₀
      cases hq₀

theorem Effect.get_self (e : Effect P O) (hp : procs[pid]? = some p) :
    (e.apply pid procs)[pid]? = some (e.signal pid e.self) := by
  obtain ⟨hpid, -⟩ := List.getElem?_eq_some_iff.mp hp
  rw [Effect.apply, List.getElem?_mapIdx, List.getElem?_append_left (by rwa [List.length_set]),
    List.getElem?_set_self hpid, Option.map_some]

theorem Effect.get_other (e : Effect P O) (hi : i ≠ pid) (hq : procs[i]? = some q) :
    (e.apply pid procs)[i]? = some (e.signal i q) := by
  obtain ⟨hlt, -⟩ := List.getElem?_eq_some_iff.mp hq
  rw [Effect.apply, List.getElem?_mapIdx, List.getElem?_append_left (by rwa [List.length_set]),
    List.getElem?_set_ne (Ne.symm hi), hq, Option.map_some]

theorem Effect.length_apply (e : Effect P O) :
    (e.apply pid procs).length = procs.length + e.child.toList.length := by
  rw [Effect.apply, List.length_mapIdx, List.length_append, List.length_set]

def Everywhere (Q : Nat → Nat → P → Prop) (procs : List P) : Prop :=
  ∀ i p, procs[i]? = some p → Q procs.length i p

/-- A property of single processes is kept by a step when the process that moves keeps it, its
child has it, and signals keep it. -/
theorem Program.everywhere_step {Q : Nat → Nat → P → Prop} {a : Act X Y}
    (hgrow : ∀ n m i p, n ≤ m → Q n i p → Q m i p)
    (hself : ∀ pid n p x e, a = .turn pid x → prog.turn pid n p x = some e → pid < n →
      Q n pid p → Q (n + e.child.toList.length) pid (e.signal pid e.self))
    (hchild : ∀ pid n p x e c, a = .turn pid x → prog.turn pid n p x = some e → pid < n →
      Q n pid p → e.child = some c → Q (n + 1) n (e.signal n c))
    (hother : ∀ pid n p x e i q, a = .turn pid x → prog.turn pid n p x = some e → i ≠ pid →
      Q n pid p → Q n i q → Q n i (e.signal i q))
    (hsignal : ∀ pid y n p, a = .signal pid y → Q n pid p → Q n pid (prog.handle y p))
    (h : prog.step procs a = some (o, procs')) (hq : Everywhere Q procs) :
    Everywhere Q procs' := by
  cases a with
  | turn pid x =>
    obtain ⟨p, e, hp, he, -, rfl⟩ := Program.step_turn h
    obtain ⟨hpid, -⟩ := List.getElem?_eq_some_iff.mp hp
    intro i q hi
    rw [e.length_apply]
    obtain ⟨q₀, rfl, ⟨rfl, rfl⟩ | ⟨hne, hq₀⟩ | ⟨rfl, hc⟩⟩ := e.get_apply hp hi
    · exact hself i _ p x e rfl he hpid (hq i p hp)
    · exact hgrow _ _ i _ (Nat.le_add_right _ _)
        (hother pid _ p x e i q₀ rfl he hne (hq pid p hp) (hq i q₀ hq₀))
    · rw [hc]
      exact hchild pid _ p x e q₀ rfl he hpid (hq pid p hp) hc
  | signal pid y =>
    cases h
    intro i q hi
    rw [List.length_modify]
    rw [List.getElem?_modify, Option.map_eq_map, Option.map_eq_some_iff] at hi
    obtain ⟨q₀, hq₀, rfl⟩ := hi
    split
    · next heq =>
      subst heq
      exact hsignal pid y _ q₀ rfl (hq pid q₀ hq₀)
    · exact hq i q₀ hq₀

/-- The turns of one process that are inputs of its part in the program. -/
def ownTurn {J : Type} (i : Nat) (own : X → Option J) : Act X Y → Option J
  | .turn pid x => if pid = i then own x else none
  | .signal _ _ => none

/-- The process of a number, once it is there, is where the view puts it, and before that its part
has not begun. -/
structure Seen {C : Type} (i : Nat) (view : P → C → Prop) (c₀ : C) (procs : List P) (c : C) :
    Prop where
  view : ∀ q, procs[i]? = some q → view q c
  unborn : procs.length ≤ i → c = c₀

section
variable {C J O' : Type} {part : C → J → Option (O' × C)} {view : P → C → Prop}
variable {own : X → Option J} {tells : O → O' → Prop} {c₀ c : C} {a : Act X Y}

theorem Program.seen_own {j : J} (hs : prog.step procs a = some (o, procs'))
    (ha : ownTurn i own a = some j)
    (hown : ∀ n p x e j c, prog.turn i n p x = some e → own x = some j → view p c →
      ∃ o c', part c j = some (o, c') ∧ tells e.out o ∧ view e.self c')
    (hsent : ∀ pid n p x e q c, prog.turn pid n p x = some e → view q c → view (e.signal i q) c)
    (hseen : Seen i view c₀ procs c) :
    ∃ o' c', part c j = some (o', c') ∧ tells o o' ∧ Seen i view c₀ procs' c' := by
  cases a with
  | signal pid y => cases ha
  | turn pid x =>
    rw [ownTurn] at ha
    split at ha
    · next heq =>
      subst heq
      obtain ⟨p, e, hp, he, rfl, rfl⟩ := Program.step_turn hs
      obtain ⟨o', c', hpart, htells, hview⟩ := hown _ _ _ _ _ _ he ha (hseen.view p hp)
      refine ⟨o', c', hpart, htells, ?_, ?_⟩
      · intro q hq
        cases (e.get_self hp).symm.trans hq
        exact hsent _ _ _ _ _ _ _ he hview
      · intro hle
        obtain ⟨hlt, -⟩ := List.getElem?_eq_some_iff.mp hp
        rw [e.length_apply] at hle
        omega
    · cases ha

theorem Program.seen_other (hs : prog.step procs a = some (o, procs'))
    (ha : ownTurn i own a = none)
    (hother : ∀ n p x e c, prog.turn i n p x = some e → own x = none → view p c → view e.self c)
    (hchild : ∀ pid n p x e q, prog.turn pid n p x = some e → e.child = some q → view q c₀)
    (hsent : ∀ pid n p x e q c, prog.turn pid n p x = some e → view q c → view (e.signal i q) c)
    (hsignal : ∀ y q c, view q c → view (prog.handle y q) c) (hseen : Seen i view c₀ procs c) :
    Seen i view c₀ procs' c := by
  cases a with
  | signal pid y =>
    cases hs
    refine ⟨?_, fun hle => hseen.unborn (by rwa [List.length_modify] at hle)⟩
    intro q hq
    rw [List.getElem?_modify, Option.map_eq_map, Option.map_eq_some_iff] at hq
    obtain ⟨q₀, hq₀, rfl⟩ := hq
    split
    · exact hsignal y q₀ c (hseen.view q₀ hq₀)
    · exact hseen.view q₀ hq₀
  | turn pid x =>
    obtain ⟨p, e, hp, he, rfl, rfl⟩ := Program.step_turn hs
    refine ⟨?_, fun hle => hseen.unborn (by rw [e.length_apply] at hle; omega)⟩
    intro q hq
    obtain ⟨q₀, rfl, ⟨rfl, rfl⟩ | ⟨-, hq₀⟩ | ⟨rfl, hc⟩⟩ := e.get_apply hp hq
    · rw [ownTurn, if_pos rfl] at ha
      exact hsent _ _ _ _ _ _ _ he (hother _ _ _ _ _ he ha (hseen.view p hp))
    · exact hsent _ _ _ _ _ _ _ he (hseen.view q₀ hq₀)
    · rw [hseen.unborn (Nat.le_refl _)]
      exact hsent _ _ _ _ _ _ _ he (hchild _ _ _ _ _ _ he hc)

/-- A part of the program that each forked process begins anew, that a process runs on its own
turns, and that signals leave where it stands: in a run with any other processes, every single
process shows a run of it. -/
theorem Program.component
    (hown : ∀ n p x e j c, prog.turn i n p x = some e → own x = some j → view p c →
      ∃ o c', part c j = some (o, c') ∧ tells e.out o ∧ view e.self c')
    (hother : ∀ n p x e c, prog.turn i n p x = some e → own x = none → view p c → view e.self c)
    (hchild : ∀ pid n p x e q, prog.turn pid n p x = some e → e.child = some q → view q c₀)
    (hsent : ∀ pid n p x e q c, prog.turn pid n p x = some e → view q c → view (e.signal i q) c)
    (hsignal : ∀ y q c, view q c → view (prog.handle y q) c)
    {acts : List (Act X Y)} {os : List O} (h : prog.Run procs acts os procs')
    (hstart : ∀ p, procs[i]? = some p → view p c₀) :
    ∃ os' c, Reactive.Run part c₀ (acts.filterMap (ownTurn i own)) os' c ∧
      List.Forall₂ tells (Reactive.picked (ownTurn i own) acts os) os' ∧
      ∀ q, procs'[i]? = some q → view q c := by
  obtain ⟨os', c, hrun, hall, hseen⟩ := h.component (Seen i view c₀) (ownTurn i own) tells
    (fun _ _ _ _ _ _ hs ha hseen => Program.seen_own hs ha hown hsent hseen)
    (fun _ _ _ _ _ hs ha hseen => Program.seen_other hs ha hother hchild hsent hsignal hseen)
    ⟨hstart, fun _ => rfl⟩
  exact ⟨os', c, hrun, hall, hseen.view⟩

end

end LibSwitch.ProcessPool

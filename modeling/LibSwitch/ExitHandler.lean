import Mathlib.Data.List.Nodup
import LibSwitch.ModuleLoad

namespace LibSwitch.ExitHandler

open LibSwitch.PointerTable LibSwitch.Common LibSwitch.ModuleLoad

variable {H D : Type}

inductive Kind
  | comm
  | cli
  | sw
  | protocol
  deriving DecidableEq

inductive Event
  | halt (k : Kind) (slot : Nat)
  | close (handle : Nat)
  | kill
  deriving DecidableEq

/-- Why the handler does not come to its end: it calls a null pointer, or it still runs. -/
inductive Stop
  | nullModule
  | nullHalt
  | running
  deriving DecidableEq

def count (r : Registry H D) : Kind → Nat
  | .comm => r.commMods.cnt
  | .cli => r.cliMods.cnt
  | .sw => r.switches.cnt
  | .protocol => r.protocols.cnt

def present (r : Registry H D) (loop : Nat) : Kind → Bool
  | .comm => (deref maxObjects r.commMods loop).isSome
  | .cli => (deref maxObjects r.cliMods loop).isSome
  | .sw => (deref maxObjects r.switches loop).isSome
  | .protocol => (deref maxObjects r.protocols loop).isSome

/-- Which of the registered modules have a `halt` member that is not null. -/
abbrev Halts := Kind → Nat → Bool

def haltAt (r : Registry H D) (halts : Halts) (k : Kind) (loop : Nat) : Except Stop Event :=
  if present r loop k = false then .error .nullModule
  else if halts k loop = false then .error .nullHalt
  else .ok (.halt k loop)

def haltAll (r : Registry H D) (halts : Halts) (k : Kind) : Except Stop (List Event) :=
  (List.range (count r k)).mapM (haltAt r halts k)

/-- The loop over the CLI modules. The loops over the switches and the protocols stand inside
it and use the same index, which they leave at `proto_cnt`. -/
def cliLoop (r : Registry H D) (halts : Halts) : Nat → Nat → Except Stop (List Event)
  | 0, _ => .error .running
  | fuel + 1, loop =>
    if loop < count r .cli then do
      let cli ← haltAt r halts .cli loop
      let sws ← haltAll r halts .sw
      let protos ← haltAll r halts .protocol
      let rest ← cliLoop r halts fuel (count r .protocol + 1)
      return cli :: (sws ++ protos ++ rest)
    else .ok []

/-- `exit_handler`, with the flag that it sets on its first run. -/
def exitHandler (r : Registry H D) (halts : Halts) (fuel : Nat) (inHalt : Bool) :
    Except Stop (List Event) :=
  if inHalt then .ok []
  else do
    let comms ← haltAll r halts .comm
    let rest ← cliLoop r halts fuel 0
    return comms ++ rest ++ (List.range r.hndl.cnt).map .close ++ [.kill]

def phase : Event → Nat
  | .halt .comm _ => 0
  | .halt .cli _ => 1
  | .halt .sw _ => 2
  | .halt .protocol _ => 3
  | .close _ => 4
  | .kill => 5

/-- The first run comes to its end. It has halted every module once, kind by kind, and then
closed every handle once. -/
def ShutsDown (r : Registry H D) (halts : Halts) : Prop :=
  ∃ fuel es, exitHandler r halts fuel false = .ok es ∧
    (∀ k i, i < count r k → es.count (.halt k i) = 1) ∧
    (∀ i, i < r.hndl.cnt → es.count (.close i) = 1) ∧
    es.Pairwise fun a b => phase a ≤ phase b

def NoNullHalt (r : Registry H D) (halts : Halts) : Prop :=
  ∀ fuel, exitHandler r halts fuel false ≠ .error .nullHalt

/-- Every entry in use is a module. -/
structure Listed (r : Registry H D) : Prop where
  comms : Filled maxObjects r.commMods
  clis : Filled maxObjects r.cliMods
  switches : Filled maxObjects r.switches
  protocols : Filled maxObjects r.protocols

def AllSet (r : Registry H D) (halts : Halts) (k : Kind) : Prop :=
  ∀ i, i < count r k → halts k i = true

variable {r : Registry H D} {halts : Halts} {k : Kind}

theorem Listed.present (h : Listed r) {i : Nat} (hi : i < count r k) :
    ExitHandler.present r i k = true := by
  cases k with
  | comm => exact (h.comms.deref_isSome i).mpr ⟨by omega, Int.ofNat_lt.mpr hi⟩
  | cli => exact (h.clis.deref_isSome i).mpr ⟨by omega, Int.ofNat_lt.mpr hi⟩
  | sw => exact (h.switches.deref_isSome i).mpr ⟨by omega, Int.ofNat_lt.mpr hi⟩
  | protocol => exact (h.protocols.deref_isSome i).mpr ⟨by omega, Int.ofNat_lt.mpr hi⟩

theorem Listed.haltAt (h : Listed r) (halts : Halts) {i : Nat} (hi : i < count r k) :
    ExitHandler.haltAt r halts k i =
      if halts k i = false then .error .nullHalt else .ok (.halt k i) := by
  rw [ExitHandler.haltAt, h.present hi, if_neg Bool.true_eq_false.mp]

theorem mapM_ok {f : Nat → Except Stop Event} {g : Nat → Event} {l : List Nat}
    (h : ∀ i ∈ l, f i = .ok (g i)) : l.mapM f = .ok (l.map g) := by
  induction l with
  | nil => rfl
  | cons i l ih =>
    rw [List.forall_mem_cons] at h
    rw [List.mapM_cons, h.1, ih h.2]
    rfl

theorem mapM_error {f : Nat → Except Stop Event} {g : Nat → Event} {e : Stop} {l : List Nat}
    (h : ∀ i ∈ l, f i = .ok (g i) ∨ f i = .error e) {i : Nat} (hi : i ∈ l)
    (he : f i = .error e) : l.mapM f = .error e := by
  induction l with
  | nil => cases hi
  | cons j l ih =>
    rw [List.forall_mem_cons] at h
    rw [List.mapM_cons]
    obtain hj | hj := h.1
    · rw [List.mem_cons] at hi
      obtain rfl | hi := hi
      · rw [hj] at he
        cases he
      · rw [hj, ih h.2 hi]
        rfl
    · rw [hj]
      rfl

theorem haltAll_set (hr : Listed r) (h : AllSet r halts k) :
    haltAll r halts k = .ok ((List.range (count r k)).map (.halt k)) := by
  apply mapM_ok
  intro i hi
  have hlt := List.mem_range.mp hi
  rw [hr.haltAt halts hlt, h i hlt]
  rfl

theorem haltAll_unset (hr : Listed r) (h : ¬ AllSet r halts k) :
    haltAll r halts k = .error .nullHalt := by
  simp only [AllSet, not_forall] at h
  obtain ⟨i, hi, hnot⟩ := h
  rw [Bool.not_eq_true] at hnot
  apply mapM_error (g := .halt k) (i := i)
  · intro j hj
    rw [hr.haltAt halts (List.mem_range.mp hj)]
    cases halts k j with
    | true => exact Or.inl rfl
    | false => exact Or.inr rfl
  · exact List.mem_range.mpr hi
  · rw [hr.haltAt halts hi, hnot]
    rfl

theorem haltAll_ok (hr : Listed r) {es : List Event} (h : haltAll r halts k = .ok es) :
    AllSet r halts k ∧ es = (List.range (count r k)).map (.halt k) := by
  by_cases hset : AllSet r halts k
  · rw [haltAll_set hr hset] at h
    cases h
    exact ⟨hset, rfl⟩
  · rw [haltAll_unset hr hset] at h
    cases h

theorem cliLoop_done {loop : Nat} (h : count r .cli ≤ loop) (fuel : Nat) :
    cliLoop r halts (fuel + 1) loop = .ok [] := by
  rw [cliLoop, if_neg (Nat.not_lt.mpr h)]

theorem cliLoop_round (hr : Listed r) {fuel loop : Nat} (h : loop < count r .cli)
    {es : List Event} (hes : cliLoop r halts (fuel + 1) loop = .ok es) :
    halts .cli loop = true ∧ AllSet r halts .sw ∧ AllSet r halts .protocol ∧
      ∃ rest, cliLoop r halts fuel (count r .protocol + 1) = .ok rest ∧
        es = .halt .cli loop :: ((List.range (count r .sw)).map (.halt .sw) ++
          (List.range (count r .protocol)).map (.halt .protocol) ++ rest) := by
  rw [cliLoop, if_pos h, hr.haltAt halts h] at hes
  cases hcli : halts .cli loop with
  | false =>
    rw [hcli] at hes
    cases hes
  | true =>
    rw [hcli] at hes
    cases hsw : haltAll r halts .sw with
    | error e =>
      rw [hsw] at hes
      cases hes
    | ok sws =>
      cases hproto : haltAll r halts .protocol with
      | error e =>
        rw [hsw, hproto] at hes
        cases hes
      | ok protos =>
        cases hrest : cliLoop r halts fuel (count r .protocol + 1) with
        | error e =>
          rw [hsw, hproto, hrest] at hes
          cases hes
        | ok rest =>
          rw [hsw, hproto, hrest] at hes
          cases hes
          obtain ⟨hswset, rfl⟩ := haltAll_ok hr hsw
          obtain ⟨hprotoset, rfl⟩ := haltAll_ok hr hproto
          exact ⟨rfl, hswset, hprotoset, rest, rfl, rfl⟩

/-- With a CLI module at the index that the inner loops leave behind, the loop does not end. -/
theorem cliLoop_endless (hr : Listed r) (h : count r .protocol + 1 < count r .cli)
    (fuel : Nat) (es : List Event) :
    cliLoop r halts fuel (count r .protocol + 1) ≠ .ok es := by
  induction fuel generalizing es with
  | zero =>
    intro hes
    cases hes
  | succ fuel ih =>
    intro hes
    obtain ⟨-, -, -, rest, hrest, -⟩ := cliLoop_round hr h hes
    exact ih rest hrest

theorem exitHandler_ok (hr : Listed r) {fuel : Nat} {es : List Event}
    (h : exitHandler r halts fuel false = .ok es) :
    AllSet r halts .comm ∧ ∃ rest, cliLoop r halts fuel 0 = .ok rest ∧
      es = (List.range (count r .comm)).map (.halt .comm) ++ rest ++
        (List.range r.hndl.cnt).map .close ++ [.kill] := by
  rw [exitHandler, if_neg Bool.false_ne_true] at h
  cases hcomm : haltAll r halts .comm with
  | error e =>
    rw [hcomm] at h
    cases h
  | ok comms =>
    cases hrest : cliLoop r halts fuel 0 with
    | error e =>
      rw [hcomm, hrest] at h
      cases h
    | ok rest =>
      rw [hcomm, hrest] at h
      cases h
      obtain ⟨hset, rfl⟩ := haltAll_ok hr hcomm
      exact ⟨hset, rest, rfl, rfl⟩

/-- The handler comes to its end without CLI modules, having skipped switches and protocols,
and with at most as many CLI modules as let the loop end after its first round. -/
theorem exitHandler_events (hr : Listed r) {fuel : Nat} {es : List Event}
    (h : exitHandler r halts fuel false = .ok es) :
    AllSet r halts .comm ∧
      ((count r .cli = 0 ∧ es = (List.range (count r .comm)).map (.halt .comm) ++
          (List.range r.hndl.cnt).map .close ++ [.kill]) ∨
        (0 < count r .cli ∧ halts .cli 0 = true ∧ AllSet r halts .sw ∧
          AllSet r halts .protocol ∧
          es = (List.range (count r .comm)).map (.halt .comm) ++ .halt .cli 0 ::
            ((List.range (count r .sw)).map (.halt .sw) ++
            (List.range (count r .protocol)).map (.halt .protocol)) ++
            (List.range r.hndl.cnt).map .close ++ [.kill])) := by
  obtain ⟨hcomm, rest, hrest, rfl⟩ := exitHandler_ok hr h
  refine ⟨hcomm, ?_⟩
  cases fuel with
  | zero => cases hrest
  | succ fuel =>
    obtain hz | hpos := Nat.eq_zero_or_pos (count r .cli)
    · rw [cliLoop_done (Nat.le_of_eq hz)] at hrest
      cases hrest
      rw [List.append_nil]
      exact Or.inl ⟨hz, rfl⟩
    · obtain ⟨hcli, hsw, hproto, rest', hrest', rfl⟩ := cliLoop_round hr hpos hrest
      have hend : count r .cli ≤ count r .protocol + 1 := by
        by_contra hlt
        exact cliLoop_endless hr (Nat.not_le.mp hlt) fuel rest' hrest'
      cases fuel with
      | zero => cases hrest'
      | succ fuel =>
        rw [cliLoop_done hend] at hrest'
        cases hrest'
        rw [List.append_nil]
        exact Or.inr ⟨hpos, hcli, hsw, hproto, rfl⟩

theorem exitHandler_one (hr : Listed r) (hset : ∀ k, AllSet r halts k)
    (hcli : count r .cli = 1) : exitHandler r halts 2 false =
      .ok ((List.range (count r .comm)).map (.halt .comm) ++ .halt .cli 0 ::
        ((List.range (count r .sw)).map (.halt .sw) ++
        (List.range (count r .protocol)).map (.halt .protocol)) ++
        (List.range r.hndl.cnt).map .close ++ [.kill]) := by
  have hlt : 0 < count r .cli := by omega
  have hend : cliLoop r halts 1 (count r .protocol + 1) = .ok [] := cliLoop_done (by omega) 0
  rw [exitHandler, if_neg Bool.false_ne_true, haltAll_set hr (hset .comm), cliLoop, if_pos hlt,
    hr.haltAt halts hlt, hset .cli 0 hlt, haltAll_set hr (hset .sw),
    haltAll_set hr (hset .protocol), hend]
  simp [bind, Except.bind, pure, Except.pure]

theorem exitHandler_bare (hr : Listed r) (hset : AllSet r halts .comm)
    (hcli : count r .cli = 0) : exitHandler r halts 1 false =
      .ok ((List.range (count r .comm)).map (.halt .comm) ++
        (List.range r.hndl.cnt).map .close ++ [.kill]) := by
  rw [exitHandler, if_neg Bool.false_ne_true, haltAll_set hr hset,
    cliLoop_done (Nat.le_of_eq hcli) 0]
  simp [bind, Except.bind, pure, Except.pure]

theorem count_halts (k k' : Kind) (n i : Nat) :
    ((List.range n).map (Event.halt k')).count (.halt k i) = if k = k' ∧ i < n then 1 else 0 := by
  split
  · next h =>
    obtain ⟨rfl, hi⟩ := h
    have hinj : Function.Injective (Event.halt k) := fun _ _ h => by cases h; rfl
    exact List.count_eq_one_of_mem (List.nodup_range.map hinj)
      (List.mem_map_of_mem (List.mem_range.mpr hi))
  · next h =>
    rw [List.count_eq_zero]
    simp only [List.mem_map, List.mem_range, Event.halt.injEq, not_exists, not_and]
    rintro j hj rfl rfl
    exact h ⟨rfl, hj⟩

theorem count_closes {n i : Nat} (h : i < n) :
    ((List.range n).map Event.close).count (.close i) = 1 := by
  have hinj : Function.Injective Event.close := fun _ _ h => by cases h; rfl
  exact List.count_eq_one_of_mem (List.nodup_range.map hinj)
    (List.mem_map_of_mem (List.mem_range.mpr h))

theorem count_halt_closes (k : Kind) (n i : Nat) :
    ((List.range n).map Event.close).count (.halt k i) = 0 := by
  simp [List.count_eq_zero]

theorem count_close_halts (k : Kind) (n i : Nat) :
    ((List.range n).map (Event.halt k)).count (.close i) = 0 := by
  simp [List.count_eq_zero]

theorem phases_halts (k : Kind) (n : Nat) :
    ((List.range n).map (Event.halt k)).map phase = List.replicate n (phase (.halt k 0)) := by
  rw [List.map_map, List.eq_replicate_iff]
  refine ⟨by simp, ?_⟩
  simp only [List.mem_map, List.mem_range]
  rintro p ⟨i, -, rfl⟩
  cases k <;> rfl

theorem phases_closes (n : Nat) :
    ((List.range n).map Event.close).map phase = List.replicate n 4 := by
  rw [List.map_map, List.eq_replicate_iff]
  refine ⟨by simp, ?_⟩
  simp only [List.mem_map, List.mem_range]
  rintro p ⟨i, -, rfl⟩
  rfl

def shutdown (r : Registry H D) : List Event :=
  (List.range (count r .comm)).map (.halt .comm) ++ (List.range (count r .cli)).map (.halt .cli) ++
    (List.range (count r .sw)).map (.halt .sw) ++
    (List.range (count r .protocol)).map (.halt .protocol) ++
    (List.range r.hndl.cnt).map .close ++ [.kill]

theorem shutdown_halts {k : Kind} {i : Nat} (hi : i < count r k) :
    (shutdown r).count (.halt k i) = 1 := by
  simp only [shutdown, List.count_append, List.count_cons, count_halts, count_halt_closes,
    List.count_nil]
  cases k <;> simp_all

theorem shutdown_closes {i : Nat} (hi : i < r.hndl.cnt) : (shutdown r).count (.close i) = 1 := by
  simp [shutdown, count_closes hi, count_close_halts]

theorem shutdown_phases : (shutdown r).Pairwise fun a b => phase a ≤ phase b := by
  rw [← List.pairwise_map]
  simp only [shutdown, List.map_append, List.map_cons, phases_halts, phases_closes]
  simp only [List.pairwise_append, List.pairwise_cons, List.pairwise_replicate,
    List.mem_append, List.mem_cons, List.mem_replicate, phase, List.map_nil]
  grind

theorem shutsDown_of_shutdown {fuel : Nat}
    (h : exitHandler r halts fuel false = .ok (shutdown r)) : ShutsDown r halts :=
  ⟨fuel, _, h, fun _ _ => shutdown_halts, fun _ => shutdown_closes, shutdown_phases⟩

theorem shutdown_one (hcli : count r .cli = 1) : shutdown r =
    (List.range (count r .comm)).map (.halt .comm) ++ .halt .cli 0 ::
      ((List.range (count r .sw)).map (.halt .sw) ++
      (List.range (count r .protocol)).map (.halt .protocol)) ++
      (List.range r.hndl.cnt).map .close ++ [.kill] := by
  simp [shutdown, hcli]

theorem shutdown_bare (hcli : count r .cli = 0) (hsw : count r .sw = 0)
    (hproto : count r .protocol = 0) : shutdown r =
      (List.range (count r .comm)).map (.halt .comm) ++
        (List.range r.hndl.cnt).map .close ++ [.kill] := by
  simp [shutdown, hcli, hsw, hproto]

theorem shutsDown_iff (hr : Listed r) : ShutsDown r halts ↔ (∀ k, AllSet r halts k) ∧
    (count r .cli = 1 ∨ count r .cli = 0 ∧ count r .sw = 0 ∧ count r .protocol = 0) := by
  constructor
  · rintro ⟨fuel, es, hes, honce, -, -⟩
    have hmem {k : Kind} {i : Nat} (hi : i < count r k) : .halt k i ∈ es := by
      rw [← List.count_pos_iff, honce k i hi]
      exact Nat.one_pos
    obtain ⟨hcomm, ⟨hz, rfl⟩ | ⟨hpos, hcli, hsw, hproto, rfl⟩⟩ := exitHandler_events hr hes
    · have hnone {k : Kind} (hk : k ≠ .comm) : count r k = 0 := by
        by_contra hne
        have h0 := hmem (Nat.pos_of_ne_zero hne)
        simp [hk.symm] at h0
      refine ⟨fun k => ?_, Or.inr ⟨hz, hnone (by decide), hnone (by decide)⟩⟩
      by_cases hk : k = .comm
      · rw [hk]
        exact hcomm
      · intro i hi
        rw [hnone hk] at hi
        cases hi
    · have hone : count r .cli = 1 := by
        by_contra hne
        have h1 := hmem (show 1 < count r .cli by omega)
        simp at h1
      refine ⟨fun k => ?_, Or.inl hone⟩
      cases k with
      | comm => exact hcomm
      | cli =>
        intro i hi
        obtain rfl : i = 0 := by omega
        exact hcli
      | sw => exact hsw
      | protocol => exact hproto
  · rintro ⟨hset, hcli | ⟨hcli, hsw, hproto⟩⟩
    · apply shutsDown_of_shutdown
      rw [shutdown_one hcli]
      exact exitHandler_one hr hset hcli
    · apply shutsDown_of_shutdown
      rw [shutdown_bare hcli hsw hproto]
      exact exitHandler_bare hr (hset .comm) hcli

theorem cliLoop_set (hr : Listed r) (hset : ∀ k, AllSet r halts k) (fuel loop : Nat) :
    cliLoop r halts fuel loop = .error .running ∨ ∃ es, cliLoop r halts fuel loop = .ok es := by
  induction fuel generalizing loop with
  | zero => exact Or.inl rfl
  | succ fuel ih =>
    rw [cliLoop]
    split
    · next hlt =>
      rw [hr.haltAt halts hlt, hset .cli loop hlt, haltAll_set hr (hset .sw),
        haltAll_set hr (hset .protocol)]
      obtain hrest | ⟨rest, hrest⟩ := ih (count r .protocol + 1)
      · rw [hrest]
        exact Or.inl rfl
      · rw [hrest]
        exact Or.inr ⟨_, rfl⟩
    · exact Or.inr ⟨[], rfl⟩

theorem noNullHalt_set (hr : Listed r) (hset : ∀ k, AllSet r halts k) : NoNullHalt r halts := by
  intro fuel h
  rw [exitHandler, if_neg Bool.false_ne_true, haltAll_set hr (hset .comm)] at h
  obtain hrest | ⟨rest, hrest⟩ := cliLoop_set hr hset fuel 0
  · rw [hrest] at h
    cases h
  · rw [hrest] at h
    cases h

theorem noNullHalt_bare (hr : Listed r) (hset : AllSet r halts .comm)
    (hcli : count r .cli = 0) : NoNullHalt r halts := by
  intro fuel h
  rw [exitHandler, if_neg Bool.false_ne_true, haltAll_set hr hset] at h
  cases fuel with
  | zero => cases h
  | succ fuel =>
    rw [cliLoop_done (Nat.le_of_eq hcli)] at h
    cases h

/-- A switch without a halt function is reached from the first CLI module on. -/
theorem nullHalt_sw (hr : Listed r) (hset : AllSet r halts .comm) (hcli : 0 < count r .cli)
    (hsw : ¬ AllSet r halts .sw) : ¬ NoNullHalt r halts := by
  intro h
  refine h 1 ?_
  rw [exitHandler, if_neg Bool.false_ne_true, haltAll_set hr hset, cliLoop, if_pos hcli,
    hr.haltAt halts hcli, haltAll_unset hr hsw]
  cases halts .cli 0 <;> rfl

end LibSwitch.ExitHandler

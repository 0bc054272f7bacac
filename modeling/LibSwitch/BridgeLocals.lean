import LibSwitch.BridgeGrammar

namespace LibSwitch.BridgeLocals

open LibSwitch.PointerTable LibSwitch.CText LibSwitch.ListRuns LibSwitch.Numeral
open LibSwitch.Common LibSwitch.Handlers LibSwitch.BridgeCommands LibSwitch.BridgeGrammar

variable {D : Type} {c : Command} {f : Form} {devs : Table D} {cmd n : CString}
variable {ts : List CString} {l l' : Locals}

/-- The command gets to its device call, with a device or through an entry that holds none. -/
def Acts : Outcome D → Prop
  | .calls _ _ | .absentDev => True
  | .nothing | .loads _ => False

/-- Whatever the locals hold at first, the line leads to the same call of a device or to none. -/
def Determined (devs : Table D) (cmd : CString) : Prop :=
  ∃ o, o ≠ .absentDev ∧ ∀ l, cliCmd devs l cmd = o

def Parses (f : Form) (devCnt : Nat) (ts : List CString) : Prop :=
  ∀ t ∈ ts, f.Takes devCnt t

theorem op_eq_iff (hg : formOf cmd = some f) (v w : CString → Int) :
    f.op v = f.op w ↔ ∀ n ∈ f.args, v n = w n := by
  have hone (a : CString) : (∀ n ∈ [a], v n = w n) ↔ v a = w a := List.forall_mem_singleton
  have htwo (a b : CString) : (∀ n ∈ [a, b], v n = w n) ↔ v a = w a ∧ v b = w b := by
    rw [List.forall_mem_cons, hone]
  rw [formOf] at hg
  split at hg
  · cases hg
    exact BrCall.addBrIf.injEq _ _ _ _ ▸ (htwo _ _).symm
  split at hg
  · cases hg
    exact BrCall.delBrIf.injEq _ _ _ _ ▸ (htwo _ _).symm
  split at hg
  · cases hg
    exact BrCall.addBr.injEq _ _ ▸ (hone _).symm
  split at hg
  · cases hg
    exact BrCall.delBr.injEq _ _ ▸ (hone _).symm
  split at hg
  · cases hg
    exact BrCall.setAge.injEq _ _ _ _ ▸ (htwo _ _).symm
  · cases hg

theorem numberOf_unset (h : Implements c f) (hl : c.options devs ts l = some l')
    (hn : n ∈ f.names) (hts : ∀ t ∈ ts, ¬ n <+: t) : numberOf l' n = numberOf l n := by
  have hrun := (options_iff.mp hl).track
    (fun p l' => (∀ t ∈ p, ¬ n <+: t) → numberOf l' n = numberOf l n) ?_ (p := []) fun _ => rfl
  · exact hrun hts
  · intro p t u u' hu ih hp
    have hpre := ih fun t ht => hp t (List.mem_append_left _ ht)
    obtain ⟨-, rfl⟩ | ⟨m, hm, hmt, v, -, -, rfl⟩ := h.option_iff.mp hu
    · exact hpre
    · have hne : n ≠ m := by
        rintro rfl
        exact hp t (List.mem_append_right _ List.mem_cons_self) hmt
      rw [numberOf_setNumber (h.known m hm) (h.known n hn), if_neg hne, hpre]

theorem numberOf_set (h : Implements c f) (hl : c.options devs ts l = some l')
    (hn : n ∈ f.names) (hts : ∃ t ∈ ts, n <+: t) :
    ∃ t v, lastToken n ts = some t ∧ optionShort t = some v ∧ numberOf l' n = v ∧
      (n = devName → 0 ≤ v ∧ v < devs.cnt) := by
  obtain ⟨u, hu, hnu⟩ := hts
  have hne : (ts.filter fun t => n.isPrefixOf t) ≠ [] :=
    List.ne_nil_of_mem (List.mem_filter.mpr ⟨hu, List.isPrefixOf_iff_prefix.mpr hnu⟩)
  have hlast : lastToken n ts = some _ := List.getLast?_eq_some_getLast hne
  obtain ⟨ht, hp⟩ := lastToken_mem hlast
  obtain hw | ⟨m, hm, hmt, v, hv, hmem⟩ := h.options_isSome.mp ⟨l', hl⟩ _ ht
  · exact absurd hp (h.apart _ hw n hn)
  · obtain rfl := h.name_unique hn hm hp hmt
    exact ⟨_, v, hlast, hv, h.holding hl n hn _ v hlast hv, hmem⟩

theorem run_nothing (h : c.options devs (tokens ' ' cmd) l = none) :
    c.run devs l cmd = .nothing := by
  rw [Command.run, h]

theorem run_acts (h : c.options devs (tokens ' ' cmd) l = some l') :
    c.run devs l cmd = .absentDev ∨ ∃ d, c.run devs l cmd = .calls d (c.op l') := by
  rw [Command.run, h]
  cases hd : deref maxObjects devs l'.devId with
  | none => exact Or.inl (by simp only [hd])
  | some d => exact Or.inr ⟨d, by simp only [hd]⟩

theorem acts_iff (h : Implements c f) (l : Locals) :
    Acts (c.run devs l cmd) ↔ Parses f devs.cnt (tokens ' ' cmd) := by
  rw [Parses, ← h.options_isSome (l := l)]
  cases hl : c.options devs (tokens ' ' cmd) l with
  | none =>
    rw [run_nothing hl]
    exact iff_of_false id (by simp)
  | some l' =>
    refine iff_of_true ?_ ⟨l', rfl⟩
    obtain hr | ⟨d, hr⟩ := run_acts hl <;> rw [hr] <;> trivial

theorem run_determined (h : Implements c f) (hf : Filled maxObjects devs)
    (hg : formOf cmd = some f) (hp : Parses f devs.cnt (tokens ' ' cmd))
    (hc : f.Complete (tokens ' ' cmd)) :
    ∃ o, o ≠ .absentDev ∧ ∀ l, c.run devs l cmd = o := by
  have hread (l : Locals) : ∃ l', c.options devs (tokens ' ' cmd) l = some l' :=
    h.options_isSome.mpr hp
  have hnum {l l' : Locals} (hl : c.options devs (tokens ' ' cmd) l = some l') (n : CString)
      (hn : n ∈ f.names) := numberOf_set h hl hn (hc n hn)
  have hdevmem : devName ∈ f.names := List.mem_cons_self
  obtain ⟨l₀, hl₀⟩ := hread ⟨0, 0, 0, 0⟩
  have hsame {l l' : Locals} (hl : c.options devs (tokens ' ' cmd) l = some l') (n : CString)
      (hn : n ∈ f.names) : numberOf l' n = numberOf l₀ n := by
    obtain ⟨t, v, ht, hv, heq, -⟩ := hnum hl n hn
    obtain ⟨t', v', ht', hv', heq', -⟩ := hnum hl₀ n hn
    rw [ht] at ht'
    cases ht'
    rw [hv] at hv'
    cases hv'
    rw [heq, heq']
  obtain ⟨t, v, -, -, heq, hmem⟩ := hnum hl₀ devName hdevmem
  obtain ⟨d, hd⟩ := Option.isSome_iff_exists.mp ((hf.deref_isSome v).mpr (hmem rfl))
  refine ⟨.calls d (c.op l₀), by simp, ?_⟩
  intro l
  obtain ⟨l', hl⟩ := hread l
  have hdev : l'.devId = v := (hsame hl devName hdevmem).trans heq
  have hop : c.op l' = c.op l₀ := by
    rw [h.op l', h.op l₀, op_eq_iff hg]
    exact fun n hn => hsame hl n (List.mem_cons_of_mem _ hn)
  exact run_calls_iff.mpr ⟨l', hl, by rw [hdev, hd], hop.symm⟩

theorem not_complete (h : ¬ f.Complete ts) : ∃ n ∈ f.names, ∀ t ∈ ts, ¬ n <+: t := by
  by_contra hno
  refine h fun n hn => ?_
  by_contra hnone
  exact hno ⟨n, hn, fun t ht hp => hnone ⟨t, ht, hp⟩⟩

/-- Without one of its options, a line that is read to its end calls what the locals hold. -/
theorem run_not_determined (h : Implements c f) (hg : formOf cmd = some f)
    (hp : Parses f devs.cnt (tokens ' ' cmd)) (hc : ¬ f.Complete (tokens ' ' cmd)) :
    ¬ ∃ o, o ≠ .absentDev ∧ ∀ l, c.run devs l cmd = o := by
  rintro ⟨o, ho, hall⟩
  obtain ⟨n, hn, hnone⟩ := not_complete hc
  -- the parser leaves what the local held, whatever the line does to the others
  have hkept (v : Int) : ∃ l' d, numberOf l' n = v ∧ deref maxObjects devs l'.devId = some d ∧
      o = .calls d (c.op l') := by
    obtain ⟨l', hl⟩ := (h.options_isSome (l := setNumber n v ⟨0, 0, 0, 0⟩)).mpr hp
    have hnum := numberOf_unset h hl hn hnone
    rw [numberOf_setNumber (h.known n hn) (h.known n hn), if_pos rfl] at hnum
    obtain hr | ⟨d, hr⟩ := run_acts hl
    · exact absurd ((hall _).symm.trans hr) ho
    · obtain ⟨l'', hl', hd, hop⟩ := run_calls_iff.mp hr
      rw [hl] at hl'
      cases hl'
      exact ⟨l', d, hnum, hd, (hall _).symm.trans hr⟩
  obtain ⟨l₁, d₁, hv₁, hd₁, ho₁⟩ := hkept (-1)
  obtain ⟨l₂, d₂, hv₂, -, ho₂⟩ := hkept 0
  obtain rfl | harg := List.mem_cons.mp hn
  · have hdev : l₁.devId = -1 := hv₁
    rw [hdev, deref, read_outside devs (by decide)] at hd₁
    cases hd₁
  · obtain ⟨-, hop⟩ := Outcome.calls.inj (ho₁.symm.trans ho₂)
    rw [h.op l₁, h.op l₂, op_eq_iff hg] at hop
    have heq := hop n harg
    rw [hv₁, hv₂] at heq
    cases heq

theorem run_unread (h : Implements c f) (hp : ¬ Parses f devs.cnt (tokens ' ' cmd))
    (l : Locals) : c.run devs l cmd = .nothing := by
  cases hl : c.options devs (tokens ' ' cmd) l with
  | none => exact run_nothing hl
  | some l' => exact absurd (h.options_isSome.mp ⟨l', hl⟩) hp

theorem determined_of_complete (hf : Filled maxObjects devs) (hg : formOf cmd = some f)
    (hc : f.Complete (tokens ' ' cmd)) : Determined devs cmd := by
  obtain ⟨c, himp, hrun⟩ := cliCmd_routed hg devs
  simp only [Determined, hrun]
  by_cases hp : Parses f devs.cnt (tokens ' ' cmd)
  · exact run_determined himp hf hg hp hc
  · exact ⟨.nothing, by simp, fun l => run_unread himp hp l⟩

/-- A bridge command acts on what its line gives alone exactly when the line gives all options
of the command or is not read to its end: the locals that no option sets are not initialised. -/
theorem fromLine_iff (hf : Filled maxObjects devs) (hg : formOf cmd = some f) :
    ((∀ l, Acts (cliCmd devs l cmd) → f.Complete (tokens ' ' cmd)) ↔
      f.Complete (tokens ' ' cmd) ∨ ¬ Parses f devs.cnt (tokens ' ' cmd)) ∧
    (Determined devs cmd ↔
      f.Complete (tokens ' ' cmd) ∨ ¬ Parses f devs.cnt (tokens ' ' cmd)) := by
  obtain ⟨c, hc, hrun⟩ := cliCmd_routed hg devs
  simp only [Determined, hrun, acts_iff hc]
  constructor
  · constructor
    · intro h
      by_cases hp : Parses f devs.cnt (tokens ' ' cmd)
      · exact Or.inl (h ⟨0, 0, 0, 0⟩ hp)
      · exact Or.inr hp
    · rintro (hcomp | hno) - hp
      · exact hcomp
      · exact absurd hp hno
  · constructor
    · intro h
      by_contra hno
      obtain ⟨hcomp, hp⟩ := not_or.mp hno
      exact run_not_determined hc hg (not_not.mp hp) hcomp h
    · rintro (hcomp | hno)
      · obtain ⟨o, ho, hall⟩ := determined_of_complete hf hg hcomp
        exact ⟨o, ho, fun l => (hrun l).symm.trans (hall l)⟩
      · exact ⟨.nothing, by simp, fun l => run_unread hc hno l⟩

theorem addBrIfLine_fromLine :
    (∀ l, Acts (cliCmd (ofList [()]) l addBrIfLine) →
      addBrIfForm.Complete (tokens ' ' addBrIfLine)) ∧
    Determined (ofList [()]) addBrIfLine := by
  have hcomplete : addBrIfForm.Complete (tokens ' ' addBrIfLine) :=
    show ∀ n ∈ addBrIfForm.names, ∃ t ∈ tokens ' ' addBrIfLine, n <+: t by decide
  have hf : Filled maxObjects (ofList [()]) := filled_ofList (by decide)
  have hform : formOf addBrIfLine = some addBrIfForm := rfl
  obtain ⟨hacts, hdet⟩ := fromLine_iff hf hform
  exact ⟨hacts.mpr (Or.inl hcomplete), hdet.mpr (Or.inl hcomplete)⟩

/-- With one device, `add-br` alone calls it where the stack holds a zero. -/
theorem bareWord_calls :
    (¬ ∀ l, Acts (cliCmd (ofList [()]) l "add-br".toList) →
      addBrForm.Complete (tokens ' ' "add-br".toList)) ∧
    ¬ Determined (ofList [()]) "add-br".toList := by
  constructor
  · intro h
    obtain ⟨t, ht, hdev⟩ := h ⟨0, 0, 0, 0⟩ trivial devName (by decide)
    have hmem : t ∈ ["add-br".toList] := ht
    rw [List.mem_singleton.mp hmem] at hdev
    exact absurd hdev (by decide)
  · rintro ⟨o, -, hall⟩
    have hzero : cliCmd (ofList [()]) ⟨0, 0, 0, 0⟩ "add-br".toList = .calls () (.addBr 0) := rfl
    have hone : cliCmd (ofList [()]) ⟨0, 1, 0, 0⟩ "add-br".toList = .calls () (.addBr 1) := rfl
    cases hzero.symm.trans ((hall _).trans ((hall _).symm.trans hone))

end LibSwitch.BridgeLocals

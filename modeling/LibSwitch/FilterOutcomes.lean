import Mathlib.Data.List.TakeWhile
import LibSwitch.FilterBounds

namespace LibSwitch.FilterOutcomes

open LibSwitch.PointerTable LibSwitch.ByteBuffer LibSwitch.CText LibSwitch.ListRuns
open LibSwitch.Numeral LibSwitch.Address LibSwitch.Common LibSwitch.FlowTypes LibSwitch.FlowFilter
open LibSwitch.FilterWords LibSwitch.FilterGrammar LibSwitch.FilterSteps
open LibSwitch.FilterActions LibSwitch.FilterBounds

variable {devCnt : Nat} {p ts : List CString} {t : CString} {s s' : Locals}
variable {tuples : Vector Tuple 25} {actions : Vector Action 25}

def Takes (devCnt : Nat) (p : List CString) (t : CString) : Prop :=
  Passes devCnt p t ∧ ¬ TupleOver p t

def Acts (p : List CString) (t : CString) : Prop := ActionToken t ∧ ¬ ActionOver p t

/-- The lines with which `fib_cmd_filter` gets to the device call. -/
structure Accepted (devCnt : Nat) (ts : List CString) : Prop where
  takes : Throughout (Takes devCnt) [] (matchPart ts)
  command : ∃ u ∈ matchPart ts, IsCommand u
  acts : Throughout Acts [] (actionPart ts)

/-- A `dl-src` option in its place, with room for a tuple, whose value is no address. -/
structure NullAt (p : List CString) (t : CString) : Prop where
  fills : FillsTuple p t
  room : (p.filterMap (place chain)).length < 25
  srcMac : "dl-src".toList <+: t
  malformed : ∃ v, optionValue t = some v ∧ etherAton v = none

/-- The locals while the tuples have room. -/
def Within (devCnt : Nat) (p : List CString) (s : Locals) : Prop :=
  Sees (devCnt + 1) s p ∧ s.tupleCnt ≤ 25

theorem within_initial (devCnt : Nat) (tuples : Vector Tuple 25) (actions : Vector Action 25) :
    Within devCnt [] (initialLocals tuples actions) :=
  ⟨sees_initial tuples actions, Nat.zero_le 25⟩

theorem matchStep_within (h : MatchStep devCnt t s s') (hs : Within devCnt p s) :
    Within devCnt (p ++ [t]) s' := by
  have hopt := matchOption_iff.mpr h
  cases option_reads hs.1 hs.2 h.not_marker with
  | overrun hr _ | stops _ hr _ _ _ =>
    rw [hr] at hopt
    cases hopt
  | passes u hr _ _ hu hle =>
    rw [hr] at hopt
    cases hopt
    exact ⟨hu, hle⟩

theorem matchStep_takes (hm : isMarker t = false) (hs : Within devCnt p s) :
    (∃ s', MatchStep devCnt t s s') ↔ Takes devCnt p t := by
  simp only [← matchOption_iff]
  cases option_reads hs.1 hs.2 hm with
  | overrun hr hover =>
    rw [hr]
    exact iff_of_false (by simp) fun h => h.2 hover
  | stops e hr _ _ hpass =>
    rw [hr]
    exact iff_of_false (by simp) fun h => hpass h.1
  | passes u hr hover hpass _ _ => exact iff_of_true ⟨u, hr⟩ ⟨hpass, hover⟩

theorem matchPart_not_marker (ts : List CString) : ∀ t ∈ matchPart ts, isMarker t = false := by
  intro t ht
  simpa using List.mem_takeWhile_imp ht

theorem matchSteps_takes (hts : ∀ t ∈ ts, isMarker t = false) (hs : Within devCnt p s) :
    (∃ s', Steps (MatchStep devCnt) ts s s') ↔ Throughout (Takes devCnt) p ts :=
  exists_steps_iff (isMarker · = false) (Within devCnt) (fun _ _ _ => matchStep_takes)
    (fun _ _ _ _ => matchStep_within) hts hs

theorem matchSteps_within (h : Steps (MatchStep devCnt) ts s s') (hs : Within devCnt p s) :
    Within devCnt (p ++ ts) s' :=
  h.track (Within devCnt) (fun _ _ _ _ => matchStep_within) hs

theorem actionStep_acts (hs : PortsSent actions p s) :
    (∃ s', ActionStep t s s') ↔ Acts p t := by
  have hcnt : ActionOver p t → ¬ s.actionCnt < 25 := by
    rintro ⟨-, hover⟩
    rw [hs.actionCnt]
    omega
  constructor
  · rintro ⟨s', h⟩
    obtain ⟨htoken, hlt⟩ := actionStep_token h
    exact ⟨htoken, fun hover => hcnt hover hlt⟩
  · rintro ⟨htoken, hover⟩
    have hlt : s.actionCnt < 25 := by
      rw [hs.actionCnt]
      by_contra hge
      exact hover ⟨actionToken_starts htoken, by omega⟩
    obtain ⟨-, s', hok, -⟩ | ⟨hno, -⟩ := actionOption_cases t hlt
    · exact ⟨s', actionOption_iff.mp hok⟩
    · exact absurd htoken hno

theorem actionSteps_acts (hs : PortsSent actions p s) :
    (∃ s', Steps ActionStep ts s s') ↔ Throughout Acts p ts :=
  exists_steps_iff (fun _ => True) (PortsSent actions) (fun _ _ _ _ => actionStep_acts)
    (fun _ _ _ _ => portsSent_step) (fun _ _ => trivial) hs

/-- The loops end with a command to be carried out on the lines of the grammar. -/
theorem accepted_iff (devCnt : Nat) (ts : List CString) (tuples : Vector Tuple 25)
    (actions : Vector Action 25) :
    (∃ s', filterLoops devCnt ts (initialLocals tuples actions) = .ok s' ∧ s'.flowCmd.isSome) ↔
      Accepted devCnt ts := by
  have hw := within_initial devCnt tuples actions
  have hmatch := matchSteps_takes (matchPart_not_marker ts) hw
  simp only [filterLoops_iff]
  constructor
  · rintro ⟨s', s₁, hsteps, hactions, hcmd⟩
    obtain ⟨hframe, hcnt⟩ := matchSteps_frame hsteps
    have hsees := (matchSteps_within hsteps hw).1
    rw [List.nil_append] at hsees
    exact ⟨hmatch.mp ⟨s₁, hsteps⟩, hsees.flowCmd.mp hcmd,
      (actionSteps_acts (portsSent_nil hframe hcnt)).mp ⟨s', hactions⟩⟩
  · rintro ⟨htakes, hcmd, hacts⟩
    obtain ⟨s₁, hsteps⟩ := hmatch.mpr htakes
    obtain ⟨hframe, hcnt⟩ := matchSteps_frame hsteps
    have hsees := (matchSteps_within hsteps hw).1
    rw [List.nil_append] at hsees
    obtain ⟨s', hactions⟩ := (actionSteps_acts (portsSent_nil hframe hcnt)).mpr hacts
    exact ⟨s', s₁, hsteps, hactions, hsees.flowCmd.mpr hcmd⟩

theorem parse_null_iff {f : MatchField} (hf : f ∈ matchFields) (text : CString) (v : Value) :
    f.parse text v = .error .nullAddr ↔ f.word = "dl-src".toList ∧ etherAton text = none := by
  obtain hsrc | hsrc := Classical.em (f.word = "dl-src".toList)
  · rw [parse_src hf hsrc, parseMac]
    cases etherAton text <;> simp [hsrc]
  · refine iff_of_false ?_ fun h => hsrc h.1
    obtain h | h | h | ⟨-, h⟩ | ⟨h, -⟩ := parse_cases hf
    · rw [h]
      simp [parseShort]
    · rw [h]
      simp [parseHex]
    · rw [h, parseIp]
      cases inetPton text <;> simp
    · rw [h, parseMac]
      cases etherAton text <;> simp
    · exact absurd h hsrc

theorem matchField_null_iff {f : MatchField} (hf : f ∈ matchFields) :
    matchField f t s = .error .nullAddr ↔ f.required.any (· != s.rqdField) = false ∧
      s.tupleCnt < 25 ∧ f.word = "dl-src".toList ∧
        ∃ v, optionValue t = some v ∧ etherAton v = none := by
  rw [matchField]
  cases hreq : f.required.any (· != s.rqdField) with
  | true => simp
  | false =>
    rw [if_neg Bool.false_ne_true]
    by_cases hcnt : s.tupleCnt < 25
    · rw [dif_pos hcnt]
      simp only [hcnt, true_and]
      cases hv : optionValue t with
      | none => simp
      | some text =>
        have hnull := parse_null_iff hf text s.tuples[s.tupleCnt].value
        simp only [Option.some.injEq, exists_eq_left']
        rw [← hnull]
        cases f.parse text s.tuples[s.tupleCnt].value <;> simp
    · rw [dif_neg hcnt]
      exact iff_of_false (by simp) fun h => hcnt h.2.1

theorem matchOption_null_iff (hs : Within devCnt p s) :
    matchOption devCnt t s = .error .nullAddr ↔ NullAt p t := by
  by_cases hm : IsMatch chain t
  · obtain ⟨k, f, hk, hname⟩ := exists_field hm
    have hf := List.mem_of_getElem? hk
    have horder := required_iff hk (lastPlace chain p)
    rw [← hs.1.rqdField] at horder
    rw [matchOption_field devCnt s hf hname, map_error_iff (by simp), matchField_null_iff hf,
      horder, hs.1.flowCmd, hs.1.tupleCnt]
    constructor
    · rintro ⟨hc, ho, hcnt, hsrc, hv⟩
      refine ⟨⟨hm, hc, ?_⟩, hcnt, hsrc ▸ hname, hv⟩
      intro k' hk'
      rw [place_field hk hname] at hk'
      cases hk'
      exact ho
    · rintro ⟨hfills, hcnt, hsrc, hv⟩
      exact ⟨hfills.command, hfills.chained k (place_field hk hname), hcnt,
        word_unique (word_mem_words hf) (by decide) hname hsrc, hv⟩
  · exact iff_of_false (matchOption_ne_error (by simp) hm) fun h => hm h.fills.isMatch

theorem matchLoop_null_iff (hs : Within devCnt p s) :
    matchLoop devCnt ts s = .error .nullAddr ↔ Arises (Takes devCnt) NullAt p (matchPart ts) := by
  induction ts generalizing s p with
  | nil => exact iff_of_false (by simp [matchLoop]) not_arises_nil
  | cons t ts ih =>
    cases hm : isMarker t with
    | true =>
      rw [(matchPart_marker hm ts).1, matchLoop,
        matchOption_marker devCnt s (List.isPrefixOf_iff_prefix.mp hm)]
      refine iff_of_false ?_ not_arises_nil
      cases s.flowCmd <;> simp
    | false =>
      have hnull := matchOption_null_iff (t := t) hs
      have htakes := matchStep_takes hm hs
      simp only [← matchOption_iff] at htakes
      rw [(matchPart_cons hm ts).1, matchLoop, arises_cons, ← hnull, ← htakes]
      cases hopt : matchOption devCnt t s with
      | error e => simp
      | ok r =>
        cases r with
        | none =>
          rw [(matchOption_none_iff.mp hopt).1] at hm
          cases hm
        | some u =>
          simp only [reduceCtorEq, false_or, Except.ok.injEq, Option.some.injEq, exists_eq',
            true_and]
          exact ih (matchStep_within (matchOption_iff.mp hopt) hs)

theorem actionLoop_ne_null : actionLoop ts s ≠ .error .nullAddr := by
  induction ts generalizing s with
  | nil => simp [actionLoop]
  | cons t ts ih =>
    rw [actionLoop]
    cases hopt : actionOption t s with
    | ok u => exact ih
    | error e =>
      rintro h
      cases h
      rw [actionOption] at hopt
      split at hopt
      · split at hopt <;> cases hopt
      · split at hopt
        · split at hopt
          · cases hv : optionValue t <;> rw [hv] at hopt <;> cases hopt
          · cases hopt
        · cases hopt

theorem filterLoops_null_iff (devCnt : Nat) (ts : List CString) (tuples : Vector Tuple 25)
    (actions : Vector Action 25) :
    filterLoops devCnt ts (initialLocals tuples actions) = .error .nullAddr ↔
      Arises (Takes devCnt) NullAt [] (matchPart ts) := by
  rw [← matchLoop_null_iff (within_initial devCnt tuples actions), filterLoops]
  cases matchLoop devCnt ts (initialLocals tuples actions) with
  | error e => simp
  | ok r => exact iff_of_false actionLoop_ne_null (by simp)

/-- A line is stopped in one of its loops, has no command, or is of the grammar. -/
theorem fibCmdFilter_cases {D : Type} (flwDevs : Table D) (tuples : Vector Tuple 25)
    (actions : Vector Action 25) (cmd : CString) :
    (∃ e, filterLoops flwDevs.cnt (tokens ' ' cmd) (initialLocals tuples actions) = .error e ∧
        fibCmdFilter flwDevs tuples actions cmd = .stops e) ∨
      fibCmdFilter flwDevs tuples actions cmd = .nothing ∨
      Accepted flwDevs.cnt (tokens ' ' cmd) ∧
        (fibCmdFilter flwDevs tuples actions cmd = .absentDev ∨
          ∃ d c, fibCmdFilter flwDevs tuples actions cmd = .calls d c) := by
  rw [← accepted_iff _ _ tuples actions, fibCmdFilter]
  cases hloops : filterLoops flwDevs.cnt (tokens ' ' cmd) (initialLocals tuples actions) with
  | error e => exact Or.inl ⟨e, rfl, rfl⟩
  | ok s =>
    dsimp only
    rw [deviceCall]
    cases hcmd : s.flowCmd with
    | none => exact Or.inr (Or.inl rfl)
    | some op =>
      refine Or.inr (Or.inr ⟨⟨s, rfl, by rw [hcmd]; rfl⟩, ?_⟩)
      cases deref maxObjects flwDevs s.devId with
      | none => exact Or.inl rfl
      | some d => exact Or.inr ⟨d, _, rfl⟩

def zeroTuples : Vector Tuple 25 := Vector.replicate 25 ⟨.inPort, zeros 16⟩

def zeroActions : Vector Action 25 := Vector.replicate 25 ⟨.drop, zeros 16⟩

end LibSwitch.FilterOutcomes

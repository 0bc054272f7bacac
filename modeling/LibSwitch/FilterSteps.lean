import LibSwitch.ListRuns
import LibSwitch.FilterGrammar
import LibSwitch.FilterRule

namespace LibSwitch.FilterSteps

open LibSwitch.PointerTable LibSwitch.ByteBuffer LibSwitch.CText LibSwitch.ListRuns
open LibSwitch.Numeral LibSwitch.Common LibSwitch.FlowTypes LibSwitch.FlowFilter
open LibSwitch.FilterWords LibSwitch.FilterGrammar LibSwitch.FilterRule

variable {D : Type}

/-- What one option of the match loop does to the locals when the loop goes on. -/
inductive MatchStep (devCnt : Nat) (t : CString) (s : Locals) : Locals → Prop
  | filter (h : "filter".toList <+: t) : MatchStep devCnt t s s
  | command (op : FlwOp) (h : opWord op <+: t) : MatchStep devCnt t s { s with flowCmd := some op }
  | dev (hcmd : s.flowCmd.isSome) (h : "dev".toList <+: t) (v : Int)
      (hv : optionShort t = some v) (hmem : 0 ≤ v ∧ v ≤ devCnt) :
      MatchStep devCnt t s { s with devId := v }
  | tbl (hcmd : s.flowCmd.isSome) (h : "tbl".toList <+: t) (v : Int)
      (hv : optionShort t = some v) (h0 : 0 ≤ v) : MatchStep devCnt t s { s with tblId := v }
  | field (hcmd : s.flowCmd.isSome) (f : MatchField) (hf : f ∈ matchFields) (h : f.word <+: t)
      (hreq : f.required.any (· != s.rqdField) = false) (hcnt : s.tupleCnt < 25)
      (text : CString) (htext : optionValue t = some text) (v : Value)
      (hv : f.parse text s.tuples[s.tupleCnt].value = .ok v) :
      MatchStep devCnt t s (stored f v s hcnt)

variable {devCnt : Nat} {t : CString} {s s' : Locals}

theorem word_cases (t : CString) :
    "filter".toList <+: t ∨ (∃ op, opWord op <+: t) ∨ "dev".toList <+: t ∨ "tbl".toList <+: t ∨
      (∃ f ∈ matchFields, f.word <+: t) ∨ "action".toList <+: t ∨ ∀ w ∈ words, ¬ w <+: t := by
  by_cases h : ∃ w ∈ words, w <+: t
  · obtain ⟨w, hw, ht⟩ := h
    simp only [words, List.mem_append, List.mem_cons, List.not_mem_nil, or_false] at hw
    obtain ((rfl | rfl | rfl | rfl | rfl | rfl) | hw) | rfl := hw
    · exact Or.inl ht
    · exact Or.inr (Or.inl ⟨.add, ht⟩)
    · exact Or.inr (Or.inl ⟨.delete, ht⟩)
    · exact Or.inr (Or.inl ⟨.lookup, ht⟩)
    · exact Or.inr (Or.inr (Or.inl ht))
    · exact Or.inr (Or.inr (Or.inr (Or.inl ht)))
    · obtain ⟨k, f, hk, hname⟩ := exists_field ⟨w, hw, ht⟩
      exact Or.inr (Or.inr (Or.inr (Or.inr (Or.inl ⟨f, List.mem_of_getElem? hk, hname⟩))))
    · exact Or.inr (Or.inr (Or.inr (Or.inr (Or.inr (Or.inl ht)))))
  · refine Or.inr (Or.inr (Or.inr (Or.inr (Or.inr (Or.inr ?_)))))
    exact fun w hw ht => h ⟨w, hw, ht⟩

theorem matchField_iff {f : MatchField} :
    matchField f t s = .ok s' ↔ f.required.any (· != s.rqdField) = false ∧
      ∃ (hcnt : s.tupleCnt < 25) (text : CString) (v : Value), optionValue t = some text ∧
        f.parse text s.tuples[s.tupleCnt].value = .ok v ∧ s' = stored f v s hcnt := by
  rw [matchField]
  constructor
  · intro h
    split at h
    · cases h
    · next hreq =>
      rw [Bool.not_eq_true] at hreq
      split at h
      · next hcnt =>
        cases htext : optionValue t with
        | none =>
          rw [htext] at h
          cases h
        | some text =>
          rw [htext] at h
          cases hv : f.parse text s.tuples[s.tupleCnt].value with
          | error e =>
            simp only [hv] at h
            cases h
          | ok v =>
            simp only [hv] at h
            cases h
            exact ⟨hreq, hcnt, text, v, rfl, hv, rfl⟩
      · cases h
  · rintro ⟨hreq, hcnt, text, v, htext, hv, rfl⟩
    rw [hreq, if_neg Bool.false_ne_true, dif_pos hcnt, htext]
    simp only [hv]
    rfl

theorem commanded_iff {r : Except Stop (Option Locals)} {s' : Locals} :
    (if s.flowCmd.isNone then .error .out else r) = .ok (some s') ↔
      s.flowCmd.isSome ∧ r = .ok (some s') := by
  cases s.flowCmd <;> simp

theorem map_some_iff {r : Except Stop Locals} {s' : Locals} :
    r.map some = .ok (some s') ↔ r = .ok s' := by
  cases r <;> simp [Except.map]

theorem devOption_iff : devOption devCnt t s = .ok s' ↔
    ∃ v, optionShort t = some v ∧ (0 ≤ v ∧ v ≤ devCnt) ∧ s' = { s with devId := v } := by
  rw [devOption]
  cases hv : optionShort t with
  | none => simp
  | some v =>
    simp only [Option.some.injEq, exists_eq_left']
    split
    · simp only [reduceCtorEq, false_iff]
      omega
    · next h =>
      have hmem : 0 ≤ v ∧ v ≤ devCnt := by omega
      simp only [Except.ok.injEq, hmem, and_self, true_and]
      exact eq_comm

theorem tblOption_iff : tblOption t s = .ok s' ↔
    ∃ v, optionShort t = some v ∧ 0 ≤ v ∧ s' = { s with tblId := v } := by
  rw [tblOption]
  cases hv : optionShort t with
  | none => simp
  | some v =>
    simp only [Option.some.injEq, exists_eq_left']
    split
    · simp only [reduceCtorEq, false_iff]
      omega
    · next h =>
      have h0 : 0 ≤ v := by omega
      simp only [Except.ok.injEq, h0, true_and]
      exact eq_comm

theorem matchOption_of_step (h : MatchStep devCnt t s s') :
    matchOption devCnt t s = .ok (some s') := by
  cases h with
  | filter h => exact matchOption_filter devCnt s h
  | command op h => exact matchOption_opWord h
  | dev hcmd h v hv hmem =>
    rw [matchOption_dev devCnt s h, commanded_iff, map_some_iff, devOption_iff]
    exact ⟨hcmd, v, hv, hmem, rfl⟩
  | tbl hcmd h v hv h0 =>
    rw [matchOption_tbl devCnt s h, commanded_iff, map_some_iff, tblOption_iff]
    exact ⟨hcmd, v, hv, h0, rfl⟩
  | field hcmd f hf h hreq hcnt text htext v hv =>
    rw [matchOption_field devCnt s hf h, commanded_iff, map_some_iff, matchField_iff]
    exact ⟨hcmd, hreq, hcnt, text, v, htext, hv, rfl⟩

theorem step_of_matchOption (h : matchOption devCnt t s = .ok (some s')) :
    MatchStep devCnt t s s' := by
  obtain ht | ⟨op, ht⟩ | ht | ht | ⟨f, hf, ht⟩ | ht | ht := word_cases t
  · rw [matchOption_filter devCnt s ht] at h
    cases h
    exact .filter ht
  · rw [matchOption_opWord ht] at h
    cases h
    exact .command op ht
  · rw [matchOption_dev devCnt s ht, commanded_iff, map_some_iff, devOption_iff] at h
    obtain ⟨hcmd, v, hv, hmem, rfl⟩ := h
    exact .dev hcmd ht v hv hmem
  · rw [matchOption_tbl devCnt s ht, commanded_iff, map_some_iff, tblOption_iff] at h
    obtain ⟨hcmd, v, hv, h0, rfl⟩ := h
    exact .tbl hcmd ht v hv h0
  · rw [matchOption_field devCnt s hf ht, commanded_iff, map_some_iff, matchField_iff] at h
    obtain ⟨hcmd, hreq, hcnt, text, v, htext, hv, rfl⟩ := h
    exact .field hcmd f hf ht hreq hcnt text htext v hv
  · rw [matchOption_marker devCnt s ht, commanded_iff] at h
    cases h.2
  · rw [matchOption_unknown devCnt s ht] at h
    cases h

theorem matchOption_iff :
    matchOption devCnt t s = .ok (some s') ↔ MatchStep devCnt t s s' :=
  ⟨step_of_matchOption, matchOption_of_step⟩

theorem MatchStep.not_marker (h : MatchStep devCnt t s s') : isMarker t = false := by
  have hno {w : CString} (hw : w ∈ words) (hwt : w <+: t) (hne : "action".toList ≠ w) :
      isMarker t = false := by
    rw [isMarker, Bool.eq_false_iff, ne_eq, List.isPrefixOf_iff_prefix]
    exact not_starts hw hwt (by decide) hne
  cases h with
  | filter h => exact hno (by decide) h (by decide)
  | command op h => cases op <;> exact hno (by decide) h (by decide)
  | dev _ h => exact hno (by decide) h (by decide)
  | tbl _ h => exact hno (by decide) h (by decide)
  | field _ f hf h =>
    exact hno (word_mem_words hf) h (chain_not_keyword f.word (word_mem_chain hf)).2.2.2.2.2.2

theorem matchOption_none_iff :
    matchOption devCnt t s = .ok none ↔ isMarker t = true ∧ s.flowCmd.isSome := by
  constructor
  · intro h
    have hnot {r : Except Stop Locals} : ¬ (if s.flowCmd.isNone then .error .out
        else r.map some : Except Stop (Option Locals)) = .ok none := by
      cases s.flowCmd <;> cases r <;> simp [Except.map]
    obtain ht | ⟨op, ht⟩ | ht | ht | ⟨f, hf, ht⟩ | ht | ht := word_cases t
    · rw [matchOption_filter devCnt s ht] at h
      cases h
    · rw [matchOption_opWord ht] at h
      cases h
    · rw [matchOption_dev devCnt s ht] at h
      exact absurd h hnot
    · rw [matchOption_tbl devCnt s ht] at h
      exact absurd h hnot
    · rw [matchOption_field devCnt s hf ht] at h
      exact absurd h hnot
    · rw [matchOption_marker devCnt s ht] at h
      refine ⟨List.isPrefixOf_iff_prefix.mpr ht, ?_⟩
      cases hcmd : s.flowCmd with
      | none =>
        rw [hcmd] at h
        cases h
      | some op => rfl
    · rw [matchOption_unknown devCnt s ht] at h
      cases h
  · rintro ⟨hm, hcmd⟩
    rw [matchOption_marker devCnt s (List.isPrefixOf_iff_prefix.mp hm), if_commanded s hcmd]

theorem matchLoop_marker_iff {ts rest : List CString} (hm : isMarker t = true) :
    matchLoop devCnt (t :: ts) s = .ok (s', rest) ↔ s.flowCmd.isSome ∧ s' = s ∧ rest = ts := by
  rw [matchLoop]
  constructor
  · intro h
    cases hopt : matchOption devCnt t s with
    | error e =>
      rw [hopt] at h
      cases h
    | ok r =>
      cases r with
      | none =>
        rw [hopt] at h
        cases h
        exact ⟨(matchOption_none_iff.mp hopt).2, rfl, rfl⟩
      | some u =>
        have hno := (matchOption_iff.mp hopt).not_marker
        rw [hm] at hno
        cases hno
  · rintro ⟨hcmd, rfl, rfl⟩
    rw [matchOption_none_iff.mpr ⟨hm, hcmd⟩]

theorem matchLoop_cons_iff {ts rest : List CString} (hm : isMarker t = false) :
    matchLoop devCnt (t :: ts) s = .ok (s', rest) ↔
      ∃ u, MatchStep devCnt t s u ∧ matchLoop devCnt ts u = .ok (s', rest) := by
  rw [matchLoop]
  constructor
  · intro h
    cases hopt : matchOption devCnt t s with
    | error e =>
      rw [hopt] at h
      cases h
    | ok r =>
      cases r with
      | none =>
        have hyes := (matchOption_none_iff.mp hopt).1
        rw [hm] at hyes
        cases hyes
      | some u =>
        rw [hopt] at h
        exact ⟨u, matchOption_iff.mp hopt, h⟩
  · rintro ⟨u, hstep, h⟩
    rw [matchOption_iff.mpr hstep]
    exact h

/-- The match loop takes one step for each token before the marker. -/
theorem matchLoop_iff {ts rest : List CString} :
    matchLoop devCnt ts s = .ok (s', rest) ↔
      Steps (MatchStep devCnt) (matchPart ts) s s' ∧ rest = actionPart ts ∧
        (∀ t ∈ ts, isMarker t = true → s'.flowCmd.isSome) := by
  induction ts generalizing s with
  | nil =>
    rw [matchLoop, Except.ok.injEq, Prod.mk.injEq]
    constructor
    · rintro ⟨rfl, rfl⟩
      exact ⟨.nil _, rfl, List.forall_mem_nil _⟩
    · rintro ⟨h, rfl, -⟩
      exact ⟨(steps_nil_iff.mp h).symm, rfl⟩
  | cons t ts ih =>
    cases hm : isMarker t with
    | true =>
      obtain ⟨hpart, hact⟩ := matchPart_marker hm ts
      rw [matchLoop_marker_iff hm, hpart, hact, steps_nil_iff]
      constructor
      · rintro ⟨hcmd, rfl, rfl⟩
        exact ⟨rfl, rfl, fun _ _ _ => hcmd⟩
      · rintro ⟨rfl, rfl, hcmd⟩
        exact ⟨hcmd t List.mem_cons_self hm, rfl, rfl⟩
    | false =>
      obtain ⟨hpart, hact⟩ := matchPart_cons hm ts
      rw [matchLoop_cons_iff hm, hpart, hact, steps_cons_iff]
      constructor
      · rintro ⟨u, hstep, h⟩
        obtain ⟨hsteps, hrest, hcmd⟩ := ih.mp h
        refine ⟨⟨u, hstep, hsteps⟩, hrest, ?_⟩
        rw [List.forall_mem_cons]
        exact ⟨fun hyes => absurd hyes (by rw [hm]; exact Bool.false_ne_true), hcmd⟩
      · rintro ⟨⟨u, hstep, hsteps⟩, hrest, hcmd⟩
        exact ⟨u, hstep, ih.mpr ⟨hsteps, hrest, fun v hv => hcmd v (List.mem_cons_of_mem t hv)⟩⟩

/-- What one option of the action loop does to the locals. -/
inductive ActionStep (t : CString) (s : Locals) : Locals → Prop
  | drop (h : "drop".toList <+: t) (hcnt : s.actionCnt < 25) :
      ActionStep t s { s with
        actions := s.actions.set s.actionCnt ⟨.drop, s.actions[s.actionCnt].value⟩ }
  | outPort (h : "out-port".toList <+: t) (hcnt : s.actionCnt < 25) (text : CString)
      (htext : optionValue t = some text) :
      ActionStep t s
        (sent ⟨.outPort, storeShort (atoi text) s.actions[s.actionCnt].value⟩ s hcnt)

theorem starts_drop : strncmpEq t "drop".toList 4 = true ↔ "drop".toList <+: t :=
  strncmpEq_iff_starts

theorem starts_outPort : strncmpEq t "out-port".toList 8 = true ↔ "out-port".toList <+: t :=
  strncmpEq_iff_starts

theorem drop_not_outPort (h : "drop".toList <+: t) : ¬ "out-port".toList <+: t := by
  intro hp
  obtain ⟨u, rfl⟩ := h
  obtain ⟨v, hv⟩ := hp
  cases hv

theorem actionOption_iff : actionOption t s = .ok s' ↔ ActionStep t s s' := by
  rw [actionOption]
  constructor
  · intro h
    split at h
    · next hd =>
      split at h
      · next hcnt =>
        cases h
        exact .drop (starts_drop.mp hd) hcnt
      · cases h
    · split at h
      · next hp =>
        split at h
        · next hcnt =>
          cases htext : optionValue t with
          | none =>
            rw [htext] at h
            cases h
          | some text =>
            rw [htext] at h
            cases h
            exact .outPort (starts_outPort.mp hp) hcnt text htext
        · cases h
      · cases h
  · intro h
    cases h with
    | drop hd hcnt => rw [if_pos (starts_drop.mpr hd), dif_pos hcnt]
    | outPort hp hcnt text htext =>
      have hd : ¬ strncmpEq t "drop".toList 4 = true := fun hd =>
        drop_not_outPort (starts_drop.mp hd) hp
      rw [if_neg hd, if_pos (starts_outPort.mpr hp), dif_pos hcnt, htext]
      rfl

theorem actionLoop_iff {ts : List CString} :
    actionLoop ts s = .ok s' ↔ Steps ActionStep ts s s' := by
  apply loop_iff_steps (E := fun ts s s' => actionLoop ts s = .ok s')
  · intro s s'
    rw [actionLoop, Except.ok.injEq]
    exact eq_comm
  · intro t ts s s'
    simp only [actionLoop, ← actionOption_iff]
    cases actionOption t s <;> simp

variable {ts : List CString}

theorem MatchStep.frame (h : MatchStep devCnt t s s') :
    s'.actions = s.actions ∧ s'.actionCnt = s.actionCnt := by
  cases h <;> exact ⟨rfl, rfl⟩

theorem ActionStep.frame (h : ActionStep t s s') :
    s'.flowCmd = s.flowCmd ∧ s'.devId = s.devId ∧ s'.tblId = s.tblId ∧
      s'.tuples = s.tuples ∧ s'.tupleCnt = s.tupleCnt := by
  cases h <;> exact ⟨rfl, rfl, rfl, rfl, rfl⟩

theorem matchSteps_frame (h : Steps (MatchStep devCnt) ts s s') :
    s'.actions = s.actions ∧ s'.actionCnt = s.actionCnt := by
  refine h.invariant (fun u => u.actions = s.actions ∧ u.actionCnt = s.actionCnt) ?_ ⟨rfl, rfl⟩
  rintro t u v hstep ⟨ha, hc⟩
  exact ⟨hstep.frame.1.trans ha, hstep.frame.2.trans hc⟩

theorem actionSteps_frame (h : Steps ActionStep ts s s') :
    s'.flowCmd = s.flowCmd ∧ s'.devId = s.devId ∧ s'.tblId = s.tblId ∧
      s'.tuples = s.tuples ∧ s'.tupleCnt = s.tupleCnt := by
  refine h.invariant (fun u => u.flowCmd = s.flowCmd ∧ u.devId = s.devId ∧ u.tblId = s.tblId ∧
    u.tuples = s.tuples ∧ u.tupleCnt = s.tupleCnt) ?_ ⟨rfl, rfl, rfl, rfl, rfl⟩
  rintro t u v hstep ⟨h₁, h₂, h₃, h₄, h₅⟩
  obtain ⟨g₁, g₂, g₃, g₄, g₅⟩ := hstep.frame
  exact ⟨g₁.trans h₁, g₂.trans h₂, g₃.trans h₃, g₄.trans h₄, g₅.trans h₅⟩

theorem deviceCall_iff {flwDevs : Table D} {d : D} {c : FlwCall} :
    deviceCall flwDevs s = .calls d c ↔ ∃ op, s.flowCmd = some op ∧
      deref maxObjects flwDevs s.devId = some d ∧ c = ⟨op, s.devId, s.tblId, some s.flow⟩ := by
  rw [deviceCall]
  cases s.flowCmd with
  | none => simp
  | some op =>
    cases deref maxObjects flwDevs s.devId with
    | none => simp
    | some e => simp [eq_comm]

theorem filterLoops_steps {ts : List CString} (h : filterLoops devCnt ts s = .ok s') :
    ∃ s₁, Steps (MatchStep devCnt) (matchPart ts) s s₁ ∧
      Steps ActionStep (actionPart ts) s₁ s' := by
  rw [filterLoops] at h
  cases hmatch : matchLoop devCnt ts s with
  | error e =>
    rw [hmatch] at h
    cases h
  | ok r =>
    obtain ⟨s₁, rest⟩ := r
    obtain ⟨hsteps, rfl, -⟩ := matchLoop_iff.mp hmatch
    rw [hmatch] at h
    exact ⟨s₁, hsteps, actionLoop_iff.mp h⟩

theorem filterLoops_iff {ts : List CString} :
    filterLoops devCnt ts s = .ok s' ∧ s'.flowCmd.isSome ↔
      ∃ s₁, Steps (MatchStep devCnt) (matchPart ts) s s₁ ∧
        Steps ActionStep (actionPart ts) s₁ s' ∧ s₁.flowCmd.isSome := by
  constructor
  · rintro ⟨h, hcmd⟩
    obtain ⟨s₁, hsteps, hactions⟩ := filterLoops_steps h
    rw [(actionSteps_frame hactions).1] at hcmd
    exact ⟨s₁, hsteps, hactions, hcmd⟩
  · rintro ⟨s₁, hsteps, hactions, hcmd⟩
    rw [filterLoops, matchLoop_iff.mpr ⟨hsteps, rfl, fun _ _ _ => hcmd⟩,
      (actionSteps_frame hactions).1]
    exact ⟨actionLoop_iff.mpr hactions, hcmd⟩

theorem fibCmdFilter_calls_iff {flwDevs : Table D} {tuples : Vector Tuple 25}
    {actions : Vector Action 25} {cmd : CString} {d : D} {c : FlwCall} :
    fibCmdFilter flwDevs tuples actions cmd = .calls d c ↔
      ∃ s₁ s₂ op,
        Steps (MatchStep flwDevs.cnt) (matchPart (tokens ' ' cmd))
          (initialLocals tuples actions) s₁ ∧
        Steps ActionStep (actionPart (tokens ' ' cmd)) s₁ s₂ ∧
        s₂.flowCmd = some op ∧ deref maxObjects flwDevs s₂.devId = some d ∧
        c = ⟨op, s₂.devId, s₂.tblId, some s₂.flow⟩ := by
  rw [fibCmdFilter]
  constructor
  · intro h
    cases hloops : filterLoops flwDevs.cnt (tokens ' ' cmd) (initialLocals tuples actions) with
    | error e =>
      rw [hloops] at h
      cases h
    | ok s₂ =>
      rw [hloops] at h
      obtain ⟨s₁, hsteps, hactions⟩ := filterLoops_steps hloops
      obtain ⟨op, hop, hd, hc⟩ := deviceCall_iff.mp h
      exact ⟨s₁, s₂, op, hsteps, hactions, hop, hd, hc⟩
  · rintro ⟨s₁, s₂, op, hsteps, hactions, hop, hd, hc⟩
    have hcmd : s₁.flowCmd.isSome := by
      rw [← (actionSteps_frame hactions).1, hop]
      rfl
    rw [(filterLoops_iff.mpr ⟨s₁, hsteps, hactions, hcmd⟩).1]
    exact deviceCall_iff.mpr ⟨op, hop, hd, hc⟩

end LibSwitch.FilterSteps

import LibSwitch.FilterActions

namespace LibSwitch.FilterBounds

open LibSwitch.PointerTable LibSwitch.ByteBuffer LibSwitch.CText LibSwitch.ListRuns
open LibSwitch.Numeral LibSwitch.Address LibSwitch.Common LibSwitch.FlowTypes
open LibSwitch.FlowFilter LibSwitch.FilterWords LibSwitch.FilterGrammar LibSwitch.FilterRule
open LibSwitch.FilterSteps LibSwitch.FilterActions

variable {D : Type} {devCnt : Nat} {p ts : List CString} {t : CString} {s s' : Locals}

/-- Every write to the two arrays is at an index below 25, and so are the entries of every flow
delivered. -/
structure InArrays (o : Outcome D) : Prop where
  noOverrun : ∀ e, o = .stops e → e ≠ .overrun
  counts : ∀ d c flow, o = .calls d c → c.flow = some flow →
    flow.numTuples ≤ 25 ∧ flow.numActions ≤ 25

/-- The match loop goes on behind a token that follows the given ones. -/
structure Passes (devCnt : Nat) (p : List CString) (t : CString) : Prop where
  follows : Follows chain p t
  dev : "dev".toList <+: t → ∀ v, optionShort t = some v → 0 ≤ v ∧ v ≤ devCnt
  srcMac : "dl-src".toList <+: t → ∀ v, optionValue t = some v → (etherAton v).isSome

/-- The token fills a tuple: it is a match option in its place, behind a command. -/
structure FillsTuple (p : List CString) (t : CString) : Prop where
  isMatch : IsMatch chain t
  command : ∃ u ∈ p, IsCommand u
  chained : ∀ k, place chain t = some k → k = 0 ∨ ∃ j, lastPlace chain p = some j ∧ k = j + 1

def TupleOver (p : List CString) (t : CString) : Prop :=
  FillsTuple p t ∧ 25 ≤ (p.filterMap (place chain)).length

def ActionOver (p : List CString) (t : CString) : Prop :=
  ("drop".toList <+: t ∨ "out-port".toList <+: t) ∧ 25 ≤ (p.filter isPort).length

/-- No token fills a tuple or an action behind as many as the arrays have room for. -/
structure Bounded (devCnt : Nat) (ts : List CString) : Prop where
  tuples : ¬ Arises (Passes devCnt) TupleOver [] (matchPart ts)
  actions : Throughout (Passes devCnt) [] (matchPart ts) →
    (∃ u ∈ matchPart ts, IsCommand u) →
      ¬ Arises (fun _ => ActionToken) ActionOver [] (actionPart ts)

theorem parseMac_ne_overrun {bad : Stop} (hbad : bad ≠ .overrun) (text : CString) (v : Value) :
    parseMac bad text v ≠ .error .overrun := by
  rw [parseMac]
  cases etherAton text with
  | none => simpa using hbad
  | some mac => simp

theorem parse_ne_overrun {f : MatchField} (hf : f ∈ matchFields) (text : CString) (v : Value) :
    f.parse text v ≠ .error .overrun := by
  obtain h | h | h | ⟨-, h⟩ | ⟨-, h⟩ := parse_cases hf
  · rw [h]
    simp [parseShort]
  · rw [h]
    simp [parseHex]
  · rw [h, parseIp]
    cases inetPton text <;> simp
  · rw [h]
    exact parseMac_ne_overrun (show Stop.out ≠ .overrun by simp) text v
  · rw [h]
    exact parseMac_ne_overrun (show Stop.nullAddr ≠ .overrun by simp) text v

theorem matchField_overrun_iff {f : MatchField} (hf : f ∈ matchFields) :
    matchField f t s = .error .overrun ↔
      f.required.any (· != s.rqdField) = false ∧ 25 ≤ s.tupleCnt := by
  rw [matchField]
  cases hreq : f.required.any (· != s.rqdField) with
  | true => simp
  | false =>
    rw [if_neg Bool.false_ne_true]
    by_cases hcnt : s.tupleCnt < 25
    · rw [dif_pos hcnt]
      refine iff_of_false ?_ (by omega)
      cases optionValue t with
      | none => simp
      | some text =>
        have hne := parse_ne_overrun hf text s.tuples[s.tupleCnt].value
        dsimp only
        split
        · next e he =>
          rw [he] at hne
          simpa using hne
        · simp
    · rw [dif_neg hcnt]
      exact iff_of_true rfl ⟨rfl, by omega⟩

theorem map_error_iff {r : Except Stop Locals} {e : Stop} (he : e ≠ .out) :
    (if s.flowCmd.isNone then .error .out else r.map some : Except Stop (Option Locals)) =
      .error e ↔ s.flowCmd.isSome ∧ r = .error e := by
  cases s.flowCmd <;> cases r <;> simp [Except.map, he.symm]

theorem matchOption_ne_error {e : Stop} (he : e ≠ .out) (h : ¬ IsMatch chain t) :
    matchOption devCnt t s ≠ .error e := by
  obtain ht | ⟨op, ht⟩ | ht | ht | ⟨f, hf, ht⟩ | ht | ht := word_cases t
  · rw [matchOption_filter devCnt s ht]
    simp
  · rw [matchOption_opWord ht]
    simp
  · rw [matchOption_dev devCnt s ht, ne_eq, map_error_iff he, devOption]
    rintro ⟨-, hr⟩
    split at hr
    · exact he (Except.error.inj hr).symm
    · split at hr
      · exact he (Except.error.inj hr).symm
      · cases hr
  · rw [matchOption_tbl devCnt s ht, ne_eq, map_error_iff he, tblOption]
    rintro ⟨-, hr⟩
    split at hr
    · exact he (Except.error.inj hr).symm
    · split at hr
      · exact he (Except.error.inj hr).symm
      · cases hr
  · exact absurd ⟨f.word, word_mem_chain hf, ht⟩ h
  · rw [matchOption_marker devCnt s ht]
    split <;> simp [he.symm]
  · rw [matchOption_unknown devCnt s ht]
    simp [he.symm]

/-- The match loop writes past the tuples at the twenty-sixth match option it takes. -/
theorem matchOption_overrun_iff (hs : Sees (devCnt + 1) s p) :
    matchOption devCnt t s = .error .overrun ↔ TupleOver p t := by
  by_cases hm : IsMatch chain t
  · obtain ⟨k, f, hk, hname⟩ := exists_field hm
    have hf := List.mem_of_getElem? hk
    have horder := required_iff hk (lastPlace chain p)
    rw [← hs.rqdField] at horder
    rw [matchOption_field devCnt s hf hname, map_error_iff (by simp), matchField_overrun_iff hf,
      horder, hs.flowCmd, TupleOver, ← hs.tupleCnt]
    constructor
    · rintro ⟨hc, ho, hcnt⟩
      refine ⟨⟨hm, hc, ?_⟩, hcnt⟩
      intro k' hk'
      rw [place_field hk hname] at hk'
      cases hk'
      exact ho
    · rintro ⟨hfills, hcnt⟩
      exact ⟨hfills.command, hfills.chained k (place_field hk hname), hcnt⟩
  · exact iff_of_false (matchOption_ne_error (by simp) hm) fun h => hm h.1.isMatch

/-- A step depends on the number of devices only through the number a `dev` token gives. -/
theorem matchStep_devs {d : Nat} (h : MatchStep devCnt t s s')
    (hd : "dev".toList <+: t → ∀ v, optionShort t = some v → v ≤ d) : MatchStep d t s s' := by
  cases h with
  | filter h => exact .filter h
  | command op h => exact .command op h
  | dev hcmd h v hv hmem => exact .dev hcmd h v hv ⟨hmem.1, hd h v hv⟩
  | tbl hcmd h v hv h0 => exact .tbl hcmd h v hv h0
  | field hcmd f hf h hreq hcnt text htext v hv =>
    exact .field hcmd f hf h hreq hcnt text htext v hv

theorem parse_src {f : MatchField} (hf : f ∈ matchFields) (hsrc : f.word = "dl-src".toList) :
    f.parse = parseMac .nullAddr := by
  have hdl : ⟨"dl-src".toList, 6, .dlSrc, some 3, 4, parseMac .nullAddr⟩ ∈ matchFields := by
    simp [matchFields]
  rw [List.inj_on_of_nodup_map words_nodup hf hdl hsrc]

theorem matchStep_token (h : MatchStep devCnt t s s') :
    ("dev".toList <+: t → ∀ v, optionShort t = some v → 0 ≤ v ∧ v ≤ devCnt) ∧
      ("dl-src".toList <+: t → ∀ v, optionValue t = some v → (etherAton v).isSome) ∧
      (IsMatch chain t → s.tupleCnt < 25) := by
  have hother {a : CString} (ha : a ∈ words) (hat : a <+: t) (hd : "dev".toList ≠ a)
      (hc : a ∉ chain) :
      ("dev".toList <+: t → ∀ v, optionShort t = some v → 0 ≤ v ∧ v ≤ devCnt) ∧
      ("dl-src".toList <+: t → ∀ v, optionValue t = some v → (etherAton v).isSome) ∧
      (IsMatch chain t → s.tupleCnt < 25) := by
    have hm := not_isMatch ha hc hat
    exact ⟨fun h => absurd h (not_starts ha hat (by decide) hd),
      fun h => absurd ⟨_, by decide, h⟩ hm, fun h => absurd h hm⟩
  cases h with
  | filter h => exact hother (by decide) h (by decide) (by decide)
  | command op h => cases op <;> exact hother (by decide) h (by decide) (by decide)
  | dev hcmd h v hv hmem =>
    have hm := not_isMatch (by decide) (by decide) h
    refine ⟨?_, fun hs => absurd ⟨_, by decide, hs⟩ hm, fun h => absurd h hm⟩
    intro _ v' hv'
    rw [hv] at hv'
    cases hv'
    exact hmem
  | tbl hcmd h => exact hother (by decide) h (by decide) (by decide)
  | field hcmd f hf h hreq hcnt text htext v hv =>
    have hw := word_mem_words hf
    have hne := (chain_not_keyword f.word (word_mem_chain hf)).2.2.2.2.1
    refine ⟨fun hd => absurd hd (not_starts hw h (by decide) hne), ?_, fun _ => hcnt⟩
    intro hsrc text' htext'
    rw [htext] at htext'
    cases htext'
    rw [parse_src hf (word_unique hw (by decide) h hsrc), parseMac] at hv
    cases haddr : etherAton text with
    | none =>
      rw [haddr] at hv
      cases hv
    | some mac => rfl

theorem Passes.fills (h : Passes devCnt p t) (hm : IsMatch chain t) : FillsTuple p t := by
  have hne {a : CString} (ha : a ∈ words) (hc : a ∉ chain) : ¬ a <+: t :=
    fun hat => not_isMatch ha hc hat hm
  refine ⟨hm, h.follows.command (hne (by decide) (by decide)) ?_, h.follows.chained⟩
  rintro (hc | hc | hc)
  · exact hne (by decide) (by decide) hc
  · exact hne (by decide) (by decide) hc
  · exact hne (by decide) (by decide) hc

theorem count_concat (hm : IsMatch chain t → (p.filterMap (place chain)).length < 25)
    (hp : (p.filterMap (place chain)).length ≤ 25) :
    ((p ++ [t]).filterMap (place chain)).length ≤ 25 := by
  rw [List.filterMap_append, List.length_append]
  cases hplace : place chain t with
  | none =>
    rw [List.filterMap_cons_none hplace]
    exact hp
  | some k =>
    have hmatch : IsMatch chain t := by
      by_contra hno
      rw [place_none hno] at hplace
      cases hplace
    have hlt := hm hmatch
    rw [List.filterMap_cons_some hplace]
    exact hlt

inductive Reads (devCnt : Nat) (s : Locals) (p : List CString) (t : CString) : Prop
  | overrun (hr : matchOption devCnt t s = .error .overrun) (hover : TupleOver p t)
  | passes (s' : Locals) (hr : matchOption devCnt t s = .ok (some s')) (hover : ¬ TupleOver p t)
      (hpass : Passes devCnt p t) (hs : Sees (devCnt + 1) s' (p ++ [t])) (hle : s'.tupleCnt ≤ 25)
  | stops (e : Stop) (hr : matchOption devCnt t s = .error e) (he : e ≠ .overrun)
      (hover : ¬ TupleOver p t) (hpass : ¬ Passes devCnt p t)

theorem matchOption_follows (hs : Sees (devCnt + 1) s p)
    (hle : (p.filterMap (place chain)).length ≤ 25) (hm : isMarker t = false)
    (hdev : "dev".toList <+: t → ∀ v, optionShort t = some v → 0 ≤ v ∧ v ≤ devCnt)
    (hsrc : "dl-src".toList <+: t → ∀ v, optionValue t = some v → (etherAton v).isSome)
    (hcnt : IsMatch chain t → (p.filterMap (place chain)).length < 25) :
    (Follows chain p t ∧ ∃ s', matchOption devCnt t s = .ok (some s') ∧
        Sees (devCnt + 1) s' (p ++ [t])) ∨
      (¬ Follows chain p t ∧ ∀ s', matchOption devCnt t s ≠ .ok (some s')) := by
  have hlt : "dev".toList <+: t → ∀ v, optionShort t = some v →
      0 ≤ v ∧ v < ((devCnt + 1 : Nat) : Int) := by
    intro hd v hv
    have hv' := hdev hd v hv
    omega
  obtain ⟨hfol, s', hok, hsees⟩ | ⟨hno, e, herr⟩ :=
    read_token hs hm hlt hsrc (count_concat hcnt hle)
  · have hstep := matchStep_devs (matchOption_iff.mp hok) fun hd v hv => (hdev hd v hv).2
    exact Or.inl ⟨hfol, s', matchOption_iff.mpr hstep, hsees⟩
  · refine Or.inr ⟨hno, ?_⟩
    intro s' hok
    have hstep : MatchStep (devCnt + 1) t s s' :=
      matchStep_devs (matchOption_iff.mp hok) fun hd v hv => Int.le_of_lt (hlt hd v hv).2
    rw [matchOption_iff.mpr hstep] at herr
    cases herr

theorem option_reads (hs : Sees (devCnt + 1) s p) (hle : s.tupleCnt ≤ 25)
    (hm : isMarker t = false) : Reads devCnt s p t := by
  have hover := matchOption_overrun_iff (t := t) hs
  rw [hs.tupleCnt] at hle
  cases hopt : matchOption devCnt t s with
  | ok r =>
    cases r with
    | none =>
      rw [(matchOption_none_iff.mp hopt).1] at hm
      cases hm
    | some s' =>
      obtain ⟨hdev, hsrc, hcnt⟩ := matchStep_token (matchOption_iff.mp hopt)
      rw [hs.tupleCnt] at hcnt
      obtain ⟨hfol, s'', hok, hsees⟩ | ⟨-, hno⟩ := matchOption_follows hs hle hm hdev hsrc hcnt
      · rw [hopt] at hok hover
        cases hok
        refine .passes s' hopt (fun h => by cases hover.mpr h) ⟨hfol, hdev, hsrc⟩ hsees ?_
        rw [hsees.tupleCnt]
        exact count_concat hcnt hle
      · exact absurd hopt (hno s')
  | error e =>
    rw [hopt] at hover
    by_cases he : e = .overrun
    · exact .overrun (by rw [hopt, he]) (hover.mp (by rw [he]))
    · have hnot : ¬ TupleOver p t := fun h => he (Except.error.inj (hover.mpr h))
      refine .stops e hopt he hnot ?_
      intro hpass
      have hcnt : IsMatch chain t → (p.filterMap (place chain)).length < 25 := by
        intro hmatch
        by_contra hge
        exact hnot ⟨hpass.fills hmatch, by omega⟩
      obtain ⟨-, s', hok, -⟩ | ⟨hno, -⟩ :=
        matchOption_follows hs hle hm hpass.dev hpass.srcMac hcnt
      · rw [hopt] at hok
        cases hok
      · exact hno hpass.follows

inductive Matches (devCnt : Nat) (s : Locals) (p ts : List CString) : Prop
  | overrun (hr : matchLoop devCnt ts s = .error .overrun)
      (hover : Arises (Passes devCnt) TupleOver p (matchPart ts))
  | passes (s' : Locals) (hr : matchLoop devCnt ts s = .ok (s', actionPart ts))
      (hover : ¬ Arises (Passes devCnt) TupleOver p (matchPart ts))
      (hs : Sees (devCnt + 1) s' (p ++ matchPart ts)) (hle : s'.tupleCnt ≤ 25)
      (hpass : Throughout (Passes devCnt) p (matchPart ts))
      (hcmd : actionPart ts ≠ [] → s'.flowCmd.isSome)
  | stops (e : Stop) (hr : matchLoop devCnt ts s = .error e) (he : e ≠ .overrun)
      (hover : ¬ Arises (Passes devCnt) TupleOver p (matchPart ts))
      (hpass : ¬ (Throughout (Passes devCnt) p (matchPart ts) ∧
        ∃ u ∈ p ++ matchPart ts, IsCommand u))

theorem Matches.marker (hs : Sees (devCnt + 1) s p) (hle : s.tupleCnt ≤ 25)
    (hm : isMarker t = true) : Matches devCnt s p (t :: ts) := by
  obtain ⟨hpart, hact⟩ := matchPart_marker hm ts
  have hstep := matchOption_marker devCnt s (List.isPrefixOf_iff_prefix.mp hm)
  by_cases hcmd : s.flowCmd.isSome
  · rw [if_commanded s hcmd] at hstep
    refine .passes s (by rw [matchLoop, hstep, hact]) ?_ ?_ hle ?_ fun _ => hcmd
    · rw [hpart]
      exact not_arises_nil
    · rw [hpart, List.append_nil]
      exact hs
    · rw [hpart]
      exact throughout_nil
  · rw [if_uncommanded s hcmd] at hstep
    refine .stops .out (by rw [matchLoop, hstep]) (by simp) ?_ ?_
    · rw [hpart]
      exact not_arises_nil
    · rw [hpart, List.append_nil, ← hs.flowCmd]
      exact fun h => hcmd h.2

theorem Matches.cons {s₁ : Locals} (hm : isMarker t = false)
    (hr : matchOption devCnt t s = .ok (some s₁)) (hover : ¬ TupleOver p t)
    (hpass : Passes devCnt p t) (h : Matches devCnt s₁ (p ++ [t]) ts) :
    Matches devCnt s p (t :: ts) := by
  obtain ⟨hpart, hact⟩ := matchPart_cons hm ts
  have hloop : matchLoop devCnt (t :: ts) s = matchLoop devCnt ts s₁ := by
    rw [matchLoop, hr]
  have harises : Arises (Passes devCnt) TupleOver p (matchPart (t :: ts)) ↔
      Arises (Passes devCnt) TupleOver (p ++ [t]) (matchPart ts) := by
    rw [hpart, arises_cons]
    exact ⟨fun h => (h.resolve_left hover).2, fun h => Or.inr ⟨hpass, h⟩⟩
  have hthrough : Throughout (Passes devCnt) p (matchPart (t :: ts)) ↔
      Throughout (Passes devCnt) (p ++ [t]) (matchPart ts) := by
    rw [hpart, throughout_cons]
    exact and_iff_right hpass
  have happ : p ++ matchPart (t :: ts) = (p ++ [t]) ++ matchPart ts := by
    rw [hpart, List.append_cons]
  cases h with
  | overrun hr' hover' => exact .overrun (hloop.trans hr') (harises.mpr hover')
  | passes s' hr' hover' hs' hle' hpass' hcmd =>
    refine .passes s' ?_ (mt harises.mp hover') ?_ hle' (hthrough.mpr hpass') ?_
    · rw [hloop, hr', hact]
    · rw [happ]
      exact hs'
    · rw [hact]
      exact hcmd
  | stops e hr' he hover' hpass' =>
    refine .stops e (hloop.trans hr') he (mt harises.mp hover') ?_
    rw [hthrough, happ]
    exact hpass'

theorem loop_matches (ts : List CString) (hs : Sees (devCnt + 1) s p) (hle : s.tupleCnt ≤ 25) :
    Matches devCnt s p ts := by
  induction ts generalizing s p with
  | nil =>
    refine .passes s rfl not_arises_nil ?_ hle throughout_nil fun h => absurd rfl h
    rw [matchPart, List.takeWhile_nil, List.append_nil]
    exact hs
  | cons t ts ih =>
    cases hm : isMarker t with
    | true => exact .marker hs hle hm
    | false =>
      have hpart := (matchPart_cons hm ts).1
      cases option_reads hs hle hm with
      | overrun hr hover =>
        refine .overrun (by rw [matchLoop, hr]) ?_
        rw [hpart]
        exact arises_cons.mpr (Or.inl hover)
      | stops e hr he hover hpass =>
        refine .stops e (by rw [matchLoop, hr]) he ?_ ?_
        · rw [hpart, arises_cons]
          rintro (h | h)
          · exact hover h
          · exact hpass h.1
        · rw [hpart, throughout_cons]
          exact fun h => hpass h.1.1
      | passes s₁ hr hover hpass hs₁ hle₁ => exact .cons hm hr hover hpass (ih hs₁ hle₁)

theorem actionOption_overrun_iff :
    actionOption t s = .error .overrun ↔
      ("drop".toList <+: t ∨ "out-port".toList <+: t) ∧ 25 ≤ s.actionCnt := by
  rw [actionOption]
  by_cases hd : "drop".toList <+: t
  · rw [if_pos (starts_drop.mpr hd)]
    by_cases hcnt : s.actionCnt < 25
    · rw [dif_pos hcnt]
      exact iff_of_false (by simp) (by omega)
    · rw [dif_neg hcnt]
      exact iff_of_true rfl ⟨Or.inl hd, by omega⟩
  rw [if_neg (mt starts_drop.mp hd)]
  by_cases hp : "out-port".toList <+: t
  · rw [if_pos (starts_outPort.mpr hp)]
    by_cases hcnt : s.actionCnt < 25
    · rw [dif_pos hcnt]
      refine iff_of_false ?_ (by omega)
      cases optionValue t <;> simp
    · rw [dif_neg hcnt]
      exact iff_of_true rfl ⟨Or.inr hp, by omega⟩
  rw [if_neg (mt starts_outPort.mp hp)]
  exact iff_of_false (by simp) fun h => h.1.elim hd hp

theorem actionToken_starts (h : ActionToken t) : "drop".toList <+: t ∨ "out-port".toList <+: t :=
  h.imp_right And.left

theorem actionStep_token (h : ActionStep t s s') : ActionToken t ∧ s.actionCnt < 25 := by
  cases h with
  | drop hd hcnt => exact ⟨Or.inl hd, hcnt⟩
  | outPort hp hcnt text htext =>
    refine ⟨Or.inr ⟨hp, ?_⟩, hcnt⟩
    rw [← optionValue_isSome, htext]
    rfl

/-- The action loop writes past the actions at a token behind twenty-five ports. -/
theorem actionLoop_overrun_iff {actions : Vector Action 25} (hs : PortsSent actions p s) :
    actionLoop ts s = .error .overrun ↔
      Arises (fun _ => ActionToken) ActionOver p ts := by
  induction ts generalizing s p with
  | nil => exact iff_of_false (by simp [actionLoop]) not_arises_nil
  | cons t ts ih =>
    have hover : actionOption t s = .error .overrun ↔ ActionOver p t := by
      rw [actionOption_overrun_iff, ActionOver, hs.actionCnt]
    rw [actionLoop, arises_cons]
    cases hopt : actionOption t s with
    | ok s' =>
      rw [hopt] at hover
      have hstep := actionOption_iff.mp hopt
      have hnot : ¬ ActionOver p t := fun h => by cases hover.mpr h
      simp only [hnot, false_or, (actionStep_token hstep).1, true_and]
      exact ih (portsSent_step hstep hs)
    | error e =>
      rw [hopt] at hover
      by_cases hot : ActionOver p t
      · exact iff_of_true (hover.mpr hot) (Or.inl hot)
      · refine iff_of_false (mt hover.mp hot) ?_
        rintro (h | ⟨h, -⟩)
        · exact hot h
        · have hcnt : s.actionCnt < 25 := by
            rw [hs.actionCnt]
            by_contra hge
            exact hot ⟨actionToken_starts h, by omega⟩
          obtain ⟨-, s', hok, -⟩ | ⟨hno, -⟩ := actionOption_cases t hcnt
          · rw [hopt] at hok
            cases hok
          · exact hno h

theorem actionLoop_counts {actions : Vector Action 25} (hs : PortsSent actions p s)
    (h : actionLoop ts s = .ok s') : s'.tupleCnt = s.tupleCnt ∧ s'.actionCnt ≤ 25 := by
  have hsteps := actionLoop_iff.mp h
  have hsent := hsteps.track (PortsSent actions) (fun _ _ _ _ => portsSent_step) hs
  exact ⟨(actionSteps_frame hsteps).2.2.2.2, hsent.actionCnt_le⟩

theorem inArrays_deviceCall (flwDevs : Table D) (ht : s.tupleCnt ≤ 25) (ha : s.actionCnt ≤ 25) :
    InArrays (deviceCall flwDevs s) := by
  constructor
  · intro e he
    rw [deviceCall] at he
    split at he
    · cases he
    · split at he <;> cases he
  · intro d c flow hc hflow
    obtain ⟨op, -, -, rfl⟩ := FilterSteps.deviceCall_iff.mp hc
    cases hflow
    exact ⟨ht, ha⟩

theorem inArrays_stops (e : Stop) : InArrays (.stops e : Outcome D) ↔ e ≠ .overrun := by
  constructor
  · exact fun h => h.noOverrun e rfl
  · intro he
    constructor
    · intro e' h
      cases h
      exact he
    · intro d c flow h
      cases h

theorem filterLoops_counts {tuples : Vector Tuple 25} {actions : Vector Action 25}
    (h : filterLoops devCnt ts (initialLocals tuples actions) = .ok s) :
    s.tupleCnt ≤ 25 ∧ s.actionCnt ≤ 25 := by
  rw [filterLoops] at h
  cases loop_matches ts (sees_initial tuples actions) (Nat.zero_le 25) with
  | overrun hr =>
    rw [hr] at h
    cases h
  | stops e hr =>
    rw [hr] at h
    cases h
  | passes s₁ hr hover hs hle =>
    obtain ⟨hsteps, -⟩ := matchLoop_iff.mp hr
    obtain ⟨hactions, hcnt⟩ := matchSteps_frame hsteps
    rw [hr] at h
    obtain ⟨htuples, hports⟩ := actionLoop_counts (portsSent_nil hactions hcnt) h
    rw [htuples]
    exact ⟨hle, hports⟩

theorem filterLoops_overrun_iff (devCnt : Nat) (ts : List CString) (tuples : Vector Tuple 25)
    (actions : Vector Action 25) :
    filterLoops devCnt ts (initialLocals tuples actions) = .error .overrun ↔
      ¬ Bounded devCnt ts := by
  rw [filterLoops]
  cases loop_matches ts (sees_initial tuples actions) (Nat.zero_le 25) with
  | overrun hr hover =>
    rw [hr]
    exact iff_of_true rfl fun h => h.tuples hover
  | stops e hr he hover hpass =>
    rw [hr]
    refine iff_of_false (fun h => he (Except.error.inj h)) fun h => h ⟨hover, ?_⟩
    exact fun hthrough hcmd => absurd ⟨hthrough, hcmd⟩ hpass
  | passes s₁ hr hover hs hle hpass hcmd =>
    obtain ⟨hsteps, -⟩ := matchLoop_iff.mp hr
    obtain ⟨hactions, hcnt⟩ := matchSteps_frame hsteps
    rw [hr]
    refine (actionLoop_overrun_iff (portsSent_nil hactions hcnt)).trans ?_
    constructor
    · intro harises hb
      have hne : actionPart ts ≠ [] := by
        intro hnil
        rw [hnil] at harises
        exact not_arises_nil harises
      exact hb.actions hpass (hs.flowCmd.mp (hcmd hne)) harises
    · intro hb
      by_contra hno
      exact hb ⟨hover, fun _ _ => hno⟩

/-- `fib_cmd_filter` stays inside its arrays exactly when no option fills a tuple behind
twenty-five tuples and none sets an action behind twenty-five ports: nothing tests the bound,
and `in-phy-port`, which may come again and again, starts the chain of fields anew. -/
theorem inArrays_iff (flwDevs : Table D) (tuples : Vector Tuple 25) (actions : Vector Action 25)
    (cmd : CString) :
    InArrays (fibCmdFilter flwDevs tuples actions cmd) ↔
      Bounded flwDevs.cnt (tokens ' ' cmd) := by
  have hover := filterLoops_overrun_iff flwDevs.cnt (tokens ' ' cmd) tuples actions
  rw [← not_iff_not, ← hover, fibCmdFilter]
  cases hloops : filterLoops flwDevs.cnt (tokens ' ' cmd) (initialLocals tuples actions) with
  | error e => simp only [inArrays_stops, ne_eq, not_not, Except.error.injEq]
  | ok s =>
    obtain ⟨ht, ha⟩ := filterLoops_counts hloops
    exact iff_of_false (not_not.mpr (inArrays_deviceCall flwDevs ht ha)) (by simp)

def portsLine : CString := join ' ' ("add".toList :: List.replicate 26 "in-phy-port=1".toList)

theorem portsLine_overruns :
    ¬ InArrays (fibCmdFilter (ofList [()]) (Vector.replicate 25 ⟨.inPort, zeros 16⟩)
      (Vector.replicate 25 ⟨.drop, zeros 16⟩) portsLine) := by
  intro h
  exact h.noOverrun .overrun rfl rfl

end LibSwitch.FilterBounds

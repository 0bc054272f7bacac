import LibSwitch.FlowContents

namespace LibSwitch.FlowRenaming

open LibSwitch.PointerTable LibSwitch.ByteBuffer LibSwitch.CText LibSwitch.ListRuns
open LibSwitch.Numeral LibSwitch.Common LibSwitch.FlowTypes LibSwitch.FlowFilter
open LibSwitch.FilterWords LibSwitch.FilterGrammar LibSwitch.FilterRule LibSwitch.FilterSteps
open LibSwitch.FilterActions LibSwitch.FlowContents

variable {D : Type}

def startsAdd (t : CString) : Bool := "add".toList.isPrefixOf t

def rename (op : FlwOp) (t : CString) : CString :=
  if startsAdd t then opWord op ++ t.drop 3 else t

/-- The line with another command word in the place of each `add`. -/
def rewriteLine (op : FlwOp) (cmd : CString) : CString :=
  join ' ' ((tokens ' ' cmd).map (rename op))

/-- The calls name the same device and table, and their flows count the same tuples and
actions, with the same bytes. -/
def SameRule (c c' : FlwCall) : Prop :=
  c.devId = c'.devId ∧ c.flowTable = c'.flowTable ∧
    ∃ flow flow', c.flow = some flow ∧ c'.flow = some flow' ∧
      flow.numTuples = flow'.numTuples ∧ flow.numActions = flow'.numActions ∧
      flow.countedTuples = flow'.countedTuples ∧ flow.countedActions = flow'.countedActions

/-- The arrays agree, in each slot the tokens fill, on the bytes that the tokens do not set. -/
structure AgreeBehind (ts : List CString) (tuples tuples' : Vector Tuple 25)
    (actions actions' : Vector Action 25) : Prop where
  tuples : ∀ i t, ((matchPart ts).filter isMatch)[i]? = some t → ∀ h : i < 25,
    tuples[i].value.bytes.drop (written t) = tuples'[i].value.bytes.drop (written t)
  actions : ∀ i, i < ((actionPart ts).filter isPort).length → ∀ h : i < 25,
    actions[i].value.bytes.drop 2 = actions'[i].value.bytes.drop 2

variable {devCnt : Nat} {op : FlwOp} {t : CString} {ts : List CString} {s s' u : Locals}

theorem startsAdd_iff : startsAdd t = true ↔ "add".toList <+: t := List.isPrefixOf_iff_prefix

theorem opWord_mem (op : FlwOp) : opWord op ∈ words := by
  cases op <;> decide

theorem rename_word {a : CString} (ha : a ∈ words) (h : a <+: t) (hne : "add".toList ≠ a) :
    rename op t = t := by
  rw [rename, if_neg]
  rw [startsAdd_iff]
  exact not_starts ha h (by decide) hne

theorem rename_add (h : "add".toList <+: t) : opWord op <+: rename op t := by
  rw [rename, if_pos (startsAdd_iff.mpr h)]
  exact List.prefix_append _ _

theorem isMarker_rename (t : CString) : isMarker (rename op t) = isMarker t := by
  by_cases h : "add".toList <+: t
  · have hno {a : CString} (ha : a ∈ words) {u : CString} (hu : a <+: u)
        (hne : "action".toList ≠ a) : isMarker u = false := by
      rw [isMarker, Bool.eq_false_iff, ne_eq, List.isPrefixOf_iff_prefix]
      exact not_starts ha hu (by decide) hne
    rw [hno (by decide) h (by decide)]
    exact hno (opWord_mem op) (rename_add h) (by cases op <;> decide)
  · rw [rename, if_neg (fun hadd => h (startsAdd_iff.mp hadd))]

theorem matchPart_rename (ts : List CString) :
    matchPart (ts.map (rename op)) = (matchPart ts).map (rename op) := by
  have hcomp : (fun t => !isMarker t) ∘ rename op = fun t => !isMarker t :=
    funext fun t => congrArg not (isMarker_rename t)
  rw [matchPart, List.takeWhile_map, hcomp, matchPart]

theorem actionPart_rename (ts : List CString) :
    actionPart (ts.map (rename op)) = (actionPart ts).map (rename op) := by
  have hcomp : (fun t => !isMarker t) ∘ rename op = fun t => !isMarker t :=
    funext fun t => congrArg not (isMarker_rename t)
  rw [actionPart, List.dropWhile_map, hcomp, actionPart, List.map_drop]

/-- What two runs have in common whatever their arrays held at first: all but the arrays, with
the one command in the place of the other. -/
structure Same (op : FlwOp) (s s' : Locals) : Prop where
  rqdField : s'.rqdField = s.rqdField
  tupleCnt : s'.tupleCnt = s.tupleCnt
  actionCnt : s'.actionCnt = s.actionCnt
  devId : s'.devId = s.devId
  tblId : s'.tblId = s.tblId
  flowCmd : s'.flowCmd = s.flowCmd.map fun c => if c = .add then op else c

theorem Same.commanded (h : Same op s s') (hcmd : s.flowCmd.isSome) : s'.flowCmd.isSome := by
  rw [h.flowCmd, Option.isSome_map]
  exact hcmd

theorem Same.matchStep (h : MatchStep devCnt t s u) (hs : Same op s s') :
    ∃ u', MatchStep devCnt (rename op t) s' u' ∧ Same op u u' := by
  cases h with
  | filter h =>
    rw [rename_word (by decide) h (by decide)]
    exact ⟨s', .filter h, hs⟩
  | command op₀ h =>
    by_cases hadd : op₀ = .add
    · subst hadd
      refine ⟨_, .command op (rename_add h), { hs with flowCmd := ?_ }⟩
      rw [Option.map_some, if_pos rfl]
    · rw [rename_word (opWord_mem op₀) h (by cases op₀ <;> simp_all [opWord])]
      refine ⟨_, .command op₀ h, { hs with flowCmd := ?_ }⟩
      rw [Option.map_some, if_neg hadd]
  | dev hcmd h v hv hmem =>
    rw [rename_word (by decide) h (by decide)]
    exact ⟨_, .dev (hs.commanded hcmd) h v hv hmem, { hs with devId := rfl }⟩
  | tbl hcmd h v hv h0 =>
    rw [rename_word (by decide) h (by decide)]
    exact ⟨_, .tbl (hs.commanded hcmd) h v hv h0, { hs with tblId := rfl }⟩
  | field hcmd f hf h hreq hcnt text htext v hv =>
    have hne := (chain_not_keyword f.word (word_mem_chain hf)).2.1
    have hcnt' : s'.tupleCnt < 25 := by rw [hs.tupleCnt]; exact hcnt
    obtain ⟨v', hv'⟩ := parse_any hf hv s'.tuples[s'.tupleCnt].value
    rw [← hs.rqdField] at hreq
    rw [rename_word (word_mem_words hf) h hne]
    refine ⟨_, .field (hs.commanded hcmd) f hf h hreq hcnt' text htext v' hv', ?_⟩
    exact { hs with rqdField := rfl, tupleCnt := congrArg Nat.succ hs.tupleCnt }

theorem rename_action (h : "drop".toList <+: t ∨ "out-port".toList <+: t) : rename op t = t := by
  rw [rename, if_neg]
  rw [startsAdd_iff]
  rintro ⟨r, rfl⟩
  obtain ⟨q, hq⟩ | ⟨q, hq⟩ := h <;> cases hq

theorem Same.actionStep (h : ActionStep t s u) (hs : Same op s s') :
    ∃ u', ActionStep (rename op t) s' u' ∧ Same op u u' := by
  cases h with
  | drop h hcnt =>
    rw [rename_action (Or.inl h)]
    exact ⟨_, .drop h (by rw [hs.actionCnt]; exact hcnt), { hs with }⟩
  | outPort h hcnt text htext =>
    rw [rename_action (Or.inr h)]
    refine ⟨_, .outPort h (by rw [hs.actionCnt]; exact hcnt) text htext, ?_⟩
    exact { hs with actionCnt := congrArg Nat.succ hs.actionCnt }

theorem rename_noSpace (h : ' ' ∉ t) : ' ' ∉ rename op t := by
  rw [rename]
  split
  · rw [List.mem_append, not_or]
    refine ⟨by cases op <;> decide, fun hmem => h (List.mem_of_mem_drop hmem)⟩
  · exact h

theorem tokens_rewriteLine (op : FlwOp) (cmd : CString) :
    tokens ' ' (rewriteLine op cmd) = (tokens ' ' cmd).map (rename op) := by
  apply tokens_join
  · rw [ne_eq, List.map_eq_nil_iff]
    exact tokens_ne_nil ' ' cmd
  · intro t ht
    obtain ⟨t', ht', rfl⟩ := List.mem_map.mp ht
    exact rename_noSpace (notMem_tokens ht')

theorem rename_isMatch (h : isMatch t = true) : rename op t = t := by
  obtain ⟨k, hk⟩ := Option.isSome_iff_exists.mp h
  by_contra hne
  have hadd : "add".toList <+: t := by
    by_contra hno
    exact hne (by rw [rename, if_neg (fun hs => hno (startsAdd_iff.mp hs))])
  rw [place_none (not_isMatch (by decide) (by decide) hadd)] at hk
  cases hk

theorem isMatch_rename (t : CString) : isMatch (rename op t) = isMatch t := by
  by_cases h : "add".toList <+: t
  · rw [isMatch_word (by decide) (by decide) h]
    exact isMatch_word (opWord_mem op) (by cases op <;> decide) (rename_add h)
  · rw [rename, if_neg (fun hadd => h (startsAdd_iff.mp hadd))]

theorem map_fixed {f : CString → CString} (h : ∀ t ∈ ts, f t = t) : ts.map f = ts :=
  (List.map_congr_left h).trans (List.map_id ts)

theorem matches_rename (op : FlwOp) (ts : List CString) :
    (ts.map (rename op)).filter isMatch = ts.filter isMatch := by
  have hcomp : isMatch ∘ rename op = isMatch := funext isMatch_rename
  rw [List.filter_map, hcomp]
  exact map_fixed fun t ht => rename_isMatch (List.mem_filter.mp ht).2

theorem filled_rename {tuples : Vector Tuple 25} :
    TuplesFilled tuples (ts.map (rename op)) s ↔ TuplesFilled tuples ts s := by
  have h := matches_rename op ts
  constructor
  · rintro ⟨hcnt, hfills, hrest⟩
    rw [h] at hcnt hfills
    exact ⟨hcnt, hfills, hrest⟩
  · rintro ⟨hcnt, hfills, hrest⟩
    rw [← h] at hcnt hfills
    exact ⟨hcnt, hfills, hrest⟩

theorem take_eq_iff {α : Type} {n k : Nat} {v w : Vector α n} :
    v.toList.take k = w.toList.take k ↔ ∀ i, i < k → ∀ h : i < n, v[i] = w[i] := by
  constructor
  · intro heq i hi h
    have hget := congrArg (fun l => l[i]?) heq
    simpa [List.getElem?_take_of_lt hi, h] using hget
  · intro hall
    apply List.ext_getElem
    · simp
    · intro i h₁ h₂
      simp only [List.length_take, Vector.length_toList] at h₁
      simpa using hall i (by omega) (by omega)

/-- Two fillings of the same match tokens count the same tuples when the arrays agreed behind
what was set. -/
theorem tuples_eq_iff {tuples tuples' : Vector Tuple 25} (hs : TuplesFilled tuples ts s)
    (hs' : TuplesFilled tuples' ts s') :
    s.flow.countedTuples = s'.flow.countedTuples ↔
      ∀ i t, (ts.filter isMatch)[i]? = some t → ∀ h : i < 25,
        tuples[i].value.bytes.drop (written t) = tuples'[i].value.bytes.drop (written t) := by
  have hcnt : s'.tupleCnt = s.tupleCnt := by rw [hs.tupleCnt, hs'.tupleCnt]
  have htake : s.flow.countedTuples = s'.flow.countedTuples ↔
      ∀ i, i < s.tupleCnt → ∀ h : i < 25, s.tuples[i] = s'.tuples[i] := by
    rw [← take_eq_iff]
    simp only [Flow.countedTuples, Locals.flow, hcnt]
  rw [htake]
  constructor
  · intro heq i t ht h
    have hi : i < s.tupleCnt := by
      rw [hs.tupleCnt]
      exact (List.getElem?_eq_some_iff.mp ht).1
    obtain ⟨_, hfill⟩ := hs.fills i t ht
    obtain ⟨_, hfill'⟩ := hs'.fills i t ht
    exact (fills_eq_iff hfill hfill').mp (heq i hi h)
  · intro hagree i hi h
    rw [hs.tupleCnt] at hi
    have ht := List.getElem?_eq_getElem hi
    obtain ⟨_, hfill⟩ := hs.fills i _ ht
    obtain ⟨_, hfill'⟩ := hs'.fills i _ ht
    exact (fills_eq_iff hfill hfill').mpr (hagree i _ ht h)

theorem actions_eq_iff {actions actions' : Vector Action 25} (hs : PortsSent actions ts s)
    (hs' : PortsSent actions' ts s') :
    s.flow.countedActions = s'.flow.countedActions ↔
      ∀ i, i < (ts.filter isPort).length → ∀ h : i < 25,
        actions[i].value.bytes.drop 2 = actions'[i].value.bytes.drop 2 := by
  have hcnt : s'.actionCnt = s.actionCnt := by rw [hs.actionCnt, hs'.actionCnt]
  have htake : s.flow.countedActions = s'.flow.countedActions ↔
      ∀ i, i < (ts.filter isPort).length → ∀ h : i < 25, s.actions[i] = s'.actions[i] := by
    rw [← take_eq_iff]
    simp only [Flow.countedActions, Locals.flow, hcnt, hs.actionCnt]
  rw [htake]
  refine forall_congr' fun i => forall_congr' fun hi => forall_congr' fun h => ?_
  have ht := List.getElem?_eq_getElem hi
  obtain ⟨_, text, htext, hslot⟩ := hs.ports i _ ht
  obtain ⟨_, text', htext', hslot'⟩ := hs'.ports i _ ht
  rw [htext] at htext'
  cases htext'
  rw [hslot, hslot', FlowTypes.Action.mk.injEq, storeShort_eq_iff]
  exact and_iff_right rfl

/-- Whatever the arrays hold at first, the line with `del` or `dump` for `add` reaches the same
device, and its flow is the one that was added exactly when the arrays held the same bytes
behind those that the line sets. -/
theorem rewriteLine_sameRule_iff {flwDevs : Table D} {tuples : Vector Tuple 25}
    {actions : Vector Action 25} {cmd : CString} {d : D} {c : FlwCall}
    (h : fibCmdFilter flwDevs tuples actions cmd = .calls d c) (hadd : c.op = .add) (op : FlwOp)
    (tuples' : Vector Tuple 25) (actions' : Vector Action 25) :
    ∃ c', fibCmdFilter flwDevs tuples' actions' (rewriteLine op cmd) = .calls d c' ∧ c'.op = op ∧
      (SameRule c c' ↔ AgreeBehind (tokens ' ' cmd) tuples tuples' actions actions') := by
  obtain ⟨s₁, s₂, op₀, hmatch, haction, hop, hd, rfl⟩ := fibCmdFilter_calls_iff.mp h
  cases hadd
  have hinit : Same op (initialLocals tuples actions) (initialLocals tuples' actions') :=
    ⟨rfl, rfl, rfl, rfl, rfl, rfl⟩
  obtain ⟨s₁', hmatch', hsame₁⟩ := hmatch.simulate (Same op) (rename op)
    (fun _ _ _ _ hstep hs => hs.matchStep hstep) hinit
  obtain ⟨s₂', haction', hsame⟩ := haction.simulate (Same op) (rename op)
    (fun _ _ _ _ hstep hs => hs.actionStep hstep) hsame₁
  have hop' : s₂'.flowCmd = some op := by
    rw [hsame.flowCmd, hop, Option.map_some, if_pos rfl]
  refine ⟨⟨op, s₂'.devId, s₂'.tblId, some s₂'.flow⟩, ?_, rfl, ?_⟩
  · rw [fibCmdFilter_calls_iff, tokens_rewriteLine, matchPart_rename, actionPart_rename]
    exact ⟨s₁', s₂', op, hmatch', haction', hop', by rw [hsame.devId]; exact hd, rfl⟩
  · have hknown := actionSteps_known haction
    rw [map_fixed fun t ht => rename_action (hknown t ht)] at haction'
    have hfilled := tuplesFilled_line hmatch haction
    have hfilled' := tuplesFilled_line hmatch' haction'
    rw [filled_rename] at hfilled'
    have hsent := portsSent_actions haction (matchSteps_frame hmatch).1 (matchSteps_frame hmatch).2
    have hsent' := portsSent_actions haction' (matchSteps_frame hmatch').1
      (matchSteps_frame hmatch').2
    have htuples := tuples_eq_iff hfilled hfilled'
    have hactions := actions_eq_iff hsent hsent'
    constructor
    · rintro ⟨-, -, flow, flow', hflow, hflow', -, -, ht, ha⟩
      cases hflow
      cases hflow'
      exact ⟨htuples.mp ht, hactions.mp ha⟩
    · intro hagree
      exact ⟨hsame.devId.symm, hsame.tblId.symm, s₂.flow, s₂'.flow, rfl, rfl,
        hsame.tupleCnt.symm, hsame.actionCnt.symm, htuples.mpr hagree.tuples,
        hactions.mpr hagree.actions⟩

def addLine : CString := "filter add in-phy-port=1 action out-port=2".toList

def filledWith (b : UInt8) : Value := ⟨List.replicate 16 b, List.length_replicate⟩

theorem addLine_differs : ∃ c c',
    fibCmdFilter (ofList [()]) (Vector.replicate 25 ⟨.inPort, filledWith 0⟩)
      (Vector.replicate 25 ⟨.drop, filledWith 0⟩) addLine = .calls () c ∧ c.op = .add ∧
    fibCmdFilter (ofList [()]) (Vector.replicate 25 ⟨.inPort, filledWith 1⟩)
      (Vector.replicate 25 ⟨.drop, filledWith 1⟩) (rewriteLine .delete addLine) = .calls () c' ∧
    ¬ SameRule c c' := by
  refine ⟨_, _, rfl, rfl, rfl, ?_⟩
  rintro ⟨-, -, flow, flow', hflow, hflow', -, -, htuples, -⟩
  cases hflow
  cases hflow'
  have hbytes := congrArg (List.map fun t => t.value.bytes) htuples
  revert hbytes
  decide

def filledAhead : Value := ⟨[7, 7] ++ List.replicate 14 0, rfl⟩

theorem addLine_agreeBehind : AgreeBehind (tokens ' ' addLine)
    (Vector.replicate 25 ⟨.inPort, filledWith 0⟩) (Vector.replicate 25 ⟨.dlSrc, filledAhead⟩)
    (Vector.replicate 25 ⟨.drop, filledWith 0⟩) (Vector.replicate 25 ⟨.drop, filledAhead⟩) := by
  have hmatch : (matchPart (tokens ' ' addLine)).filter isMatch = ["in-phy-port=1".toList] := by
    decide
  constructor
  · intro i t ht h
    rw [hmatch] at ht
    obtain rfl := List.mem_singleton.mp (List.mem_of_getElem? ht)
    rw [Vector.getElem_replicate, Vector.getElem_replicate]
    decide
  · intro i _ h
    rw [Vector.getElem_replicate, Vector.getElem_replicate]
    decide

theorem addLine_deleted : ∃ c c',
    fibCmdFilter (ofList [()]) (Vector.replicate 25 ⟨.inPort, filledWith 0⟩)
      (Vector.replicate 25 ⟨.drop, filledWith 0⟩) addLine = .calls () c ∧
    fibCmdFilter (ofList [()]) (Vector.replicate 25 ⟨.dlSrc, filledAhead⟩)
      (Vector.replicate 25 ⟨.drop, filledAhead⟩) (rewriteLine .delete addLine) = .calls () c' ∧
    c'.op = .delete ∧ SameRule c c' := by
  have hcall : ∃ c, fibCmdFilter (ofList [()]) (Vector.replicate 25 ⟨.inPort, filledWith 0⟩)
      (Vector.replicate 25 ⟨.drop, filledWith 0⟩) addLine = .calls () c ∧ c.op = .add :=
    ⟨_, rfl, rfl⟩
  obtain ⟨c, hc, hadd⟩ := hcall
  obtain ⟨c', hc', hop, hsame⟩ := rewriteLine_sameRule_iff hc hadd .delete
    (Vector.replicate 25 ⟨.dlSrc, filledAhead⟩) (Vector.replicate 25 ⟨.drop, filledAhead⟩)
  exact ⟨c, c', hc, hc', hop, hsame.mpr addLine_agreeBehind⟩

end LibSwitch.FlowRenaming

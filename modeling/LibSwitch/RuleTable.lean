import LibSwitch.FlowLoad
import LibSwitch.FlowRenaming
import LibSwitch.KeyedStore

namespace LibSwitch.RuleTable

open LibSwitch.PointerTable LibSwitch.ByteBuffer LibSwitch.CText LibSwitch.ListRuns
open LibSwitch.Numeral LibSwitch.Address LibSwitch.TrailingNewline LibSwitch.Common
open LibSwitch.FlowTypes LibSwitch.FlowFilter LibSwitch.FilterWords LibSwitch.FilterRule
open LibSwitch.FilterSteps LibSwitch.FlowContents LibSwitch.FilterTwins LibSwitch.FlowRenaming
open LibSwitch.FlowLoad LibSwitch.BridgeGrammar LibSwitch.KeyedStore

variable {D : Type}

/-- What tells a rule from another one: of each tuple and action the bytes that are stored for
its field, and nothing of what the memory held behind them. -/
structure TableRule where
  devId : Int
  flowTable : Int
  tuples : List (FlowTuple × List UInt8)
  actions : List (FlowAction × List UInt8)
  deriving DecidableEq

def tupleKey (t : Tuple) : FlowTuple × List UInt8 :=
  (t.id, ByteBuffer.read t.value 0 (tupleBytes t.id))

def actionKey (a : Action) : FlowAction × List UInt8 :=
  (a.id, ByteBuffer.read a.value 0 (actionBytes a.id))

def ruleOf (c : FlwCall) : Option TableRule :=
  c.flow.map fun f =>
    ⟨c.devId, c.flowTable, f.countedTuples.map tupleKey, f.countedActions.map actionKey⟩

def tableOp {K : Type} : FlwOp → K → Op K
  | .add => .insert
  | .delete => .erase
  | .lookup => .find

/-- The operations on the rules that device calls stand for. A message passes no rule. -/
def script (cs : List (D × FlwCall)) : List (Op TableRule) :=
  cs.filterMap fun x => (ruleOf x.2).map (tableOp x.2.op)

/-- An entry made with an `add` line, and its deletion and its lookup, made with the same line
under another command word. -/
def entryLine : Op CString → CString
  | .insert l => l
  | .erase l => rewriteLine .delete l
  | .find l => rewriteLine .lookup l

/-- A filter line with well-formed IPv4 addresses that adds the rule, in some memory. -/
structure AddLine (flwDevs : Table D) (l : CString) (r : TableRule) : Prop where
  filter : "filter".toList <+: l
  ip : ∀ t ∈ tokens ' ' l, IsIp t → ∀ v, optionValue t = some v → (inetPton v).isSome
  adds : ∃ mem : Arrays, ∃ d c, fibCmdFilter flwDevs mem.1 mem.2 l = .calls d c ∧ c.op = .add ∧
    ruleOf c = some r

def EndsPlain (l : CString) : Prop := ∀ ts t, tokens ' ' l = ts ++ [t] → ¬ IsIp t

/-- The text with which an entry is handed to the parser: a line that is read from a file has its
newline, and must not end in an IPv4 address. -/
def Hands (o : Op CString) (u : CString) : Prop :=
  u = entryLine o ∨ u = ended (entryLine o) ∧ EndsPlain (entryLine o)

variable {flwDevs : Table D} {devCnt : Nat} {op : FlwOp} {t l u : CString} {s s' : Locals}
variable {tuples : Vector Tuple 25} {actions : Vector Action 25} {d : D} {c c' : FlwCall}
variable {f g : Flow} {r : TableRule} {o : Op CString} {rule : CString → TableRule}

theorem countedTuples_eq (h : SameFlow f g) :
    f.countedTuples.map tupleKey = g.countedTuples.map tupleKey := by
  apply List.ext_getElem
  · simp [Flow.countedTuples, h.numTuples]
  · intro i hi hi'
    simp only [Flow.countedTuples, List.length_map, List.length_take, Vector.length_toList] at hi
    have hsame := h.tuples i (by omega) (by omega)
    simp only [Flow.countedTuples, List.getElem_map, List.getElem_take, Vector.getElem_toList]
    rw [tupleKey, tupleKey, hsame.bytes, hsame.id]

theorem countedActions_eq (h : SameFlow f g) :
    f.countedActions.map actionKey = g.countedActions.map actionKey := by
  apply List.ext_getElem
  · simp [Flow.countedActions, h.numActions]
  · intro i hi hi'
    simp only [Flow.countedActions, List.length_map, List.length_take, Vector.length_toList] at hi
    have hsame := h.actions i (by omega) (by omega)
    simp only [Flow.countedActions, List.getElem_map, List.getElem_take, Vector.getElem_toList]
    rw [actionKey, actionKey, hsame.bytes, hsame.id]

theorem ruleOf_same (h : SameCall c c') : ruleOf c = ruleOf c' := by
  obtain ⟨f, g, hf, hg, hflow⟩ := h.flow
  rw [ruleOf, ruleOf, hf, hg, Option.map_some, Option.map_some, h.devId, h.flowTable,
    countedTuples_eq hflow, countedActions_eq hflow]

def recommand (op : FlwOp) (s : Locals) : Locals :=
  { s with flowCmd := s.flowCmd.map fun c => if c = .add then op else c }

theorem recommand_isSome (h : s.flowCmd.isSome) : (recommand op s).flowCmd.isSome := by
  rw [recommand, Option.isSome_map]
  exact h

theorem matchStep_rename (h : MatchStep devCnt t s s') :
    MatchStep devCnt (rename op t) (recommand op s) (recommand op s') := by
  cases h with
  | filter h =>
    rw [rename_word (by decide) h (by decide)]
    exact .filter h
  | command op₀ h =>
    have hstep : ∀ op₁, opWord op₁ <+: rename op t → (if op₀ = .add then op else op₀) = op₁ →
        MatchStep devCnt (rename op t) (recommand op s)
          (recommand op { s with flowCmd := some op₀ }) := by
      rintro op₁ hword rfl
      exact .command _ hword
    by_cases hadd : op₀ = .add
    · subst hadd
      exact hstep op (rename_add h) (if_pos rfl)
    · have hne : "add".toList ≠ opWord op₀ := by cases op₀ <;> simp_all [opWord]
      rw [rename_word (opWord_mem op₀) h hne] at hstep ⊢
      exact hstep op₀ h (if_neg hadd)
  | dev hcmd h v hv hmem =>
    rw [rename_word (by decide) h (by decide)]
    exact .dev (recommand_isSome hcmd) h v hv hmem
  | tbl hcmd h v hv h0 =>
    rw [rename_word (by decide) h (by decide)]
    exact .tbl (recommand_isSome hcmd) h v hv h0
  | field hcmd f hf h hreq hcnt text htext v hv =>
    rw [rename_word (word_mem_words hf) h (chain_not_keyword f.word (word_mem_chain hf)).2.1]
    exact .field (recommand_isSome hcmd) f hf h hreq hcnt text htext v hv

theorem actionStep_rename (h : ActionStep t s s') :
    ActionStep (rename op t) (recommand op s) (recommand op s') := by
  cases h with
  | drop h hcnt =>
    rw [rename_action (Or.inl h)]
    exact .drop (s := recommand op s) h hcnt
  | outPort h hcnt text htext =>
    rw [rename_action (Or.inr h)]
    exact .outPort (s := recommand op s) h hcnt text htext

theorem rewriteLine_calls (h : fibCmdFilter flwDevs tuples actions l = .calls d c)
    (hadd : c.op = .add) (op : FlwOp) :
    fibCmdFilter flwDevs tuples actions (rewriteLine op l) = .calls d { c with op := op } := by
  obtain ⟨s₁, s₂, op₀, hmatch, haction, hop, hd, rfl⟩ := fibCmdFilter_calls_iff.mp h
  cases hadd
  obtain ⟨_, hmatch', rfl⟩ := hmatch.simulate (fun s s' => s' = recommand op s) (rename op)
    (fun _ _ _ _ hstep hs => ⟨_, hs ▸ matchStep_rename hstep, rfl⟩) rfl
  obtain ⟨_, haction', rfl⟩ := haction.simulate (fun s s' => s' = recommand op s) (rename op)
    (fun _ _ _ _ hstep hs => ⟨_, hs ▸ actionStep_rename hstep, rfl⟩) rfl
  rw [fibCmdFilter_calls_iff, tokens_rewriteLine, matchPart_rename, actionPart_rename]
  exact ⟨_, _, op, hmatch', haction', by rw [recommand, hop, Option.map_some, if_pos rfl], hd, rfl⟩

theorem isIp_rename (h : IsIp (rename op t)) : rename op t = t := by
  by_contra hne
  have hadd : "add".toList <+: t := by
    by_contra hno
    exact hne (if_neg fun hs => hno (startsAdd_iff.mp hs))
  obtain ⟨w, hw, hwt⟩ := isIp_word h
  have hapart : ∀ n ∈ ["nw-dst".toList, "nw-src".toList],
      ¬ n <+: opWord op ∧ ¬ opWord op <+: n := by cases op <;> decide
  exact word_apart hapart (rename_add hadd) w hw hwt

theorem ip_rewriteLine (h : ∀ t ∈ tokens ' ' l, IsIp t → ∀ v, optionValue t = some v →
    (inetPton v).isSome) (op : FlwOp) :
    ∀ t ∈ tokens ' ' (rewriteLine op l), IsIp t → ∀ v, optionValue t = some v →
      (inetPton v).isSome := by
  intro t ht hip v hv
  rw [tokens_rewriteLine, List.mem_map] at ht
  obtain ⟨u, hu, rfl⟩ := ht
  have hfix := isIp_rename hip
  rw [hfix] at hip hv
  exact h u hu hip v hv

/-- The calls for a line do not depend on the memory. -/
theorem calls_anywhere (hip : ∀ t ∈ tokens ' ' l, IsIp t → ∀ v, optionValue t = some v →
      (inetPton v).isSome) {mem : Arrays}
    (h : fibCmdFilter flwDevs mem.1 mem.2 l = .calls d c) (mem' : Arrays) :
    ∃ c', fibCmdFilter flwDevs mem'.1 mem'.2 l = .calls d c' ∧ SameCall c' c := by
  have htwins : List.Forall₂ (Twin True) (tokens ' ' l) (tokens ' ' l) := twins_refl hip
  have halike := fibCmdFilter_alike flwDevs htwins mem'.1 mem.1 mem'.2 mem.2
  rw [h] at halike
  obtain ⟨c', hcall, hsame⟩ := halike.of_calls
  exact ⟨c', hcall, hsame trivial⟩

/-- Nor on a newline, unless the line ends in an IPv4 address. -/
theorem calls_ended (hip : ∀ t ∈ tokens ' ' l, IsIp t → ∀ v, optionValue t = some v →
      (inetPton v).isSome) (hlast : EndsPlain l) {mem : Arrays}
    (h : fibCmdFilter flwDevs mem.1 mem.2 l = .calls d c) (mem' : Arrays) :
    ∃ c', fibCmdFilter flwDevs mem'.1 mem'.2 (ended l) = .calls d c' ∧ SameCall c' c := by
  obtain ⟨ts, t, hts⟩ := tokens_eq_concat ' ' l
  have hno := hlast ts t hts
  have htwins : List.Forall₂ (Twin True) (tokens ' ' (ended l)) (tokens ' ' l) := by
    rw [hts] at hip
    rw [tokens_ended hts, hts]
    refine List.rel_append (twins_refl fun u hu => hip u (List.mem_append_left _ hu)) ?_
    exact .cons ⟨Or.inr rfl, fun _ h => absurd h hno⟩ .nil
  have halike := fibCmdFilter_alike flwDevs htwins mem'.1 mem.1 mem'.2 mem.2
  rw [h] at halike
  obtain ⟨c', hcall, hsame⟩ := halike.of_calls
  exact ⟨c', hcall, hsame trivial⟩

theorem tokens_word (hw : ' ' ∉ u) (l : CString) :
    ∃ t ts, tokens ' ' l = t :: ts ∧ tokens ' ' (u ++ l) = (u ++ t) :: ts := by
  obtain ⟨t, ts, hts⟩ := List.exists_cons_of_ne_nil (tokens_ne_nil ' ' l)
  refine ⟨t, ts, hts, ?_⟩
  induction u with
  | nil => exact hts
  | cons c u ih =>
    rw [List.mem_cons, not_or] at hw
    rw [List.cons_append, tokens, if_neg (Ne.symm hw.1), ih hw.2]
    rfl

theorem prefix_join (h : u <+: t) (ts : List CString) : u <+: join ' ' (t :: ts) := by
  cases ts with
  | nil => exact h
  | cons v ts => exact h.trans (List.prefix_append t _)

theorem filter_rewriteLine (h : "filter".toList <+: l) (op : FlwOp) :
    "filter".toList <+: rewriteLine op l := by
  obtain ⟨r, rfl⟩ := h
  obtain ⟨t, ts, -, hts⟩ := tokens_word (show ' ' ∉ "filter".toList by decide) r
  have hfix : rename op ("filter".toList ++ t) = "filter".toList ++ t :=
    rename_word (by decide) (List.prefix_append _ t) (by decide)
  rw [rewriteLine, hts, List.map_cons, hfix]
  exact prefix_join (List.prefix_append _ t) _

theorem AddLine.filter_entry (h : AddLine flwDevs o.key r) : "filter".toList <+: entryLine o := by
  cases o with
  | insert l => exact h.filter
  | erase l => exact filter_rewriteLine h.filter .delete
  | find l => exact filter_rewriteLine h.filter .lookup

theorem AddLine.entry (h : AddLine flwDevs o.key (rule o.key)) :
    (∀ t ∈ tokens ' ' (entryLine o), IsIp t → ∀ v, optionValue t = some v → (inetPton v).isSome) ∧
      ∃ mem : Arrays, ∃ d c, fibCmdFilter flwDevs mem.1 mem.2 (entryLine o) = .calls d c ∧
        (ruleOf c).map (tableOp c.op) = some (o.map rule) := by
  obtain ⟨mem, d, c, hcall, hadd, hrule⟩ := h.adds
  cases o with
  | insert l => exact ⟨h.ip, mem, d, c, hcall, by rw [hrule, hadd]; rfl⟩
  | erase l =>
    exact ⟨ip_rewriteLine h.ip .delete, mem, d, _, rewriteLine_calls hcall hadd .delete,
      congrArg (Option.map _) hrule⟩
  | find l =>
    exact ⟨ip_rewriteLine h.ip .lookup, mem, d, _, rewriteLine_calls hcall hadd .lookup,
      congrArg (Option.map _) hrule⟩

/-- Whatever the memory holds, an entry is one operation on the rule of its line. -/
theorem AddLine.calls (h : AddLine flwDevs o.key (rule o.key)) (hu : Hands o u) (mem : Arrays) :
    ∃ d c, fibCmdFilter flwDevs mem.1 mem.2 u = .calls d c ∧
      (ruleOf c).map (tableOp c.op) = some (o.map rule) := by
  obtain ⟨hip, mem₀, d, c, hcall, hop⟩ := h.entry
  have hanywhere : ∃ c', fibCmdFilter flwDevs mem.1 mem.2 u = .calls d c' ∧ SameCall c' c := by
    obtain rfl | ⟨rfl, hlast⟩ := hu
    · exact calls_anywhere hip hcall mem
    · exact calls_ended hip hlast hcall mem
  obtain ⟨c', hcall', hsame⟩ := hanywhere
  exact ⟨d, c', hcall', by rw [ruleOf_same hsame, hsame.op, hop]⟩

theorem script_entries {ops : List (Op CString)} {us : List CString}
    (hops : ∀ o ∈ ops, AddLine flwDevs o.key (rule o.key)) (hus : List.Forall₂ Hands ops us)
    (mem : Nat → Arrays) :
    script (deviceCalls (eachLine (filterLine flwDevs) mem us)) = ops.map (Op.map rule) := by
  induction hus generalizing mem with
  | nil => rfl
  | @cons o u ops us hu _ ih =>
    rw [List.forall_mem_cons] at hops
    obtain ⟨d, c, hcall, hop⟩ := hops.1.calls hu (mem 0)
    have htail := ih hops.2 fun i => mem (i + 1)
    rw [eachLine, filterLine, hcall, List.singleton_append, deviceCalls, List.map_cons, ← htail]
    exact List.filterMap_cons_some hop

end LibSwitch.RuleTable

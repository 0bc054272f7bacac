import Mathlib.Data.List.Forall2
import LibSwitch.DumpedRules
import LibSwitch.FlowContents
import LibSwitch.FilterDevices

namespace LibSwitch.StubPrints

open LibSwitch.PointerTable LibSwitch.ByteOrder LibSwitch.ByteBuffer LibSwitch.CText
open LibSwitch.ListRuns LibSwitch.Numeral LibSwitch.Common LibSwitch.FlowTypes
open LibSwitch.FlowFilter LibSwitch.FilterWords LibSwitch.FilterRule LibSwitch.FilterSteps
open LibSwitch.FilterActions LibSwitch.FlowContents LibSwitch.FlowDump LibSwitch.DumpedRules
open LibSwitch.FilterOutcomes LibSwitch.FilterDevices

variable {A D : Type}

/-- The text is a line without its newline, and the function prints it for the item. -/
def Prints (f : A → Option CString) (l : CString) (a : A) : Prop :=
  '\n' ∉ l ∧ f a = some (l ++ ['\n'])

variable {f : A → Option CString} {as : List A} {s : Locals} {ts : List CString}
variable {flwDevs : Table D} {tuples : Vector Tuple 25} {actions : Vector Action 25}
variable {cmd : CString} {d : D} {c : FlwCall}

theorem exists_lines (h : ∀ a ∈ as, ∃ l, Prints f l a) : ∃ ls, List.Forall₂ (Prints f) ls as := by
  induction as with
  | nil => exact ⟨[], .nil⟩
  | cons a as ih =>
    rw [List.forall_mem_cons] at h
    obtain ⟨⟨l, hl⟩, htail⟩ := h
    obtain ⟨ls, hls⟩ := ih htail
    exact ⟨l :: ls, .cons hl hls⟩

theorem dec_plain (n : Nat) : '\n' ∉ dec n := toDigits_plain (by decide) (by decide)

theorem valueText_line {m : MatchField} (hm : m ∈ matchFields) (v : Value) :
    ∃ l, '\n' ∉ l ∧ valueText m.id v = l ++ ['\n'] := by
  have hnum : '\n' ∉ dec (leNat (read v 0 2)) := dec_plain _
  have hhex : '\n' ∉ hex (leNat (read v 0 2)) := toDigits_plain (by decide) (by decide)
  have hip : '\n' ∉ ipText (read v 0 4) := digits_plain (by decide) (by decide) (by decide) _
  have hmac : '\n' ∉ macText (read v 0 6) ++ [' '] := by
    rw [List.mem_append, not_or]
    exact ⟨digits_plain (by decide) (by decide) (by decide) _, by decide⟩
  have hmacText : macText (read v 0 6) ++ " \n".toList =
      (macText (read v 0 6) ++ [' ']) ++ ['\n'] := by
    rw [List.append_assoc]
    rfl
  simp only [matchFields, List.mem_cons, List.not_mem_nil, or_false] at hm
  obtain rfl | rfl | rfl | rfl | rfl | rfl | rfl | rfl | rfl | rfl | rfl := hm
  · exact ⟨_, hnum, rfl⟩
  · exact ⟨_, hnum, rfl⟩
  · exact ⟨_, hmac, hmacText⟩
  · exact ⟨_, hmac, hmacText⟩
  · exact ⟨_, hhex, rfl⟩
  · exact ⟨_, hip, rfl⟩
  · exact ⟨_, hip, rfl⟩
  · exact ⟨_, hnum, rfl⟩
  · exact ⟨_, hnum, rfl⟩
  · exact ⟨_, hnum, rfl⟩
  · exact ⟨_, hnum, rfl⟩

theorem names_plain : ∀ name ∈ tupleName, '\n' ∉ name := by decide

theorem tupleHead_plain (id : FlowTuple) {name : CString} (h : '\n' ∉ name) :
    '\n' ∉ tupleHead id name := by
  have htext : tupleHead id name = "TUPLE ID=".toList ++ dec id.ctorIdx ++ " : ".toList ++ name ++
      "  ".toList := rfl
  simp only [htext, List.mem_append, not_or]
  exact ⟨⟨⟨⟨by decide, dec_plain _⟩, by decide⟩, h⟩, by decide⟩

theorem tuple_line {m : MatchField} (hm : m ∈ matchFields) {t : Tuple} (ht : t.id = m.id) :
    ∃ l, Prints tupleText l t := by
  obtain ⟨v, hv, htext⟩ := valueText_line hm t.value
  rw [← ht] at htext
  have hname := tupleText_isSome t
  rw [tupleText, Option.isSome_map, Option.isSome_iff_exists] at hname
  obtain ⟨name, hname⟩ := hname
  refine ⟨tupleHead t.id name ++ v, ?_, ?_⟩
  · rw [List.mem_append, not_or]
    exact ⟨tupleHead_plain t.id (names_plain name (List.mem_of_getElem? hname)), hv⟩
  · rw [tupleText, hname, Option.map_some, htext, List.append_assoc]

theorem action_line {a : Action} (ha : a.id = .outPort) : ∃ l, Prints actionText l a := by
  refine ⟨actionHead .outPort "enqueue_queue".toList ++ dec (leNat (read a.value 0 1)), ?_, ?_⟩
  · rw [List.mem_append, not_or]
    exact ⟨by decide, dec_plain _⟩
  · rw [actionText, ha]
    rfl

/-- All tuples that a flow counts are in the array, and each was set by the branch of a field. -/
theorem counted_tuples (h : TuplesFilled tuples ts s) :
    s.flow.countedTuples.length = s.tupleCnt ∧
      ∀ t ∈ s.flow.countedTuples, ∃ m ∈ matchFields, t.id = m.id := by
  have hfill (i : Nat) (hi : i < s.tupleCnt) : ∃ h25 : i < 25, ∃ m ∈ matchFields,
      s.tuples[i].id = m.id := by
    rw [h.tupleCnt] at hi
    obtain ⟨h25, m, hm, -, hid, -⟩ := h.fills i _ (List.getElem?_eq_getElem hi)
    exact ⟨h25, m, hm, hid⟩
  have hle : s.tupleCnt ≤ 25 := by
    by_contra hgt
    obtain ⟨h25, -⟩ := hfill 25 (by omega)
    exact absurd h25 (Nat.lt_irrefl 25)
  have hlen : s.flow.countedTuples.length = s.tupleCnt := by
    simp only [Flow.countedTuples, Locals.flow, List.length_take, Vector.length_toList]
    omega
  refine ⟨hlen, ?_⟩
  intro t ht
  obtain ⟨i, hi, rfl⟩ := List.mem_iff_getElem.mp ht
  rw [hlen] at hi
  obtain ⟨h25, m, hm, hid⟩ := hfill i hi
  refine ⟨m, hm, ?_⟩
  simpa [Flow.countedTuples, Locals.flow] using hid

theorem counted_actions (h : PortsSent actions ts s) :
    s.flow.countedActions.length = s.actionCnt ∧
      ∀ a ∈ s.flow.countedActions, a.id = .outPort := by
  have hlen : s.flow.countedActions.length = s.actionCnt := by
    have hle := h.actionCnt_le
    simp only [Flow.countedActions, Locals.flow, List.length_take, Vector.length_toList]
    omega
  refine ⟨hlen, ?_⟩
  intro a ha
  obtain ⟨i, hi, rfl⟩ := List.mem_iff_getElem.mp ha
  rw [hlen, h.actionCnt] at hi
  obtain ⟨h25, text, -, hslot⟩ := h.ports i _ (List.getElem?_eq_getElem hi)
  have hid : s.actions[i].id = .outPort := by rw [hslot]
  simpa [Flow.countedActions, Locals.flow] using hid

theorem mapM_prints {ls : List CString} (h : List.Forall₂ (Prints f) ls as) :
    as.mapM f = some (ls.map fun l => l ++ ['\n']) :=
  mapM_eq_some (h.imp fun _ _ hl => hl.2)

theorem prints_plain {ls : List CString} (h : List.Forall₂ (Prints f) ls as) :
    (∀ l ∈ ls, '\n' ∉ l) ∧ ls.length = as.length := by
  refine ⟨?_, h.length_eq⟩
  induction h with
  | nil => exact List.forall_mem_nil _
  | cons hl _ ih => exact List.forall_mem_cons.mpr ⟨hl.1, ih⟩

def callLines (devId flowTable : Int) : List CString :=
  ["device_id=".toList ++ decimal devId, "flow_table=".toList ++ decimal flowTable]

def headLines (c : FlwCall) : List CString :=
  ((stubHeader c.op).dropLast :: callLines c.devId c.flowTable) ++
    "in dump FUNCTION".toList :: callLines c.devId c.flowTable

def footLines (flowTable : Int) : List CString :=
  if flowTable ≠ 0 then ["flow table not NULL".toList] else []

theorem unlines_cons (l : CString) (ls : List CString) :
    unlines (l :: ls) = l ++ '\n' :: unlines ls := by
  rw [unlines, List.map_cons, List.flatten_cons, List.append_assoc, ← unlines]
  rfl

theorem unlines_append (ls ms : List CString) : unlines (ls ++ ms) = unlines ls ++ unlines ms := by
  rw [unlines, List.map_append, List.flatten_append, ← unlines, ← unlines]

theorem callText_lines (devId flowTable : Int) :
    callText devId flowTable = unlines (callLines devId flowTable) := by
  have htext : callText devId flowTable = "device_id=".toList ++ decimal devId ++
      '\n' :: "flow_table=".toList ++ decimal flowTable ++ ['\n'] := rfl
  have hlines : unlines (callLines devId flowTable) = ("device_id=".toList ++ decimal devId) ++
      '\n' :: (("flow_table=".toList ++ decimal flowTable) ++ '\n' :: []) := by
    rw [callLines, unlines_cons, unlines_cons]
    rfl
  rw [htext, hlines]
  simp only [List.append_assoc, List.cons_append]

theorem decimal_plain (v : Int) : '\n' ∉ decimal v := by
  have hdigit : digitVal '\n' = none := rfl
  exact (spellsInt_decimal v).notMem hdigit (by decide)

theorem callLines_plain (devId flowTable : Int) : ∀ l ∈ callLines devId flowTable, '\n' ∉ l := by
  intro l hl
  simp only [callLines, List.mem_cons, List.not_mem_nil, or_false] at hl
  obtain rfl | rfl := hl <;> rw [List.mem_append, not_or]
  · exact ⟨by decide, decimal_plain devId⟩
  · exact ⟨by decide, decimal_plain flowTable⟩

theorem headLines_plain (c : FlwCall) : ∀ l ∈ headLines c, '\n' ∉ l := by
  have hcall := callLines_plain c.devId c.flowTable
  rw [headLines, List.forall_mem_append, List.forall_mem_cons, List.forall_mem_cons]
  exact ⟨⟨by cases c.op <;> decide, hcall⟩, by decide, hcall⟩

theorem footLines_plain (flowTable : Int) : ∀ l ∈ footLines flowTable, '\n' ∉ l := by
  rw [footLines]
  split
  · decide
  · exact List.forall_mem_nil _

theorem head_text (c : FlwCall) :
    stubHeader c.op ++ callText c.devId c.flowTable ++ dumpHeader c.devId c.flowTable =
      unlines (headLines c) := by
  have hstub : stubHeader c.op = (stubHeader c.op).dropLast ++ ['\n'] := by cases c.op <;> rfl
  have hdump : dumpHeader c.devId c.flowTable = "in dump FUNCTION".toList ++
      '\n' :: callText c.devId c.flowTable := rfl
  rw [headLines, List.cons_append, unlines_cons, unlines_append, unlines_cons, hdump,
    callText_lines, hstub, List.dropLast_concat]
  simp only [List.append_assoc, List.cons_append, List.nil_append]

theorem foot_text (flowTable : Int) : dumpFooter flowTable = unlines (footLines flowTable) := by
  rw [dumpFooter, footLines]
  split <;> rfl

/-- Whatever line reaches the stub switch, its dump reads inside both tables of names, and it is
made of lines: those that name the call, one for each tuple and one for each action. -/
theorem stub_prints (h : fibCmdFilter flwDevs tuples actions cmd = .calls d c) :
    ∃ flow ls ms, c.flow = some flow ∧
      flowStubCall c = some (unlines (headLines c ++ (ls ++ ms) ++ footLines c.flowTable), 1) ∧
      (∀ l ∈ headLines c ++ (ls ++ ms) ++ footLines c.flowTable, '\n' ∉ l) ∧
      ls.length = flow.numTuples ∧ ms.length = flow.numActions := by
  obtain ⟨s₁, s₂, op, hmatch, haction, -, -, rfl⟩ := fibCmdFilter_calls_iff.mp h
  obtain ⟨htlen, htids⟩ := counted_tuples (tuplesFilled_line hmatch haction)
  obtain ⟨halen, haids⟩ := counted_actions
    (portsSent_actions haction (matchSteps_frame hmatch).1 (matchSteps_frame hmatch).2)
  obtain ⟨ls, hls⟩ := exists_lines fun t ht => by
    obtain ⟨m, hm, hid⟩ := htids t ht
    exact tuple_line hm hid
  obtain ⟨ms, hms⟩ := exists_lines fun a ha => action_line (haids a ha)
  obtain ⟨hlplain, hllen⟩ := prints_plain hls
  obtain ⟨hmplain, hmlen⟩ := prints_plain hms
  refine ⟨s₂.flow, ls, ms, rfl, ?_, ?_, hllen.trans htlen, hmlen.trans halen⟩
  · rw [flowStubCall_dumps rfl, dumpFlow, mapM_prints hls, mapM_prints hms, unlines_append,
      unlines_append, unlines_append, ← head_text, ← foot_text]
    simp only [unlines, Option.map_some, List.append_assoc]
  · simp only [List.forall_mem_append]
    exact ⟨⟨headLines_plain _, hlplain, hmplain⟩, footLines_plain _⟩

def stubLine : CString := "filter add in-phy-port=1 action out-port=2".toList

theorem stubLine_prints : ∃ c flow ls ms, c.flow = some flow ∧
    flowStubCall c = some (unlines (headLines c ++ (ls ++ ms) ++ footLines c.flowTable), 1) ∧
    (∀ l ∈ headLines c ++ (ls ++ ms) ++ footLines c.flowTable, '\n' ∉ l) ∧
    ls.length = flow.numTuples ∧ ms.length = flow.numActions := by
  have hcall : fibCmdFilter oneDev zeroTuples zeroActions stubLine = .calls () _ := rfl
  exact ⟨_, stub_prints hcall⟩

end LibSwitch.StubPrints

import LibSwitch.TrailingNewline
import LibSwitch.FlowContents
import LibSwitch.FilterOutcomes

namespace LibSwitch.FilterTwins

open LibSwitch.PointerTable LibSwitch.ByteOrder LibSwitch.ByteBuffer LibSwitch.CText
open LibSwitch.Numeral LibSwitch.Address LibSwitch.TrailingNewline LibSwitch.Common
open LibSwitch.FlowTypes LibSwitch.FlowFilter LibSwitch.FilterWords LibSwitch.FilterGrammar
open LibSwitch.FilterRule LibSwitch.FilterSteps LibSwitch.FlowContents

variable {A B D : Type}

/-- Two results fail in the same way or succeed with related values. -/
inductive Agree (R : A → B → Prop) : Except Stop A → Except Stop B → Prop
  | error (e : Stop) : Agree R (.error e) (.error e)
  | ok {a : A} {b : B} (h : R a b) : Agree R (.ok a) (.ok b)

/-- How many bytes of its value the branch of a tuple stores. -/
def tupleBytes : FlowTuple → Nat
  | .dlDst | .dlSrc => 6
  | .nw4Dst | .nw4Src => 4
  | _ => 2

def actionBytes : FlowAction → Nat
  | .outPort => 2
  | _ => 0

structure SameTuple (u v : Tuple) : Prop where
  id : u.id = v.id
  bytes : ByteBuffer.read u.value 0 (tupleBytes u.id) = ByteBuffer.read v.value 0 (tupleBytes u.id)

structure SameAction (a b : Action) : Prop where
  id : a.id = b.id
  bytes : ByteBuffer.read a.value 0 (actionBytes a.id) =
    ByteBuffer.read b.value 0 (actionBytes a.id)

structure SameFlow (f g : Flow) : Prop where
  numTuples : f.numTuples = g.numTuples
  numActions : f.numActions = g.numActions
  tuples : ∀ i, ∀ h : i < 25, i < f.numTuples → SameTuple f.tuples[i] g.tuples[i]
  actions : ∀ i, ∀ h : i < 25, i < f.numActions → SameAction f.actions[i] g.actions[i]

structure SameCall (c c' : FlwCall) : Prop where
  op : c.op = c'.op
  devId : c.devId = c'.devId
  flowTable : c.flowTable = c'.flowTable
  flow : ∃ f g, c.flow = some f ∧ c'.flow = some g ∧ SameFlow f g

/-- Two runs end in the same way. With `full`, their calls are the same as well. -/
inductive Alike (full : Prop) : Outcome D → Outcome D → Prop
  | stops (e : Stop) : Alike full (.stops e) (.stops e)
  | nothing : Alike full .nothing .nothing
  | absentDev : Alike full .absentDev .absentDev
  | calls (d : D) {c c' : FlwCall} (h : full → SameCall c c') :
      Alike full (.calls d c) (.calls d c')

/-- The locals of two runs that agree in all but the arrays. With `full`, the bytes stored in
the arrays agree as well. -/
structure Like (full : Prop) (s s' : Locals) : Prop where
  rqdField : s.rqdField = s'.rqdField
  tupleCnt : s.tupleCnt = s'.tupleCnt
  actionCnt : s.actionCnt = s'.actionCnt
  devId : s.devId = s'.devId
  tblId : s.tblId = s'.tblId
  flowCmd : s.flowCmd = s'.flowCmd
  tuples : full → ∀ i, ∀ h : i < 25, i < s.tupleCnt → SameTuple s.tuples[i] s'.tuples[i]
  actions : full → ∀ i, ∀ h : i < 25, i < s.actionCnt → SameAction s.actions[i] s'.actions[i]

def IsIp (t : CString) : Prop := "nw-dst".toList <+: t ∨ "nw-src".toList <+: t

/-- The same token with or without a newline. With `full`, an IPv4 address is well formed and
has none. -/
structure Twin (full : Prop) (u t : CString) : Prop where
  eq : u = t ∨ u = ended t
  ip : full → IsIp t → u = t ∧ ∀ v, optionValue t = some v → (inetPton v).isSome

variable {full : Prop} {devCnt : Nat} {u t text text' : CString} {us ts : List CString}
variable {s s' : Locals}

theorem Alike.of_stops {o : Outcome D} {e : Stop} (h : Alike full o (.stops e)) :
    o = .stops e := by
  cases h
  rfl

theorem Alike.of_nothing {o : Outcome D} (h : Alike full o .nothing) : o = .nothing := by
  cases h
  rfl

theorem Alike.of_calls {o : Outcome D} {d : D} {c : FlwCall} (h : Alike full o (.calls d c)) :
    ∃ c', o = .calls d c' ∧ (full → SameCall c' c) := by
  cases h with
  | calls d h => exact ⟨_, rfl, h⟩

theorem Agree.map {R : A → B → Prop} {r : Except Stop A} {r' : Except Stop B} (h : Agree R r r') :
    Agree (Option.Rel R) (r.map some) (r'.map some) := by
  cases h with
  | error e => exact .error e
  | ok h => exact .ok (.some h)

theorem Twin.starts (h : Twin full u t) {w : CString} (hw : '\n' ∉ w) : w <+: u ↔ w <+: t := by
  obtain rfl | rfl := h.eq
  · exact Iff.rfl
  · exact starts_ended hw t

theorem Twin.strncmpEq (h : Twin full u t) {w : CString} {n : Nat} (hw : '\n' ∉ w)
    (hn : w.length = n) : strncmpEq u w n = strncmpEq t w n := by
  obtain rfl | rfl := h.eq
  · rfl
  · exact strncmpEq_ended hw hn t

theorem Twin.optionShort (h : Twin full u t) : optionShort u = optionShort t := by
  obtain rfl | rfl := h.eq
  · rfl
  · exact optionShort_ended t

theorem Twin.optionValue (h : Twin full u t) :
    (optionValue u = none ∧ optionValue t = none) ∨
      ∃ text' text, optionValue u = some text' ∧ optionValue t = some text ∧
        (text' = text ∨ text' = ended text) := by
  cases ht : CText.optionValue t with
  | none =>
    obtain rfl | rfl := h.eq
    · exact Or.inl ⟨ht, rfl⟩
    · exact Or.inl ⟨by rw [optionValue_ended, ht, Option.map_none], rfl⟩
  | some text =>
    obtain rfl | rfl := h.eq
    · exact Or.inr ⟨text, text, ht, rfl, Or.inl rfl⟩
    · exact Or.inr ⟨ended text, text, by rw [optionValue_ended, ht, Option.map_some], rfl,
        Or.inr rfl⟩

theorem read_storeShort (n : Int) (val : Value) :
    ByteBuffer.read (storeShort n val) 0 2 = shortBytes n := by
  have hread := read_put_self val 0 (shortBytes n) (two_fits n)
  rwa [length_shortBytes] at hread

theorem read_storeIp (ip : Buffer 4) (val : Value) :
    ByteBuffer.read (swapBytes (put val 0 ip.bytes (ip_fits ip))) 0 4 = ip.bytes.reverse := by
  have hread := read_put_self val 0 ip.bytes (ip_fits ip)
  rw [ip.length_eq] at hread
  rw [read_swapBytes, hread]

def SameBytes (full : Prop) (n : Nat) (v v' : Value) : Prop :=
  full → ByteBuffer.read v 0 n = ByteBuffer.read v' 0 n

theorem parseShort_agree (h : atoi text' = atoi text) (v' v : Value) :
    Agree (SameBytes full 2) (parseShort text' v') (parseShort text v) :=
  .ok fun _ => by rw [read_storeShort, read_storeShort, h]

theorem parseHex_agree (h : strtol 16 text' = strtol 16 text) (v' v : Value) :
    Agree (SameBytes full 2) (parseHex text' v') (parseHex text v) :=
  .ok fun _ => by rw [read_storeShort, read_storeShort, h]

theorem parseMac_agree (bad : Stop) (h : etherAton text' = etherAton text) (v' v : Value) :
    Agree (SameBytes full 6) (parseMac bad text' v') (parseMac bad text v) := by
  rw [parseMac, parseMac, h]
  cases etherAton text with
  | none => exact .error bad
  | some mac => exact .ok fun _ => by rw [decodes_mac, decodes_mac]

theorem parseIp_ok (text : CString) (v : Value) : ∃ w, parseIp text v = .ok w := by
  rw [parseIp]
  cases inetPton text with
  | none => exact ⟨_, rfl⟩
  | some ip => exact ⟨_, rfl⟩

theorem parseIp_agree (h : full → text' = text ∧ (inetPton text).isSome) (v' v : Value) :
    Agree (SameBytes full 4) (parseIp text' v') (parseIp text v) := by
  by_cases hfull : full
  · obtain ⟨rfl, hsome⟩ := h hfull
    obtain ⟨ip, hip⟩ := Option.isSome_iff_exists.mp hsome
    rw [parseIp, parseIp, hip]
    exact .ok fun _ => by rw [read_storeIp, read_storeIp]
  · obtain ⟨w', hw'⟩ := parseIp_ok text' v'
    obtain ⟨w, hw⟩ := parseIp_ok text v
    rw [hw', hw]
    exact .ok fun h => absurd h hfull

/-- Two runs of the branch of a field store the same bytes of the same text, whatever the values
held before. -/
theorem parse_agree {f : MatchField} (hf : f ∈ matchFields)
    (htext : text' = text ∨ text' = ended text)
    (hip : full → f.word = "nw-dst".toList ∨ f.word = "nw-src".toList →
      text' = text ∧ (inetPton text).isSome) (v' v : Value) :
    Agree (SameBytes full (tupleBytes f.id)) (f.parse text' v') (f.parse text v) := by
  have hread : atoi text' = atoi text ∧ strtol 16 text' = strtol 16 text ∧
      etherAton text' = etherAton text := by
    obtain rfl | rfl := htext
    · exact ⟨rfl, rfl, rfl⟩
    · exact ⟨atoi_ended text, strtol_ended 16 text, etherAton_ended text⟩
  obtain ⟨hatoi, hhex, hether⟩ := hread
  simp only [matchFields, List.mem_cons, List.not_mem_nil, or_false] at hf
  obtain rfl | rfl | rfl | rfl | rfl | rfl | rfl | rfl | rfl | rfl | rfl := hf
  · exact parseShort_agree hatoi v' v
  · exact parseShort_agree hatoi v' v
  · exact parseMac_agree .out hether v' v
  · exact parseMac_agree .nullAddr hether v' v
  · exact parseHex_agree hhex v' v
  · exact parseIp_agree (fun h => hip h (Or.inl rfl)) v' v
  · exact parseIp_agree (fun h => hip h (Or.inr rfl)) v' v
  · exact parseShort_agree hatoi v' v
  · exact parseShort_agree hatoi v' v
  · exact parseShort_agree hatoi v' v
  · exact parseShort_agree hatoi v' v

theorem Like.stored (hs : Like full s s') (f : MatchField) {v' v : Value} (hcnt : s.tupleCnt < 25)
    (hcnt' : s'.tupleCnt < 25) (hv : SameBytes full (tupleBytes f.id) v' v) :
    Like full (stored f v' s hcnt) (stored f v s' hcnt') := by
  refine { hs with
    rqdField := rfl, tupleCnt := congrArg Nat.succ hs.tupleCnt, tuples := fun hfull i h hi => ?_ }
  have hlt : i < s.tupleCnt + 1 := hi
  have hcnts := hs.tupleCnt
  obtain hi | rfl := Nat.lt_succ_iff_lt_or_eq.mp hlt
  · rw [FilterRule.stored, FilterRule.stored, Vector.getElem_set_ne hcnt h (by omega),
      Vector.getElem_set_ne hcnt' h (by omega)]
    exact hs.tuples hfull i h hi
  · have hnew' : (FilterRule.stored f v s' hcnt').tuples[s.tupleCnt] = ⟨f.id, v⟩ := by
      simp only [FilterRule.stored, hcnts, Vector.getElem_set_self]
    have hnew : (FilterRule.stored f v' s hcnt).tuples[s.tupleCnt] = ⟨f.id, v'⟩ := by
      simp only [FilterRule.stored, Vector.getElem_set_self]
    rw [hnew, hnew']
    exact ⟨rfl, hv hfull⟩

theorem field_agree {f : MatchField} (hf : f ∈ matchFields) (ht : Twin full u t)
    (hname : f.word <+: t) (hs : Like full s s') :
    Agree (Like full) (matchField f u s) (matchField f t s') := by
  rw [matchField, matchField, ← hs.rqdField]
  by_cases hreq : f.required.any (· != s.rqdField) = true
  · rw [if_pos hreq, if_pos hreq]
    exact .error .out
  rw [if_neg hreq, if_neg hreq]
  by_cases hcnt : s.tupleCnt < 25
  swap
  · rw [dif_neg hcnt, dif_neg (by rwa [hs.tupleCnt] at hcnt)]
    exact .error .overrun
  have hcnt' : s'.tupleCnt < 25 := by rwa [hs.tupleCnt] at hcnt
  rw [dif_pos hcnt, dif_pos hcnt']
  obtain ⟨hu, ht'⟩ | ⟨text', text, hu, ht', htext⟩ := ht.optionValue
  · rw [hu, ht']
    exact .error .out
  have hip : full → f.word = "nw-dst".toList ∨ f.word = "nw-src".toList →
      text' = text ∧ (inetPton text).isSome := by
    intro hfull hn
    have hisip : IsIp t := hn.elim (fun h => Or.inl (h ▸ hname)) fun h => Or.inr (h ▸ hname)
    obtain ⟨rfl, hsome⟩ := ht.ip hfull hisip
    rw [hu] at ht'
    cases ht'
    exact ⟨rfl, hsome text' hu⟩
  have hparse := parse_agree hf htext hip s.tuples[s.tupleCnt].value s'.tuples[s'.tupleCnt].value
  rw [hu, ht']
  dsimp only
  generalize f.parse text' s.tuples[s.tupleCnt].value = r at hparse
  generalize f.parse text s'.tuples[s'.tupleCnt].value = r' at hparse
  cases hparse with
  | error e => exact .error e
  | ok hv => exact .ok (hs.stored f hcnt hcnt' hv)

theorem commanded_agree {R : A → B → Prop} {r : Except Stop A} {r' : Except Stop B}
    (hs : Like full s s') (h : Agree R r r') :
    Agree R (if s.flowCmd.isNone then .error .out else r)
      (if s'.flowCmd.isNone then .error .out else r') := by
  rw [← hs.flowCmd]
  split
  · exact .error .out
  · exact h

theorem dev_agree (ht : Twin full u t) (hs : Like full s s') :
    Agree (Like full) (devOption devCnt u s) (devOption devCnt t s') := by
  rw [devOption, devOption, ht.optionShort]
  cases optionShort t with
  | none => exact .error .out
  | some v =>
    dsimp only
    split
    · exact .error .out
    · exact .ok { hs with devId := rfl }

theorem tbl_agree (ht : Twin full u t) (hs : Like full s s') :
    Agree (Like full) (tblOption u s) (tblOption t s') := by
  rw [tblOption, tblOption, ht.optionShort]
  cases optionShort t with
  | none => exact .error .out
  | some v =>
    dsimp only
    split
    · exact .error .out
    · exact .ok { hs with tblId := rfl }

theorem words_noNewline : ∀ w ∈ words, '\n' ∉ w := by decide

theorem match_agree (devCnt : Nat) (ht : Twin full u t) (hs : Like full s s') :
    Agree (Option.Rel (Like full)) (matchOption devCnt u s) (matchOption devCnt t s') := by
  have hstarts {w : CString} (hw : w ∈ words) : w <+: u ↔ w <+: t :=
    ht.starts (words_noNewline w hw)
  obtain h | ⟨op, h⟩ | h | h | ⟨f, hf, h⟩ | h | h := word_cases t
  · rw [matchOption_filter devCnt s ((hstarts (by decide)).mpr h), matchOption_filter devCnt s' h]
    exact .ok (.some hs)
  · have hop : opWord op ∈ words := by cases op <;> decide
    rw [matchOption_opWord ((hstarts hop).mpr h), matchOption_opWord h]
    exact .ok (.some { hs with flowCmd := rfl })
  · rw [matchOption_dev devCnt s ((hstarts (by decide)).mpr h), matchOption_dev devCnt s' h]
    exact commanded_agree hs (dev_agree ht hs).map
  · rw [matchOption_tbl devCnt s ((hstarts (by decide)).mpr h), matchOption_tbl devCnt s' h]
    exact commanded_agree hs (tbl_agree ht hs).map
  · rw [matchOption_field devCnt s hf ((hstarts (word_mem_words hf)).mpr h),
      matchOption_field devCnt s' hf h]
    exact commanded_agree hs (field_agree hf ht h hs).map
  · rw [matchOption_marker devCnt s ((hstarts (by decide)).mpr h), matchOption_marker devCnt s' h]
    exact commanded_agree hs (.ok .none)
  · rw [matchOption_unknown devCnt s fun w hw hu => h w hw ((hstarts hw).mp hu),
      matchOption_unknown devCnt s' h]
    exact .error .out

theorem matchLoop_agree (devCnt : Nat) (hts : List.Forall₂ (Twin full) us ts)
    (hs : Like full s s') :
    Agree (fun r r' => Like full r.1 r'.1 ∧ List.Forall₂ (Twin full) r.2 r'.2)
      (matchLoop devCnt us s) (matchLoop devCnt ts s') := by
  induction hts generalizing s s' with
  | nil => exact .ok ⟨hs, .nil⟩
  | @cons u t us ts ht hts ih =>
    have hopt := match_agree devCnt ht hs
    rw [matchLoop, matchLoop]
    generalize matchOption devCnt u s = r at hopt
    generalize matchOption devCnt t s' = r' at hopt
    cases hopt with
    | error e => exact .error e
    | ok h =>
      cases h with
      | none => exact .ok ⟨hs, hts⟩
      | some h => exact ih h

theorem Like.drop (hs : Like full s s') (hcnt : s.actionCnt < 25) (hcnt' : s'.actionCnt < 25) :
    Like full
      { s with actions := s.actions.set s.actionCnt ⟨.drop, s.actions[s.actionCnt].value⟩ }
      { s' with
        actions := s'.actions.set s'.actionCnt ⟨.drop, s'.actions[s'.actionCnt].value⟩ } := by
  refine { hs with actions := fun hfull i h hi => ?_ }
  have hlt : i < s.actionCnt := hi
  have hcnts := hs.actionCnt
  rw [Vector.getElem_set_ne hcnt h (by omega), Vector.getElem_set_ne hcnt' h (by omega)]
  exact hs.actions hfull i h hlt

theorem Like.sent (hs : Like full s s') {n : Int} {v' v : Value} (hcnt : s.actionCnt < 25)
    (hcnt' : s'.actionCnt < 25) :
    Like full (sent ⟨.outPort, storeShort n v'⟩ s hcnt)
      (sent ⟨.outPort, storeShort n v⟩ s' hcnt') := by
  refine { hs with
    actionCnt := congrArg Nat.succ hs.actionCnt, actions := fun hfull i h hi => ?_ }
  have hlt : i < s.actionCnt + 1 := hi
  have hcnts := hs.actionCnt
  obtain hi | rfl := Nat.lt_succ_iff_lt_or_eq.mp hlt
  · rw [FilterRule.sent, FilterRule.sent, Vector.getElem_set_ne hcnt h (by omega),
      Vector.getElem_set_ne hcnt' h (by omega)]
    exact hs.actions hfull i h hi
  · have hnew' : (FilterRule.sent ⟨.outPort, storeShort n v⟩ s' hcnt').actions[s.actionCnt] =
        ⟨.outPort, storeShort n v⟩ := by
      simp only [FilterRule.sent, hcnts, Vector.getElem_set_self]
    have hnew : (FilterRule.sent ⟨.outPort, storeShort n v'⟩ s hcnt).actions[s.actionCnt] =
        ⟨.outPort, storeShort n v'⟩ := by
      simp only [FilterRule.sent, Vector.getElem_set_self]
    rw [hnew, hnew']
    exact ⟨rfl, (read_storeShort n v').trans (read_storeShort n v).symm⟩

theorem action_agree (ht : Twin full u t) (hs : Like full s s') :
    Agree (Like full) (actionOption u s) (actionOption t s') := by
  have hdrop : strncmpEq u "drop".toList 4 = strncmpEq t "drop".toList 4 :=
    ht.strncmpEq (by decide) rfl
  have hport : strncmpEq u "out-port".toList 8 = strncmpEq t "out-port".toList 8 :=
    ht.strncmpEq (by decide) rfl
  rw [actionOption, actionOption, hdrop, hport]
  by_cases hcnt : s.actionCnt < 25
  · have hcnt' : s'.actionCnt < 25 := by rwa [hs.actionCnt] at hcnt
    simp only [dif_pos hcnt, dif_pos hcnt']
    split
    · exact .ok (hs.drop hcnt hcnt')
    split
    · obtain ⟨hu, ht'⟩ | ⟨text', text, hu, ht', htext⟩ := ht.optionValue
      · rw [hu, ht']
        exact .error .out
      · have hatoi : atoi text' = atoi text := by
          obtain rfl | rfl := htext
          · rfl
          · exact atoi_ended text
        rw [hu, ht']
        dsimp only
        rw [hatoi]
        exact .ok (hs.sent hcnt hcnt')
    · exact .error .out
  · have hcnt' : ¬ s'.actionCnt < 25 := by rwa [hs.actionCnt] at hcnt
    simp only [dif_neg hcnt, dif_neg hcnt']
    split
    · exact .error .overrun
    split
    · exact .error .overrun
    · exact .error .out

theorem actionLoop_agree (hts : List.Forall₂ (Twin full) us ts) (hs : Like full s s') :
    Agree (Like full) (actionLoop us s) (actionLoop ts s') := by
  induction hts generalizing s s' with
  | nil => exact .ok hs
  | @cons u t us ts ht hts ih =>
    have hopt := action_agree ht hs
    rw [actionLoop, actionLoop]
    generalize actionOption u s = r at hopt
    generalize actionOption t s' = r' at hopt
    cases hopt with
    | error e => exact .error e
    | ok h => exact ih h

theorem filterLoops_agree (devCnt : Nat) (hts : List.Forall₂ (Twin full) us ts)
    (hs : Like full s s') :
    Agree (Like full) (filterLoops devCnt us s) (filterLoops devCnt ts s') := by
  have hloop := matchLoop_agree devCnt hts hs
  rw [filterLoops, filterLoops]
  generalize matchLoop devCnt us s = r at hloop
  generalize matchLoop devCnt ts s' = r' at hloop
  cases hloop with
  | error e => exact .error e
  | ok h => exact actionLoop_agree h.2 h.1

theorem deviceCall_alike (flwDevs : Table D) (hs : Like full s s') :
    Alike full (deviceCall flwDevs s) (deviceCall flwDevs s') := by
  rw [deviceCall, deviceCall, ← hs.flowCmd, ← hs.devId, ← hs.tblId]
  cases s.flowCmd with
  | none => exact .nothing
  | some op =>
    dsimp only
    cases deref maxObjects flwDevs s.devId with
    | none => exact .absentDev
    | some d =>
      refine .calls d fun hfull => ⟨rfl, rfl, rfl, s.flow, s'.flow, rfl, rfl, ?_⟩
      exact ⟨hs.tupleCnt, hs.actionCnt, hs.tuples hfull, hs.actions hfull⟩

/-- Whatever the arrays held, a line and its twin end in the same way. -/
theorem fibCmdFilter_alike (flwDevs : Table D) {cmd' cmd : CString}
    (h : List.Forall₂ (Twin full) (tokens ' ' cmd') (tokens ' ' cmd))
    (tuples' tuples : Vector Tuple 25) (actions' actions : Vector Action 25) :
    Alike full (fibCmdFilter flwDevs tuples' actions' cmd')
      (fibCmdFilter flwDevs tuples actions cmd) := by
  have h0 : Like full (initialLocals tuples' actions') (initialLocals tuples actions) :=
    ⟨rfl, rfl, rfl, rfl, rfl, rfl, fun _ i _ hi => absurd hi (Nat.not_lt_zero i),
      fun _ i _ hi => absurd hi (Nat.not_lt_zero i)⟩
  have hloops := filterLoops_agree flwDevs.cnt h h0
  rw [fibCmdFilter, fibCmdFilter]
  generalize filterLoops flwDevs.cnt (tokens ' ' cmd') (initialLocals tuples' actions') = r
    at hloops
  generalize filterLoops flwDevs.cnt (tokens ' ' cmd) (initialLocals tuples actions) = r' at hloops
  cases hloops with
  | error e => exact .stops e
  | ok hs => exact deviceCall_alike flwDevs hs

end LibSwitch.FilterTwins

import LibSwitch.FileLines
import LibSwitch.FilterAddresses
import LibSwitch.FilterDevices
import LibSwitch.FilterTwins

namespace LibSwitch.FlowLoad

open LibSwitch.PointerTable LibSwitch.ByteBuffer LibSwitch.CText LibSwitch.ListRuns
open LibSwitch.Numeral LibSwitch.Address LibSwitch.LineInput LibSwitch.FileLines
open LibSwitch.TrailingNewline LibSwitch.Common LibSwitch.FlowTypes LibSwitch.FlowFilter
open LibSwitch.BridgeGrammar LibSwitch.FilterWords LibSwitch.FilterGrammar
open LibSwitch.FilterRule LibSwitch.FilterSteps LibSwitch.FilterActions LibSwitch.FlowContents
open LibSwitch.FilterBounds LibSwitch.FilterOutcomes LibSwitch.FilterAddresses
open LibSwitch.FilterDevices LibSwitch.FilterTwins

variable {D : Type}

/-- What `tuples[]` and `actions[]` hold when `fib_cmd_filter` is entered. -/
abbrev Arrays := Vector Tuple 25 × Vector Action 25

/-- A function called on one line after the other, each time with a memory of its own. -/
def eachLine {M O : Type} (run : M → CString → List O) : (Nat → M) → List CString → List O
  | _, [] => []
  | mem, l :: ls => run (mem 0) l ++ eachLine run (fun i => mem (i + 1)) ls

def filterLine (flwDevs : Table D) (mem : Arrays) (l : CString) : List (Outcome D) :=
  [fibCmdFilter flwDevs mem.1 mem.2 l]

/-- The `cli_cmd` of the flow module. The other commands print texts. -/
def cliCmd (files : Files) (flwDevs : Table D) (mem : Nat → Arrays) (cmdStr : CString) :
    List (Outcome D) :=
  if strncmpEq cmdStr "help".toList 4 then []
  else if strncmpEq cmdStr "filter".toList 6 then filterLine flwDevs (mem 0) cmdStr
  else if strncmpEq cmdStr "show".toList 4 then []
  else if strncmpEq cmdStr "load".toList 4 then
    eachLine (filterLine flwDevs) mem (cmdLoad files (cmdStr.drop 4))
  else []

/-- The device calls up to the first line that leaves defined behaviour. -/
def deviceCalls : List (Outcome D) → List (D × FlwCall)
  | [] => []
  | .calls d c :: os => (d, c) :: deviceCalls os
  | .nothing :: os => deviceCalls os
  | .stops .out :: os => deviceCalls os
  | .stops .overrun :: _ => []
  | .stops .nullAddr :: _ => []
  | .absentDev :: _ => []

def SameCalls : List (D × FlwCall) → List (D × FlwCall) → Prop :=
  List.Forall₂ fun x y => x.1 = y.1 ∧ SameCall x.2 y.2

/-- Whatever the memory holds, `load` makes the device calls that the lines make when typed. -/
def LoadsAsTyped (files : Files) (flwDevs : Table D) (name : CString) (ls : List CString) : Prop :=
  ∀ (mem : Nat → Arrays) (mem' : Nat → Nat → Arrays),
    SameCalls (deviceCalls (cliCmd files flwDevs mem ("load ".toList ++ name)))
      (deviceCalls (eachLine (cliCmd files flwDevs) mem' ls))

/-- A filter line with well-formed addresses and registered devices. -/
structure RuleLine (devCnt : Nat) (l : CString) : Prop where
  text : TextLine l
  filter : "filter".toList <+: l
  ip : ∀ t ∈ tokens ' ' l, IsIp t → ∀ v, optionValue t = some v → (inetPton v).isSome
  srcMac : ∀ t ∈ tokens ' ' l, "dl-src".toList <+: t → ∀ v, optionValue t = some v →
    (etherAton v).isSome
  dev0 : 0 < devCnt
  devs : ∀ t ∈ tokens ' ' l, devName <+: t → ∀ v, optionShort t = some v → v < devCnt

structure EndsInIp (devCnt : Nat) (l : CString) : Prop where
  accepted : Accepted devCnt (tokens ' ' l)
  last : ∃ ts t, tokens ' ' l = ts ++ [t] ∧ IsIp t

variable {devCnt : Nat} {flwDevs : Table D} {files : Files} {l name last t : CString}
variable {ls us ts : List CString}

theorem cliCmd_filter (h : "filter".toList <+: l) (mem : Nat → Arrays) :
    cliCmd files flwDevs mem l = filterLine flwDevs (mem 0) l := by
  obtain ⟨r, rfl⟩ := h
  rfl

theorem eachLine_typed (h : ∀ l ∈ ls, "filter".toList <+: l) (mem : Nat → Nat → Arrays) :
    eachLine (cliCmd files flwDevs) mem ls =
      eachLine (filterLine flwDevs) (fun i => mem i 0) ls := by
  induction ls generalizing mem with
  | nil => rfl
  | cons l ls ih =>
    rw [List.forall_mem_cons] at h
    rw [eachLine, eachLine, cliCmd_filter h.1, ih h.2]

theorem cliCmd_load {s : CString} (hopen : fopen files name = some s) (hname : 4 ≤ name.length)
    (mem : Nat → Arrays) : cliCmd files flwDevs mem ("load ".toList ++ name) =
      eachLine (filterLine flwDevs) mem (readLines s) := by
  rw [← cmdLoad_open hopen hname ' ']
  rfl

def Same (flwDevs : Table D) (us ls : List CString) : Prop :=
  ∀ mem mem', SameCalls (deviceCalls (eachLine (filterLine flwDevs) mem us))
    (deviceCalls (eachLine (filterLine flwDevs) mem' ls))

theorem loadsAsTyped_same (hopen : fopen files name = some (typed ls ++ last))
    (hname : 4 ≤ name.length) (hlines : ∀ l ∈ ls ++ unended last, RuleLine devCnt l) :
    LoadsAsTyped files flwDevs name (ls ++ unended last) ↔
      Same flwDevs (ls.map ended ++ unended last) (ls ++ unended last) := by
  have hread := readLines_text fun l hl => (hlines l hl).text
  simp only [LoadsAsTyped, Same, cliCmd_load hopen hname, hread,
    eachLine_typed fun l hl => (hlines l hl).filter]
  constructor
  · exact fun h mem mem' => h mem fun i _ => mem' i
  · exact fun h mem mem' => h mem fun i => mem' i 0

theorem mem_actionPart (h : ∃ u ∈ ts, isMarker u = true) (t : CString) :
    t ∈ actionPart (ts ++ [t]) := by
  induction ts with
  | nil => simp at h
  | cons u ts ih =>
    cases hm : isMarker u with
    | true =>
      rw [List.cons_append, (matchPart_marker hm _).2]
      exact List.mem_append_right ts (List.mem_singleton_self t)
    | false =>
      rw [List.cons_append, (matchPart_cons hm _).2]
      obtain ⟨v, hv, hmark⟩ := h
      obtain rfl | hv := List.mem_cons.mp hv
      · rw [hm] at hmark
        cases hmark
      · exact ih ⟨v, hv, hmark⟩

theorem isIp_word (h : IsIp t) : ∃ w ∈ ["nw-dst".toList, "nw-src".toList], w <+: t := by
  obtain h | h := h
  · exact ⟨_, by decide, h⟩
  · exact ⟨_, by decide, h⟩

theorem isIp_isMatch (h : IsIp t) : IsMatch chain t := by
  obtain h | h := h
  · exact ⟨_, by decide, h⟩
  · exact ⟨_, by decide, h⟩

theorem matchPart_last (hacc : Accepted devCnt (ts ++ [t])) (hip : IsIp t) :
    ∀ u ∈ ts, isMarker u = false := by
  intro u hu
  by_contra hm
  rw [Bool.not_eq_false] at hm
  have hmem := mem_actionPart ⟨u, hu, hm⟩ t
  obtain ⟨q, r, hqr⟩ := List.append_of_mem hmem
  obtain ⟨w, hw, hwt⟩ := isIp_word hip
  have hapart : ∀ n ∈ ["nw-dst".toList, "nw-src".toList],
      (¬ n <+: "drop".toList ∧ ¬ "drop".toList <+: n) ∧
        (¬ n <+: "out-port".toList ∧ ¬ "out-port".toList <+: n) := by decide
  obtain hd | ⟨hp, -⟩ := (hacc.acts q t r hqr).1
  · exact word_apart (fun n hn => (hapart n hn).1) hd w hw hwt
  · exact word_apart (fun n hn => (hapart n hn).2) hp w hw hwt

theorem devNumber_ne (hl : RuleLine devCnt l) :
    devNumber (matchPart (tokens ' ' l)) ≠ devCnt := by
  have h0 := hl.dev0
  rw [devNumber]
  cases hlast : lastToken devName (matchPart (tokens ' ' l)) with
  | none =>
    rw [Option.bind_none, Option.getD_none]
    omega
  | some t =>
    obtain ⟨ht, hdev⟩ := lastToken_mem hlast
    rw [Option.bind_some]
    cases hv : optionShort t with
    | none =>
      rw [Option.getD_none]
      omega
    | some v =>
      have hlt := hl.devs t (List.takeWhile_subset _ ht) hdev v hv
      rw [Option.getD_some]
      omega

/-- A line that stays inside the arrays returns from `fib_cmd_filter`, and any other one writes
past them. -/
theorem ruleLine_cases (hf : Filled maxObjects flwDevs) (hl : RuleLine flwDevs.cnt l)
    (mem : Arrays) :
    (Bounded flwDevs.cnt (tokens ' ' l) ∧
      (fibCmdFilter flwDevs mem.1 mem.2 l = .stops .out ∨
        fibCmdFilter flwDevs mem.1 mem.2 l = .nothing ∨
        ∃ d c, fibCmdFilter flwDevs mem.1 mem.2 l = .calls d c)) ∨
      (¬ Bounded flwDevs.cnt (tokens ' ' l) ∧
        fibCmdFilter flwDevs mem.1 mem.2 l = .stops .overrun) := by
  have hover := filterLoops_overrun_iff flwDevs.cnt (tokens ' ' l) mem.1 mem.2
  have hnull := filterLoops_null_iff flwDevs.cnt (tokens ' ' l) mem.1 mem.2
  by_cases hb : Bounded flwDevs.cnt (tokens ' ' l)
  · refine Or.inl ⟨hb, ?_⟩
    obtain ⟨e, hloops, hstop⟩ | hnothing | ⟨hacc, -⟩ :=
      fibCmdFilter_cases flwDevs mem.1 mem.2 l
    · cases e with
      | out => exact Or.inl hstop
      | overrun => exact absurd hb (hover.mp hloops)
      | nullAddr =>
        obtain ⟨q, t, r, hpart, -, hsrc⟩ := hnull.mp hloops
        obtain ⟨v, hv, hnone⟩ := hsrc.malformed
        have ht : t ∈ matchPart (tokens ' ' l) := by
          rw [hpart]
          exact List.mem_append_right q List.mem_cons_self
        have hsome := hl.srcMac t (List.takeWhile_subset _ ht) hsrc.srcMac v hv
        rw [hnone] at hsome
        cases hsome
    · exact Or.inr (Or.inl hnothing)
    · exact Or.inr (Or.inr (accepted_calls _ _ hf hacc (devNumber_ne hl)))
  · have hloops := hover.mpr hb
    refine Or.inr ⟨hb, ?_⟩
    rw [fibCmdFilter, hloops]

theorem twins_refl {full : Prop} (h : ∀ t ∈ ts, IsIp t → ∀ v, optionValue t = some v →
    (inetPton v).isSome) : List.Forall₂ (Twin full) ts ts :=
  List.forall₂_same.mpr fun t ht => ⟨Or.inl rfl, fun _ hip => ⟨rfl, h t ht hip⟩⟩

theorem alike_coarse (flwDevs : Table D) (l : CString) (mem mem' : Arrays) :
    Alike False (fibCmdFilter flwDevs mem.1 mem.2 (ended l))
      (fibCmdFilter flwDevs mem'.1 mem'.2 l) := by
  obtain ⟨ts, t, hts⟩ := tokens_eq_concat ' ' l
  apply fibCmdFilter_alike
  rw [tokens_ended hts, hts]
  refine List.rel_append (List.forall₂_same.mpr fun t _ => ⟨Or.inl rfl, fun h => h.elim⟩) ?_
  exact .cons ⟨Or.inr rfl, fun h => h.elim⟩ .nil

theorem alike_same (hl : RuleLine devCnt l) (mem mem' : Arrays) :
    Alike True (fibCmdFilter flwDevs mem.1 mem.2 l) (fibCmdFilter flwDevs mem'.1 mem'.2 l) :=
  fibCmdFilter_alike flwDevs (twins_refl hl.ip) _ _ _ _

/-- A line that does not end in an address makes the same call with the newline. -/
theorem alike_ended (hl : RuleLine flwDevs.cnt l) (hno : ¬ EndsInIp flwDevs.cnt l)
    (mem mem' : Arrays) :
    Alike True (fibCmdFilter flwDevs mem.1 mem.2 (ended l))
      (fibCmdFilter flwDevs mem'.1 mem'.2 l) := by
  obtain ⟨ts, t, hts⟩ := tokens_eq_concat ' ' l
  by_cases hip : IsIp t
  · have hacc : ¬ Accepted flwDevs.cnt (tokens ' ' l) := fun h => hno ⟨h, ts, t, hts, hip⟩
    have hcoarse := alike_coarse flwDevs l mem mem'
    obtain ⟨e, -, hstop⟩ | hnothing | ⟨h, -⟩ := fibCmdFilter_cases flwDevs mem'.1 mem'.2 l
    · rw [hstop] at hcoarse ⊢
      rw [hcoarse.of_stops]
      exact .stops e
    · rw [hnothing] at hcoarse ⊢
      rw [hcoarse.of_nothing]
      exact .nothing
    · exact absurd h hacc
  · apply fibCmdFilter_alike
    have hips := hl.ip
    rw [hts] at hips
    rw [tokens_ended hts, hts]
    refine List.rel_append (twins_refl fun u hu => hips u (List.mem_append_left _ hu)) ?_
    exact .cons ⟨Or.inr rfl, fun _ h => absurd h hip⟩ .nil

theorem length_sixteen (b : UInt8) : (List.replicate 16 b).length = 16 := List.length_replicate

def filledWith (b : UInt8) : Arrays :=
  (Vector.replicate 25 ⟨.inPort, ⟨List.replicate 16 b, length_sixteen b⟩⟩,
    Vector.replicate 25 ⟨.drop, ⟨List.replicate 16 b, length_sixteen b⟩⟩)

theorem parse_ip {f : MatchField} (hf : f ∈ matchFields) (hip : IsIp t) (hname : f.word <+: t) :
    f.parse = parseIp ∧ tupleBytes f.id = 4 := by
  have hfield (g : MatchField) (hg : g ∈ matchFields) (hgt : g.word <+: t) : f = g :=
    List.inj_on_of_nodup_map words_nodup hf hg
      (word_unique (word_mem_words hf) (word_mem_words hg) hname hgt)
  obtain h | h := hip
  · rw [hfield ⟨"nw-dst".toList, 6, .nw4Dst, some 5, 6, parseIp⟩ (by simp [matchFields]) h]
    exact ⟨rfl, rfl⟩
  · rw [hfield ⟨"nw-src".toList, 6, .nw4Src, some 6, 7, parseIp⟩ (by simp [matchFields]) h]
    exact ⟨rfl, rfl⟩

def Keeps (i : Nat) (b : UInt8) (c : FlwCall) : Prop :=
  ∃ f u, c.flow = some f ∧ i < f.numTuples ∧ f.tuples[i]? = some u ∧ tupleBytes u.id = 4 ∧
    ByteBuffer.read u.value 0 4 = List.replicate 4 b

/-- With the newline, the value of the last tuple keeps the bytes that the memory held. -/
theorem ended_keeps {d : D} {c : FlwCall} {b : UInt8} (hacc : Accepted devCnt (ts ++ [t]))
    (hip : IsIp t) (hts : tokens ' ' l = ts ++ [t])
    (hcall : fibCmdFilter flwDevs (filledWith b).1 (filledWith b).2 (ended l) = .calls d c) :
    Keeps (ts.filter isMatch).length b c := by
  have hip' : IsIp (ended t) :=
    hip.imp (starts_ended (by decide) t).mpr (starts_ended (by decide) t).mpr
  have hmark := isMatch_not_marker (isIp_isMatch hip')
  obtain ⟨s₁, s₂, op, hmatch, haction, -, -, rfl⟩ := fibCmdFilter_calls_iff.mp hcall
  rw [tokens_ended hts, matchPart_append (matchPart_last hacc hip),
    (matchPart_cons hmark []).1] at hmatch
  have hfilled := tuplesFilled_line hmatch haction
  have hmatching : isMatch (ended t) = true := by
    obtain ⟨k, f, hk, hname⟩ := exists_field (isIp_isMatch hip')
    exact isMatch_field (List.mem_of_getElem? hk) hname
  have hfilter : (ts ++ [ended t]).filter isMatch = ts.filter isMatch ++ [ended t] :=
    filter_concat_pos hmatching
  have hlast : ((ts ++ [ended t]).filter isMatch)[(ts.filter isMatch).length]? =
      some (ended t) := by
    rw [hfilter, List.getElem?_concat_length]
  obtain ⟨h25, f, hf, hname, hid, text, htext, hparse⟩ := hfilled.fills _ _ hlast
  obtain ⟨hpars, hbytes⟩ := parse_ip hf hip' hname
  rw [optionValue_ended, Option.map_eq_some_iff] at htext
  obtain ⟨v, -, rfl⟩ := htext
  rw [hpars, parseIp, inetPton_ended, Except.ok.injEq] at hparse
  refine ⟨s₂.flow, _, rfl, ?_, Vector.getElem?_eq_getElem h25, ?_, ?_⟩
  · have hcnt : s₂.flow.numTuples = ((ts ++ [ended t]).filter isMatch).length := hfilled.tupleCnt
    rw [hcnt, hfilter, List.length_append]
    exact Nat.lt_succ_self _
  · exact (congrArg tupleBytes hid).trans hbytes
  · change ByteBuffer.read s₂.tuples[(ts.filter isMatch).length].value 0 4 = _
    rw [← hparse, read_swapBytes]
    simp [filledWith, ByteBuffer.read]

theorem Keeps.same {c c' : FlwCall} {i : Nat} {b : UInt8} (h : Keeps i b c') (hs : SameCall c' c) :
    Keeps i b c := by
  obtain ⟨f, u, hf, hi, hu, hbytes, hval⟩ := h
  obtain ⟨f', g, hf', hg, hflow⟩ := hs.flow
  rw [hf] at hf'
  cases hf'
  obtain ⟨h25, rfl⟩ := Vector.getElem?_eq_some_iff.mp hu
  have htuple := hflow.tuples i h25 hi
  have hread := htuple.bytes
  rw [hbytes, hval] at hread
  refine ⟨g, _, hg, hflow.numTuples ▸ hi, Vector.getElem?_eq_getElem h25, ?_, hread.symm⟩
  rw [← htuple.id, hbytes]

theorem Keeps.unique {c : FlwCall} {i : Nat} {b b' : UInt8} (h : Keeps i b c)
    (h' : Keeps i b' c) : b = b' := by
  obtain ⟨f, u, hf, -, hu, -, hval⟩ := h
  obtain ⟨f', u', hf', -, hu', -, hval'⟩ := h'
  rw [hf] at hf'
  cases hf'
  rw [hu] at hu'
  cases hu'
  rw [hval] at hval'
  exact (List.cons.inj hval').1

theorem not_same_ended (hf : Filled maxObjects flwDevs) (hl : RuleLine flwDevs.cnt l)
    (hip : EndsInIp flwDevs.cnt l) : ¬ Same flwDevs (ended l :: us) (l :: ls) := by
  intro h
  obtain ⟨hacc, ts, t, hts, hlast⟩ := hip
  obtain ⟨d, c, hcall⟩ :=
    accepted_calls (filledWith 0).1 (filledWith 0).2 hf hacc (devNumber_ne hl)
  rw [hts] at hacc
  have hkeeps (b : UInt8) : Keeps (ts.filter isMatch).length b c := by
    have hcoarse := alike_coarse flwDevs l (filledWith b) (filledWith 0)
    rw [hcall] at hcoarse
    obtain ⟨c', hcall', -⟩ := hcoarse.of_calls
    have hcalls := h (fun _ => filledWith b) fun _ => filledWith 0
    simp only [eachLine, filterLine, List.singleton_append, hcall, hcall', deviceCalls] at hcalls
    exact (ended_keeps hacc hlast hts hcall').same (List.forall₂_cons.mp hcalls).1.2
  exact absurd ((hkeeps 0).unique (hkeeps 1)) (by decide)

def withFirst (a : Arrays) (mem : Nat → Arrays) : Nat → Arrays
  | 0 => a
  | i + 1 => mem i

theorem sameCalls_cons_iff {o o' : Outcome D} {os os' : List (Outcome D)} (h : Alike True o o')
    (ho : o' = .stops .out ∨ o' = .nothing ∨ ∃ d c, o' = .calls d c) :
    SameCalls (deviceCalls (o :: os)) (deviceCalls (o' :: os')) ↔
      SameCalls (deviceCalls os) (deviceCalls os') := by
  obtain rfl | rfl | ⟨d, c, rfl⟩ := ho
  · rw [h.of_stops]
    exact Iff.rfl
  · rw [h.of_nothing]
    exact Iff.rfl
  · obtain ⟨c', rfl, hs⟩ := h.of_calls
    rw [deviceCalls, deviceCalls, SameCalls, List.forall₂_cons]
    exact and_iff_right ⟨rfl, hs trivial⟩

/-- Behind lines that end in the same way and return, the calls are compared line by line. -/
theorem same_cons_iff {u : CString} (hf : Filled maxObjects flwDevs) (hl : RuleLine flwDevs.cnt l)
    (halike : ∀ mem mem' : Arrays, Alike True (fibCmdFilter flwDevs mem.1 mem.2 u)
      (fibCmdFilter flwDevs mem'.1 mem'.2 l)) :
    Same flwDevs (u :: us) (l :: ls) ↔
      (Bounded flwDevs.cnt (tokens ' ' l) → Same flwDevs us ls) := by
  constructor
  · intro h hb mem mem'
    have hlist := h (withFirst (filledWith 0) mem) (withFirst (filledWith 0) mem')
    obtain ⟨-, ho⟩ | ⟨hno, -⟩ := ruleLine_cases hf hl (filledWith 0)
    · exact (sameCalls_cons_iff (halike _ _) ho).mp hlist
    · exact absurd hb hno
  · intro h mem mem'
    rw [eachLine, eachLine, filterLine, filterLine, List.singleton_append, List.singleton_append]
    have hal := halike (mem 0) (mem' 0)
    obtain ⟨hb, ho⟩ | ⟨-, ho⟩ := ruleLine_cases hf hl (mem' 0)
    · exact (sameCalls_cons_iff hal ho).mpr (h hb _ _)
    · rw [ho] at hal ⊢
      rw [hal.of_stops]
      exact .nil

theorem same_unended (hf : Filled maxObjects flwDevs)
    (hlast : ∀ l ∈ unended last, RuleLine flwDevs.cnt l) :
    Same flwDevs (unended last) (unended last) := by
  have hnil : Same flwDevs [] [] := fun _ _ => .nil
  rw [unended] at hlast ⊢
  split at hlast
  · next h => rwa [if_pos h]
  · next h =>
    have hl := hlast last (List.mem_singleton_self _)
    rw [if_neg h]
    exact (same_cons_iff hf hl (alike_same hl)).mpr fun _ => hnil

theorem same_iff (hf : Filled maxObjects flwDevs)
    (hlines : ∀ l ∈ ls ++ unended last, RuleLine flwDevs.cnt l) (p : List CString) :
    Same flwDevs (ls.map ended ++ unended last) (ls ++ unended last) ↔
      ¬ Arises (fun _ l => Bounded flwDevs.cnt (tokens ' ' l))
        (fun _ l => EndsInIp flwDevs.cnt l) p ls := by
  induction ls generalizing p with
  | nil => exact iff_of_true (same_unended hf hlines) not_arises_nil
  | cons l ls ih =>
    rw [List.cons_append, List.forall_mem_cons] at hlines
    rw [arises_cons, List.map_cons, List.cons_append, List.cons_append]
    by_cases hip : EndsInIp flwDevs.cnt l
    · exact iff_of_false (not_same_ended hf hlines.1 hip) (not_not_intro (Or.inl hip))
    · rw [same_cons_iff hf hlines.1 (alike_ended hlines.1 hip), ih hlines.2 (p ++ [l]),
        or_iff_right hip, not_and]

def portRule : CString := "filter add in-phy-port=1 action out-port=2".toList

theorem portRule_ruleLine : RuleLine 1 portRule := by
  have hno : ∀ t ∈ tokens ' ' portRule, ¬ "nw-dst".toList <+: t ∧ ¬ "nw-src".toList <+: t ∧
      ¬ "dl-src".toList <+: t ∧ ¬ devName <+: t := by decide
  exact ⟨⟨by decide, by decide⟩, by decide,
    fun t ht hip => (hip.elim (hno t ht).1 (hno t ht).2.1).elim,
    fun t ht hsrc => ((hno t ht).2.2.1 hsrc).elim, Nat.one_pos,
    fun t ht hdev => ((hno t ht).2.2.2 hdev).elim⟩

def ipRule : CString :=
  "filter add in-phy-port=1 in-port=1 dl-dst=1:1:1:1:1:1 ".toList ++
    "dl-src=1:1:1:1:1:1 dl-type=800 nw-dst=1.2.3.4".toList

theorem ipRule_ruleLine : RuleLine 1 ipRule := by
  have hip : ∀ t ∈ tokens ' ' ipRule, (¬ "nw-dst".toList <+: t ∧ ¬ "nw-src".toList <+: t) ∨
      ∀ v ∈ optionValue t, (inetPton v).isSome := by decide
  have hsrc : ∀ t ∈ tokens ' ' ipRule, ¬ "dl-src".toList <+: t ∨
      ∀ v ∈ optionValue t, (etherAton v).isSome := by decide
  have hdev : ∀ t ∈ tokens ' ' ipRule, ¬ devName <+: t := by decide
  exact ⟨⟨by decide, by decide⟩, by decide,
    fun t ht h => (hip t ht).resolve_left fun hno => h.elim hno.1 hno.2,
    fun t ht h => (hsrc t ht).resolve_left (not_not_intro h), Nat.one_pos,
    fun t ht h => absurd h (hdev t ht)⟩

/-- A file whose last line, without a newline, ends in an address. -/
def mixedRules : Files := [("rules".toList, typed [portRule] ++ ipRule)]

def ipRules : Files := [("rules".toList, typed [ipRule])]

end LibSwitch.FlowLoad

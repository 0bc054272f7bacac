import LibSwitch.CliRelay
import LibSwitch.RuleTable

namespace LibSwitch.RuleScripts

open LibSwitch.PointerTable LibSwitch.CText LibSwitch.LineInput LibSwitch.FileLines
open LibSwitch.Numeral LibSwitch.Address LibSwitch.TrailingNewline LibSwitch.Common
open LibSwitch.FlowTypes LibSwitch.FlowFilter LibSwitch.FilterRule LibSwitch.FilterOutcomes
open LibSwitch.FilterDevices LibSwitch.FilterTwins LibSwitch.FlowRenaming LibSwitch.FlowLoad
open LibSwitch.CliShell LibSwitch.CliRelay LibSwitch.RuleTable LibSwitch.KeyedStore

variable {H D : Type}

def argument? (protoId : Int) (c : Int × CString) : Option CString :=
  if c.1 = protoId then some c.2 else none

def handed (protoId : Nat) (es : List CliShell.Event) : List CString :=
  (calls es).filterMap (argument? protoId)

def typedEntry (protoId : Nat) (o : Op CString) : CString := (SecLine.mk protoId (entryLine o)).text

variable {cliProtos : Table (Protocol H)} {flwDevs : Table D} {files : Files} {protoId : Nat}
variable {ops : List (Op CString)} {rule : CString → TableRule} {a b l last last' : CString}
variable {ls ls' ks ks' : List CString} {op : FlwOp} {o : Op CString}

theorem handed_calls {turns : List (List CliShell.Event)} {args : List CString}
    (h : turns.map calls = args.map fun a => [((protoId : Int), a)]) :
    handed protoId turns.flatten = args := by
  induction args generalizing turns with
  | nil =>
    rw [List.map_eq_nil_iff.mp h]
    rfl
  | cons arg args ih =>
    obtain ⟨t, turns, rfl, ht, hturns⟩ := List.map_eq_cons_iff.mp h
    have hone : [((protoId : Int), arg)].filterMap (argument? protoId) = [arg] :=
      List.filterMap_cons_some (if_pos rfl)
    rw [handed, List.flatten_cons, calls, List.filterMap_append, List.filterMap_append, ← calls,
      ht, hone, ← calls, ← handed, ih hturns]
    rfl

theorem arg_entry (h : protoId < 10) (o : Op CString) :
    (SecLine.mk protoId (entryLine o)).arg = entryLine o :=
  (SecLine.arg_eq_iff _).mpr h

/-- A script of typed entries acts on the rules of the switch as it acts on the lines themselves.
When it deletes only lines that stand at that time, the rules of the lines that stand at its end
join those the switch had before, whatever the memory of the parser holds at any line. -/
theorem typed_rules (hp : Filled maxObjects cliProtos) (hid : protoId < cliProtos.cnt)
    (hdigit : protoId < 10) (hops : ∀ o ∈ ops, AddLine flwDevs o.key (rule o.key))
    (hfits : ∀ o ∈ ops, Fits szLine (typedEntry protoId o)) (hfinds : Finds 0 ops)
    (buf rest : CString) :
    ∃ turns buf', Run cliProtos (.loop buf)
        (reads szLine ops.length (typed (ops.map (typedEntry protoId)) ++ rest)) turns
        (.loop buf') ∧
      ∀ files mem (table : Multiset TableRule),
        run table (script (deviceCalls (eachLine (cliCmd files flwDevs) mem
          (handed protoId turns.flatten)))) = table + (run 0 ops).map rule := by
  have hreads := reads_typed (List.forall_mem_map.mpr hfits) rest
  rw [List.length_map, List.map_map] at hreads
  have hlines : ∀ l ∈ ops.map fun o => SecLine.mk protoId (entryLine o),
      l.protoId < cliProtos.cnt := List.forall_mem_map.mpr fun _ _ => hid
  obtain ⟨turns, buf', hrun, hcalls⟩ := run_secLines hp hlines buf
  rw [List.map_map] at hrun hcalls
  have hargs : turns.map calls = (ops.map entryLine).map fun a => [((protoId : Int), a)] := by
    rw [hcalls, List.map_map]
    exact List.map_congr_left fun o _ => by rw [Function.comp, arg_entry hdigit]; rfl
  refine ⟨turns, buf', by rwa [hreads], ?_⟩
  intro files mem table
  have hfilter : ∀ l ∈ ops.map entryLine, "filter".toList <+: l :=
    List.forall_mem_map.mpr fun o ho => (hops o ho).filter_entry
  have hhands : List.Forall₂ Hands ops (ops.map entryLine) := by
    rw [List.forall₂_map_right_iff, List.forall₂_same]
    exact fun o _ => Or.inl rfl
  rw [handed_calls hargs, eachLine_typed hfilter, script_entries hops hhands,
    run_start (finds_map rule hfinds)]
  exact congrArg (table + ·) (run_map rule hfinds)

/-- A rule that is added, looked up, deleted and added again stands once. -/
def portOps : List (Op CString) :=
  [.insert portRule, .find portRule, .erase portRule, .insert portRule]

def portEntry : TableRule := ⟨0, 0, [(.inPhyPort, [1, 0])], [(.outPort, [2, 0])]⟩

theorem plain_of_tokens (h : ∀ t ∈ tokens ' ' l, ¬ IsIp t) : EndsPlain l := by
  intro ts t hts
  apply h
  rw [hts]
  exact List.mem_append_right ts (List.mem_singleton_self t)

theorem portRule_plain : ∀ t ∈ tokens ' ' portRule, ¬ IsIp t := by
  unfold IsIp
  decide

theorem portRule_adds : AddLine oneDev portRule portEntry :=
  ⟨by decide, fun t ht hip => absurd hip (portRule_plain t ht), (zeroTuples, zeroActions), (), _,
    rfl, rfl, rfl⟩

theorem portOps_rules : ∃ turns buf', Run elevenProtos (.loop [])
      (reads szLine 4 (typed (portOps.map (typedEntry 2)) ++ [])) turns (.loop buf') ∧
    ∀ files mem (table : Multiset TableRule),
      run table (script (deviceCalls (eachLine (cliCmd files oneDev) mem
        (handed 2 turns.flatten)))) = table + (run 0 portOps).map fun _ => portEntry := by
  have hkey : ∀ o ∈ portOps, o.key = portRule := by decide
  have hfinds : Finds 0 portOps :=
    ⟨fun _ h => (by cases h), fun _ h => (by cases h),
      fun _ h => (by cases h; exact Multiset.mem_cons_self portRule 0),
      fun _ h => (by cases h), trivial⟩
  exact typed_rules filled_elevenProtos (by decide) (by decide)
    (fun o ho => by rw [hkey o ho]; exact portRule_adds) (by decide) hfinds [] []

theorem endsPlain_entry (h : EndsPlain o.key) : EndsPlain (entryLine o) := by
  have hrewritten (op : FlwOp) : EndsPlain (rewriteLine op o.key) := by
    intro ts t hts hip
    rw [tokens_rewriteLine, List.map_eq_append_iff] at hts
    obtain ⟨us, vs, huv, -, hvs⟩ := hts
    obtain ⟨u, vs, rfl, rfl, hnil⟩ := List.map_eq_cons_iff.mp hvs
    rw [List.map_eq_nil_iff.mp hnil] at huv
    rw [isIp_rename hip] at hip
    exact h us u huv hip
  cases o with
  | insert l => exact h
  | erase l => exact hrewritten .delete
  | find l => exact hrewritten .lookup

theorem hands_text (hplain : ∀ o ∈ ops, EndsPlain o.key)
    (hops : ops.map entryLine = ls ++ unended last) :
    List.Forall₂ Hands ops (ls.map ended ++ unended last) := by
  obtain ⟨os, os', rfl, rfl, hlast⟩ := List.map_eq_append_iff.mp hops
  refine List.rel_append ?_ ?_
  · rw [List.map_map, List.forall₂_map_right_iff, List.forall₂_same]
    intro o ho
    exact Or.inr ⟨rfl, endsPlain_entry (hplain o (List.mem_append_left _ ho))⟩
  · rw [← hlast, List.forall₂_map_right_iff, List.forall₂_same]
    exact fun o _ => Or.inl rfl

/-- Loading a file of entries is one operation on the rules after the other. -/
theorem load_script (hopen : fopen files a = some (typed ls ++ last)) (hname : 4 ≤ a.length)
    (htext : ∀ l ∈ ls ++ unended last, TextLine l)
    (hlines : ops.map entryLine = ls ++ unended last)
    (hops : ∀ o ∈ ops, AddLine flwDevs o.key (rule o.key)) (hplain : ∀ o ∈ ops, EndsPlain o.key)
    (mem : Nat → Arrays) :
    script (deviceCalls (cliCmd files flwDevs mem ("load ".toList ++ a))) =
      ops.map (Op.map rule) := by
  rw [cliCmd_load hopen hname, readLines_text htext]
  exact script_entries hops (hands_text hplain hlines) mem

theorem join_tokens (delim : Char) (s : CString) : join delim (tokens delim s) = s := by
  induction s with
  | nil => rfl
  | cons c s ih =>
    obtain ⟨t, ts, hts⟩ := List.exists_cons_of_ne_nil (tokens_ne_nil delim s)
    rw [hts] at ih
    rw [tokens]
    split
    · next hc => rw [hts, join, ih, List.nil_append, hc]
    · rw [hts]
      cases ts with
      | nil => exact congrArg (c :: ·) ih
      | cons u ts => exact congrArg (c :: ·) ih

theorem mem_join {delim c : Char} {t : CString} {ts : List CString} (ht : t ∈ ts) (hc : c ∈ t) :
    c ∈ join delim ts := by
  induction ts with
  | nil => cases ht
  | cons u ts ih =>
    cases ts with
    | nil =>
      rw [List.mem_singleton] at ht
      rwa [join, ← ht]
    | cons v ts =>
      rw [join, List.mem_append, List.mem_cons]
      obtain rfl | ht := List.mem_cons.mp ht
      · exact Or.inl hc
      · exact Or.inr (Or.inr (ih ht))

theorem length_join_map {f : CString → CString} (h : ∀ t, (f t).length = t.length)
    (delim : Char) (ts : List CString) :
    (join delim (ts.map f)).length = (join delim ts).length := by
  induction ts with
  | nil => rfl
  | cons t ts ih =>
    cases ts with
    | nil => exact h t
    | cons u ts =>
      rw [List.map_cons, List.map_cons] at *
      rw [join, join, List.length_append, List.length_append, List.length_cons, List.length_cons,
        h, ih]

theorem length_rename_delete (t : CString) : (rename .delete t).length = t.length := by
  rw [rename]
  split
  · next h =>
    obtain ⟨r, rfl⟩ := startsAdd_iff.mp h
    rfl
  · rfl

theorem notMem_rewriteLine {c : Char} (hc : c ≠ ' ') (hop : c ∉ opWord op) (h : c ∉ l) :
    c ∉ rewriteLine op l := by
  have htoken : ∀ t ∈ tokens ' ' l, c ∉ t := by
    intro t ht hmem
    have hjoin : c ∈ join ' ' (tokens ' ' l) := mem_join ht hmem
    rw [join_tokens] at hjoin
    exact h hjoin
  apply notMem_join hc
  rw [List.forall_mem_map]
  intro t ht
  rw [rename]
  split
  · rw [List.mem_append, not_or]
    exact ⟨hop, fun hmem => htoken t ht (List.mem_of_mem_drop hmem)⟩
  · exact htoken t ht

theorem textLine_delete (h : TextLine l) : TextLine (rewriteLine .delete l) := by
  obtain ⟨⟨hnl, hlen⟩, hnull⟩ := h
  refine ⟨⟨notMem_rewriteLine (by decide) (by decide) hnl, ?_⟩,
    notMem_rewriteLine (by decide) (by decide) hnull⟩
  rw [rewriteLine, length_join_map length_rename_delete, join_tokens]
  exact hlen

/-- A file of rules is undone by the file that deletes them, in any order: the switch has the
rules that it had before, whatever the memory of the parser holds at any line. -/
theorem load_undone (hopen : fopen files a = some (typed ls ++ last)) (hname : 4 ≤ a.length)
    (hopen' : fopen files b = some (typed ls' ++ last')) (hname' : 4 ≤ b.length)
    (hperm : (ls' ++ unended last').Perm ((ls ++ unended last).map (rewriteLine .delete)))
    (htext : ∀ l ∈ ls ++ unended last, TextLine l)
    (hadds : ∀ l ∈ ls ++ unended last, AddLine flwDevs l (rule l))
    (hplain : ∀ l ∈ ls ++ unended last, EndsPlain l) (mem mem' : Nat → Arrays)
    (table : Multiset TableRule) :
    run table (script (deviceCalls (cliCmd files flwDevs mem ("load ".toList ++ a)) ++
      deviceCalls (cliCmd files flwDevs mem' ("load ".toList ++ b)))) = table := by
  obtain ⟨ks', hks', hperm'⟩ : ∃ ks' : List CString,
      ls' ++ unended last' = ks'.map (rewriteLine .delete) ∧ ks'.Perm (ls ++ unended last) := by
    have hcomp := List.eq_map_comp_perm (rewriteLine .delete)
    exact (iff_of_eq (congrFun (congrFun hcomp _) _)).mpr hperm
  have hinserts : ((ls ++ unended last).map Op.insert).map entryLine = ls ++ unended last := by
    rw [List.map_map]
    exact List.map_id _
  have herases : (ks'.map Op.erase).map entryLine = ls' ++ unended last' := by
    rw [hks', List.map_map]
    rfl
  have hmem : ∀ l ∈ ks', l ∈ ls ++ unended last := fun l hl => hperm'.mem_iff.mp hl
  have htext' : ∀ l ∈ ls' ++ unended last', TextLine l := by
    rw [hks', List.forall_mem_map]
    exact fun l hl => textLine_delete (htext l (hmem l hl))
  have hload := load_script hopen hname htext hinserts
    (List.forall_mem_map.mpr hadds) (List.forall_mem_map.mpr hplain) mem
  have hload' := load_script hopen' hname' htext' herases
    (List.forall_mem_map.mpr fun l hl => hadds l (hmem l hl))
    (List.forall_mem_map.mpr fun l hl => hplain l (hmem l hl)) mem'
  obtain ⟨hfinds, hrun⟩ := run_undo hperm'
  have hscript : script (deviceCalls (cliCmd files flwDevs mem ("load ".toList ++ a)) ++
      deviceCalls (cliCmd files flwDevs mem' ("load ".toList ++ b))) =
        ((ls ++ unended last).map Op.insert ++ ks'.map Op.erase).map (Op.map rule) := by
    rw [List.map_append, ← hload, ← hload']
    exact List.filterMap_append
  have hnet : run 0 (((ls ++ unended last).map Op.insert ++ ks'.map Op.erase).map (Op.map rule)) =
      0 := by
    have hmap := run_map rule hfinds
    rwa [hrun] at hmap
  rw [hscript, run_start (finds_map rule hfinds), hnet, Multiset.add_zero]

def bareRule : CString := "filter add in-phy-port=7".toList

def bareEntry : TableRule := ⟨0, 0, [(.inPhyPort, [7, 0])], []⟩

def ruleFiles : Files :=
  [("rules".toList, typed [portRule] ++ bareRule),
    ("undo".toList, typed [rewriteLine .delete bareRule, rewriteLine .delete portRule])]

theorem bareRule_plain : ∀ t ∈ tokens ' ' bareRule, ¬ IsIp t := by
  unfold IsIp
  decide

theorem bareRule_adds : AddLine oneDev bareRule bareEntry :=
  ⟨by decide, fun t ht hip => absurd hip (bareRule_plain t ht), (zeroTuples, zeroActions), (), _,
    rfl, rfl, rfl⟩

theorem ruleFiles_undone :
    run 0 (script (
      deviceCalls (cliCmd ruleFiles oneDev (fun _ => (zeroTuples, zeroActions))
        ("load ".toList ++ "rules".toList)) ++
      deviceCalls (cliCmd ruleFiles oneDev (fun _ => (zeroTuples, zeroActions))
        ("load ".toList ++ "undo".toList)))) = 0 := by
  have hadds : ∀ l ∈ [portRule] ++ unended bareRule,
      AddLine oneDev l (if l = portRule then portEntry else bareEntry) :=
    List.forall_mem_cons.mpr ⟨portRule_adds, List.forall_mem_singleton.mpr bareRule_adds⟩
  have hplain : ∀ l ∈ [portRule] ++ unended bareRule, EndsPlain l :=
    List.forall_mem_cons.mpr ⟨plain_of_tokens portRule_plain,
      List.forall_mem_singleton.mpr (plain_of_tokens bareRule_plain)⟩
  have htext : ∀ l ∈ [portRule] ++ unended bareRule, TextLine l :=
    List.forall_mem_cons.mpr ⟨⟨by decide, by decide⟩,
      List.forall_mem_singleton.mpr ⟨by decide, by decide⟩⟩
  exact load_undone (show fopen ruleFiles "rules".toList = some (typed [portRule] ++ bareRule)
    from rfl) (by decide) (show fopen ruleFiles "undo".toList = some (typed [rewriteLine .delete
      bareRule, rewriteLine .delete portRule] ++ []) from rfl) (by decide)
    (List.Perm.swap _ _ []) htext hadds hplain _ _ 0

end LibSwitch.RuleScripts

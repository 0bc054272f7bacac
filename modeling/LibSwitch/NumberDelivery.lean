import LibSwitch.BridgeLocals
import LibSwitch.FilterDevices

namespace LibSwitch.NumberDelivery

open LibSwitch.PointerTable LibSwitch.ByteOrder LibSwitch.ByteBuffer LibSwitch.CText
open LibSwitch.ListRuns LibSwitch.Numeral LibSwitch.Common LibSwitch.FlowTypes
open LibSwitch.FlowFilter LibSwitch.BridgeCommands LibSwitch.BridgeGrammar
open LibSwitch.BridgeLocals LibSwitch.FilterWords LibSwitch.FilterGrammar
open LibSwitch.FilterSteps LibSwitch.FilterBounds LibSwitch.FilterOutcomes
open LibSwitch.FilterDevices

variable {D : Type} {n t cmd : CString} {v : Int} {p ts : List CString}

def Gives (n : CString) (v : Int) (t : CString) : Prop :=
  ∃ text, t = assign n text ∧ SpellsInt text v ∧ -2147483648 ≤ v ∧ v ≤ 2147483647

def IsShort (v : Int) : Prop := -32768 ≤ v ∧ v ≤ 32767

instance (v : Int) : Decidable (IsShort v) :=
  inferInstanceAs (Decidable (-32768 ≤ v ∧ v ≤ 32767))

theorem toShort_eq_iff : toShort v = v ↔ IsShort v := by
  rw [toShort, narrow, IsShort]
  omega

theorem Gives.starts (h : Gives n v t) : n <+: t := by
  obtain ⟨text, rfl, -⟩ := h
  exact prefix_assign n text

theorem Gives.short (h : Gives n v t) (hn : '=' ∉ n) : optionShort t = some (toShort v) := by
  obtain ⟨text, rfl, hs, hl, hu⟩ := h
  rw [optionShort, assign, optionValue_append hn, Option.map_some, atoi_spells hs hl (by omega)]

section
variable {c : Command} {f : Form} {devs : Table D} {l : BridgeCommands.Locals}

/-- Every `dev` number of a line that gets to the call is that of a device, and the operation
receives the last number given for each option. -/
structure BridgeDelivers (devs : Table D) (f : Form) (cmd : CString) : Prop where
  dev : ∀ l, Acts (cliCmd devs l cmd) → ∀ t ∈ tokens ' ' cmd, ∀ v, Gives devName v t →
    0 ≤ v ∧ v < devs.cnt
  receives : ∀ l d call, cliCmd devs l cmd = .calls d call → ∃ x : CString → Int,
    deref maxObjects devs (x devName) = some d ∧ call = f.op x ∧
      ∀ n ∈ f.names, ∀ t v, lastToken n (tokens ' ' cmd) = some t → Gives n v t → x n = v

structure BridgeFits (devCnt : Nat) (f : Form) (ts : List CString) : Prop where
  dev : ∀ t ∈ ts, ∀ v, Gives devName v t → IsShort v
  args : 0 < devCnt → ∀ n ∈ f.args, ∀ t v, lastToken n ts = some t → Gives n v t → IsShort v

theorem names_noEq (h : Implements c f) (hn : n ∈ f.names) : '=' ∉ n := by
  have hall : ∀ m ∈ [devName, brIdName, ifIdName, ageName], '=' ∉ m := by decide
  exact hall n (h.known n hn)

theorem exists_call (h : Implements c f) (hf : Filled maxObjects devs) (hcnt : 0 < devs.cnt)
    (hp : Parses f devs.cnt (tokens ' ' cmd)) :
    ∃ l' d, c.options devs (tokens ' ' cmd) ⟨0, 0, 0, 0⟩ = some l' ∧
      c.run devs ⟨0, 0, 0, 0⟩ cmd = .calls d (c.op l') := by
  have hdevmem : devName ∈ f.names := List.mem_cons_self
  obtain ⟨l', hl⟩ := (h.options_isSome (l := ⟨0, 0, 0, 0⟩)).mpr hp
  have hdev : 0 ≤ l'.devId ∧ l'.devId < devs.cnt := by
    by_cases hts : ∃ t ∈ tokens ' ' cmd, devName <+: t
    · obtain ⟨t, v, -, -, heq, hmem⟩ := numberOf_set h hl hdevmem hts
      have hv : l'.devId = v := heq
      rw [hv]
      exact hmem rfl
    · have hzero : l'.devId = 0 :=
        numberOf_unset h hl hdevmem fun t ht hp => hts ⟨t, ht, hp⟩
      rw [hzero]
      exact ⟨Int.le_refl 0, by omega⟩
  obtain ⟨d, hd⟩ := Option.isSome_iff_exists.mp ((hf.deref_isSome _).mpr hdev)
  exact ⟨l', d, hl, run_calls_iff.mpr ⟨l', hl, hd, rfl⟩⟩

theorem numberOf_gives (h : Implements c f) {l' : BridgeCommands.Locals}
    (hl : c.options devs ts l = some l') (hn : n ∈ f.names) (ht : lastToken n ts = some t)
    (hv : Gives n v t) : numberOf l' n = toShort v := by
  obtain ⟨hmem, hp⟩ := lastToken_mem ht
  obtain ⟨u, w, hu, hw, heq, -⟩ := numberOf_set h hl hn ⟨t, hmem, hp⟩
  rw [ht] at hu
  cases hu
  rw [hv.short (names_noEq h hn)] at hw
  rw [heq, Option.some.inj hw]

theorem takes_dev (h : Implements c f) {devCnt : Nat} (ht : f.Takes devCnt t)
    (hv : Gives devName v t) : 0 ≤ toShort v ∧ toShort v < devCnt := by
  have hdevmem : devName ∈ f.names := List.mem_cons_self
  obtain hw | ⟨m, hm, hmt, w, hw, hmem⟩ := ht
  · exact absurd hv.starts (h.apart t hw devName hdevmem)
  · rw [hv.short (names_noEq h hdevmem)] at hw
    cases hw
    exact hmem (h.name_unique hm hdevmem hmt hv.starts)

theorem bridgeDelivers_iff (hf : Filled maxObjects devs) (hg : formOf cmd = some f) :
    BridgeDelivers devs f cmd ↔
      (Parses f devs.cnt (tokens ' ' cmd) → BridgeFits devs.cnt f (tokens ' ' cmd)) := by
  obtain ⟨c, hc, hrun⟩ := cliCmd_routed hg devs
  have hle := hf.cnt_le
  rw [maxObjects] at hle
  constructor
  · intro h hp
    constructor
    · intro t ht v hv
      have hacts : Acts (cliCmd devs ⟨0, 0, 0, 0⟩ cmd) := by
        rw [hrun]
        exact (acts_iff hc _).mpr hp
      have hmem := h.dev _ hacts t ht v hv
      rw [IsShort]
      omega
    · intro hcnt n hn t v ht hv
      obtain ⟨l', d, hl, hcall⟩ := exists_call hc hf hcnt hp
      obtain ⟨x, -, hop, hx⟩ := h.receives _ d _ ((hrun _).trans hcall)
      rw [hc.op, op_eq_iff hg] at hop
      have hnames : n ∈ f.names := List.mem_cons_of_mem _ hn
      rw [← toShort_eq_iff, ← numberOf_gives hc hl hnames ht hv, hop n hn]
      exact hx n hnames t v ht hv
  · intro h
    constructor
    · intro l hacts t ht v hv
      rw [hrun] at hacts
      have hp := (acts_iff hc l).mp hacts
      have hmem := takes_dev hc (hp t ht) hv
      rwa [toShort_eq_iff.mpr ((h hp).dev t ht v hv)] at hmem
    · intro l d call hcall
      rw [hrun] at hcall
      obtain ⟨l', hl, hd, rfl⟩ := run_calls_iff.mp hcall
      have hp : Parses f devs.cnt (tokens ' ' cmd) := hc.options_isSome.mp ⟨l', hl⟩
      have hcnt : 0 < devs.cnt := by
        have hmem := (hf.deref_isSome l'.devId).mp (by rw [hd]; rfl)
        omega
      refine ⟨numberOf l', hd, hc.op l', ?_⟩
      intro n hn t v ht hv
      rw [numberOf_gives hc hl hn ht hv, toShort_eq_iff]
      obtain rfl | hn := List.mem_cons.mp hn
      · exact (h hp).dev t (lastToken_mem ht).1 v hv
      · exact (h hp).args hcnt n hn t v ht hv

end

def tblName : CString := "tbl".toList

def tblNumber (ts : List CString) : Int := ((lastToken tblName ts).bind optionShort).getD 0

theorem tblNumber_concat_not (h : ¬ tblName <+: t) : tblNumber (p ++ [t]) = tblNumber p := by
  rw [tblNumber, lastToken_concat_not h, tblNumber]

theorem tblNumber_concat (h : tblName <+: t) (hv : optionShort t = some v) :
    tblNumber (p ++ [t]) = v := by
  rw [tblNumber, lastToken_concat_of h, Option.bind_some, hv]
  rfl

section
variable {devCnt : Nat} {s s' : FlowFilter.Locals}
variable {tuples : Vector Tuple 25} {actions : Vector Action 25}

theorem matchStep_tblNumber (h : MatchStep devCnt t s s') (hs : s.tblId = tblNumber p) :
    s'.tblId = tblNumber (p ++ [t]) := by
  have hother {a : CString} (ha : a ∈ words) (hat : a <+: t) (hd : "tbl".toList ≠ a) :
      tblNumber (p ++ [t]) = s.tblId := by
    rw [tblNumber_concat_not (not_starts ha hat (by decide) hd), hs]
  cases h with
  | filter h => exact (hother (by decide) h (by decide)).symm
  | command op h => cases op <;> exact (hother (by decide) h (by decide)).symm
  | dev _ h => exact (hother (by decide) h (by decide)).symm
  | tbl _ h v hv => exact (tblNumber_concat h hv).symm
  | field _ f hf h =>
    have hne := (chain_not_keyword f.word (word_mem_chain hf)).2.2.2.2.2.1
    exact (hother (word_mem_words hf) h hne).symm

theorem filterLoops_tblId (h : filterLoops devCnt ts (initialLocals tuples actions) = .ok s) :
    s.tblId = tblNumber (matchPart ts) := by
  obtain ⟨s₁, hsteps, hactions⟩ := filterLoops_steps h
  rw [(actionSteps_frame hactions).2.2.1]
  exact hsteps.track (fun p s => s.tblId = tblNumber p) (fun _ _ _ _ => matchStep_tblNumber)
    (p := []) rfl

theorem filter_matchPart {P : CString → Bool} (hm : ∀ t, isMarker t = true → P t = false)
    (ha : ∀ t ∈ actionPart ts, P t = false) : ts.filter P = (matchPart ts).filter P := by
  induction ts with
  | nil => rfl
  | cons t ts ih =>
    cases hmark : isMarker t with
    | true =>
      obtain ⟨hpart, hact⟩ := matchPart_marker hmark ts
      rw [hact] at ha
      rw [hpart, List.filter_nil, List.filter_eq_nil_iff, List.forall_mem_cons, hm t hmark]
      refine ⟨Bool.false_ne_true, fun u hu => ?_⟩
      rw [ha u hu]
      exact Bool.false_ne_true
    | false =>
      obtain ⟨hpart, hact⟩ := matchPart_cons hmark ts
      rw [hact] at ha
      rw [hpart, List.filter_cons, List.filter_cons, ih ha]

/-- The options `dev` and `tbl` of a line of the grammar stand before the action marker. -/
theorem filter_accepted (h : Accepted devCnt ts) (hn : n ∈ [devName, tblName]) :
    (ts.filter fun t => n.isPrefixOf t) = (matchPart ts).filter fun t => n.isPrefixOf t := by
  have hword : n ∈ words ∧ "action".toList ≠ n ∧
      (∀ m ∈ [n], ¬ m <+: "drop".toList ∧ ¬ "drop".toList <+: m) ∧
      (∀ m ∈ [n], ¬ m <+: "out-port".toList ∧ ¬ "out-port".toList <+: m) := by
    revert n
    decide
  obtain ⟨hw, hne, hdrop, hport⟩ := hword
  have hself : n ∈ [n] := List.mem_singleton_self n
  apply filter_matchPart
  · intro t ht
    rw [Bool.eq_false_iff, ne_eq, List.isPrefixOf_iff_prefix]
    exact not_starts (by decide) (List.isPrefixOf_iff_prefix.mp ht) hw hne.symm
  · intro t ht
    rw [Bool.eq_false_iff, ne_eq, List.isPrefixOf_iff_prefix]
    obtain ⟨q, r, hqr⟩ := List.append_of_mem ht
    obtain hd | ⟨hp, -⟩ := (h.acts q t r hqr).1
    · exact word_apart hdrop hd n hself
    · exact word_apart hport hp n hself

theorem lastToken_accepted (h : Accepted devCnt ts) (hn : n ∈ [devName, tblName]) :
    lastToken n ts = lastToken n (matchPart ts) := by
  rw [lastToken, filter_accepted h hn, lastToken]

theorem mem_accepted (h : Accepted devCnt ts) (hn : n ∈ [devName, tblName]) (ht : t ∈ ts)
    (hp : n <+: t) : t ∈ matchPart ts := by
  have hmem := List.mem_filter.mpr ⟨ht, List.isPrefixOf_iff_prefix.mpr hp⟩
  rw [filter_accepted h hn] at hmem
  exact (List.mem_filter.mp hmem).1

theorem devNumber_gives (h : Accepted devCnt ts) (ht : lastToken devName ts = some t)
    (hv : Gives devName v t) : devNumber (matchPart ts) = toShort v := by
  rw [lastToken_accepted h (by decide)] at ht
  rw [devNumber, ht, Option.bind_some, hv.short (by decide)]
  rfl

theorem tblNumber_gives (h : Accepted devCnt ts) (ht : lastToken tblName ts = some t)
    (hv : Gives tblName v t) : tblNumber (matchPart ts) = toShort v := by
  rw [lastToken_accepted h (by decide)] at ht
  rw [tblNumber, ht, Option.bind_some, hv.short (by decide)]
  rfl

theorem dev_mem (h : Accepted devCnt ts) (ht : t ∈ ts) (hv : Gives devName v t) :
    0 ≤ toShort v ∧ toShort v ≤ devCnt := by
  obtain ⟨q, r, hqr⟩ := List.append_of_mem (mem_accepted h (by decide) ht hv.starts)
  exact (h.takes q t r hqr).1.dev hv.starts _ (hv.short (by decide))

/-- What a call of the filter command is made with. -/
theorem calls_numbers {flwDevs : Table D} {d : D} {call : FlwCall}
    (h : fibCmdFilter flwDevs tuples actions cmd = .calls d call) :
    Accepted flwDevs.cnt (tokens ' ' cmd) ∧ deref maxObjects flwDevs call.devId = some d ∧
      call.devId = devNumber (matchPart (tokens ' ' cmd)) ∧
      call.flowTable = tblNumber (matchPart (tokens ' ' cmd)) := by
  rw [fibCmdFilter] at h
  cases hloops : filterLoops flwDevs.cnt (tokens ' ' cmd) (initialLocals tuples actions) with
  | error e =>
    rw [hloops] at h
    cases h
  | ok s =>
    rw [hloops] at h
    obtain ⟨op, hop, hd, rfl⟩ := FilterSteps.deviceCall_iff.mp h
    have hcmd : s.flowCmd.isSome := by
      rw [hop]
      rfl
    exact ⟨(accepted_iff _ _ _ _).mp ⟨s, hloops, hcmd⟩, hd, filterLoops_devId hloops,
      filterLoops_tblId hloops⟩

/-- Every `dev` number of a line that gets to the call is that of a device, the call goes to the
last one, and it is given the last `tbl` number. -/
structure FilterDelivers (flwDevs : Table D) (tuples : Vector Tuple 25)
    (actions : Vector Action 25) (cmd : CString) : Prop where
  dev : ∀ i, callIndex flwDevs.cnt tuples actions cmd = some i → ∀ t ∈ tokens ' ' cmd, ∀ v,
    Gives devName v t → 0 ≤ v ∧ v < flwDevs.cnt
  device : ∀ d call, fibCmdFilter flwDevs tuples actions cmd = .calls d call → ∀ t v,
    lastToken devName (tokens ' ' cmd) = some t → Gives devName v t →
      call.devId = v ∧ deref maxObjects flwDevs v = some d
  table : ∀ d call, fibCmdFilter flwDevs tuples actions cmd = .calls d call → ∀ t v,
    lastToken tblName (tokens ' ' cmd) = some t → Gives tblName v t → call.flowTable = v

/-- The numbers given fit a `short`, and no device number is the one behind the last device. -/
structure FilterFits (devCnt : Nat) (ts : List CString) : Prop where
  dev : ∀ t ∈ ts, ∀ v, Gives devName v t → IsShort v ∧ v ≠ devCnt
  tbl : devNumber (matchPart ts) ≠ devCnt → ∀ t v, lastToken tblName ts = some t →
    Gives tblName v t → IsShort v

theorem filterDelivers_iff {flwDevs : Table D} (hf : Filled maxObjects flwDevs) :
    FilterDelivers flwDevs tuples actions cmd ↔
      (Accepted flwDevs.cnt (tokens ' ' cmd) → FilterFits flwDevs.cnt (tokens ' ' cmd)) := by
  have hle := hf.cnt_le
  rw [maxObjects] at hle
  constructor
  · intro h hacc
    constructor
    · intro t ht v hv
      have hmem := h.dev _ (callIndex_iff.mpr ⟨hacc, rfl⟩) t ht v hv
      rw [IsShort]
      omega
    · intro hne t v ht hv
      obtain ⟨d, call, hcall⟩ := accepted_calls _ _ hf hacc hne
      obtain ⟨-, -, -, htbl⟩ := calls_numbers hcall
      rw [← toShort_eq_iff, ← tblNumber_gives hacc ht hv, ← htbl]
      exact h.table d call hcall t v ht hv
  · intro h
    constructor
    · intro i hi t ht v hv
      obtain ⟨hacc, -⟩ := callIndex_iff.mp hi
      obtain ⟨hshort, hne⟩ := (h hacc).dev t ht v hv
      have hmem := dev_mem hacc ht hv
      rw [toShort_eq_iff.mpr hshort] at hmem
      omega
    · intro d call hcall t v ht hv
      obtain ⟨hacc, hd, hdev, -⟩ := calls_numbers hcall
      have hshort := ((h hacc).dev t (lastToken_mem ht).1 v hv).1
      rw [devNumber_gives hacc ht hv, toShort_eq_iff.mpr hshort] at hdev
      rw [hdev] at hd
      exact ⟨hdev, hd⟩
    · intro d call hcall t v ht hv
      obtain ⟨hacc, hd, hdev, htbl⟩ := calls_numbers hcall
      have hreg := (hf.deref_isSome call.devId).mp (by rw [hd]; rfl)
      rw [htbl, tblNumber_gives hacc ht hv, toShort_eq_iff]
      exact (h hacc).tbl (by omega) t v ht hv

end

theorem Gives.atoi_eq {text : CString} (h : Gives n v (assign n text)) : atoi text = v := by
  obtain ⟨text', heq, hs, hl, hu⟩ := h
  obtain rfl := List.cons_injective (List.append_right_injective n heq)
  exact atoi_spells hs hl (by omega)

def oneDevLine : CString := "del-br dev=0 br-id=7".toList

def oneDevFilter : CString := "filter add dev=0 tbl=5".toList

theorem oneDevLine_fits : BridgeFits 1 delBrForm (tokens ' ' oneDevLine) := by
  constructor
  · intro t ht v hv
    have hmem : t ∈ ["del-br".toList, assign devName "0".toList, assign brIdName "7".toList] := ht
    simp only [List.mem_cons, List.not_mem_nil, or_false] at hmem
    obtain rfl | rfl | rfl := hmem
    · exact absurd hv.starts (by decide)
    · rw [← hv.atoi_eq]
      decide
    · exact absurd hv.starts (by decide)
  · intro _ n hn t v ht hv
    obtain rfl := List.mem_singleton.mp hn
    have hlast : lastToken brIdName (tokens ' ' oneDevLine) = some (assign brIdName "7".toList) :=
      rfl
    cases hlast.symm.trans ht
    rw [← hv.atoi_eq]
    decide

theorem oneDevFilter_fits : FilterFits 1 (tokens ' ' oneDevFilter) := by
  constructor
  · intro t ht v hv
    have hmem : t ∈ ["filter".toList, "add".toList, assign devName "0".toList,
      assign tblName "5".toList] := ht
    simp only [List.mem_cons, List.not_mem_nil, or_false] at hmem
    obtain rfl | rfl | rfl | rfl := hmem
    · exact absurd hv.starts (by decide)
    · exact absurd hv.starts (by decide)
    · rw [← hv.atoi_eq]
      decide
    · exact absurd hv.starts (by decide)
  · intro _ t v ht hv
    have hlast : lastToken tblName (tokens ' ' oneDevFilter) = some (assign tblName "5".toList) :=
      rfl
    cases hlast.symm.trans ht
    rw [← hv.atoi_eq]
    decide

theorem gives_large (n : CString) : Gives n 65536 (assign n "65536".toList) :=
  ⟨_, rfl, .nonneg ⟨by decide, by decide⟩, by decide, by decide⟩

end LibSwitch.NumberDelivery

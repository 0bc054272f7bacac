import LibSwitch.FilterWords
import LibSwitch.ListRuns

namespace LibSwitch.FilterGrammar

open LibSwitch.PointerTable LibSwitch.ByteOrder LibSwitch.ByteBuffer LibSwitch.CText
open LibSwitch.Numeral LibSwitch.Address LibSwitch.Common LibSwitch.FlowTypes
open LibSwitch.FlowFilter LibSwitch.FilterWords LibSwitch.ListRuns

variable {D : Type}

def lastPlace (names ts : List CString) : Option Nat := (ts.filterMap (place names)).getLast?

def isMarker (t : CString) : Bool := "action".toList.isPrefixOf t

def matchPart (ts : List CString) : List CString := ts.takeWhile fun t => !isMarker t

def actionPart (ts : List CString) : List CString := (ts.dropWhile fun t => !isMarker t).drop 1

/-- A token that may follow the given tokens before the action marker. -/
structure Follows (names p : List CString) (t : CString) : Prop where
  known : "filter".toList <+: t ∨ IsCommand t ∨ "dev".toList <+: t ∨ "tbl".toList <+: t ∨
    IsMatch names t
  command : ¬ "filter".toList <+: t → ¬ IsCommand t → ∃ u ∈ p, IsCommand u
  assigns : "dev".toList <+: t ∨ "tbl".toList <+: t ∨ IsMatch names t → '=' ∈ t
  tblNonneg : "tbl".toList <+: t → ∀ v, optionShort t = some v → 0 ≤ v
  dstMac : "dl-dst".toList <+: t → ∀ v, optionValue t = some v → (etherAton v).isSome
  chained : ∀ k, place names t = some k → k = 0 ∨ ∃ j, lastPlace names p = some j ∧ k = j + 1

/-- The lines of a filter command with the given match names, as lists of tokens. -/
structure Grammar (names ts : List CString) : Prop where
  follows : ∀ p t q, matchPart ts = p ++ t :: q → Follows names p t
  command : ∃ t ∈ matchPart ts, IsCommand t
  actions : ∀ t ∈ actionPart ts, "drop".toList <+: t ∨ ("out-port".toList <+: t ∧ '=' ∈ t)

/-- The lines considered: their devices are registered, their source addresses well formed and
neither part is longer than its array. -/
structure InDomain (names : List CString) (devCnt : Nat) (ts : List CString) : Prop where
  devs : ∀ t ∈ matchPart ts, "dev".toList <+: t → ∀ v, optionShort t = some v →
    0 ≤ v ∧ v < devCnt
  dev0 : (∀ t ∈ matchPart ts, ¬ "dev".toList <+: t) → 0 < devCnt
  srcMac : ∀ t ∈ matchPart ts, "dl-src".toList <+: t → ∀ v, optionValue t = some v →
    (etherAton v).isSome
  tuples : ((matchPart ts).filterMap (place names)).length ≤ 25
  actions : (actionPart ts).length ≤ 25

/-- What the locals hold after the given tokens were read. -/
structure Sees (devCnt : Nat) (s : Locals) (p : List CString) : Prop where
  flowCmd : s.flowCmd.isSome ↔ ∃ u ∈ p, IsCommand u
  rqdField : s.rqdField = rqdOf (lastPlace chain p)
  tupleCnt : s.tupleCnt = (p.filterMap (place chain)).length
  actionCnt : s.actionCnt = 0
  devSeen : (∃ u ∈ p, "dev".toList <+: u) → 0 ≤ s.devId ∧ s.devId < devCnt
  devFree : (¬ ∃ u ∈ p, "dev".toList <+: u) → s.devId = 0

def Read (devCnt : Nat) (s : Locals) (p : List CString) (t : CString) : Prop :=
  (Follows chain p t ∧ ∃ s', matchOption devCnt t s = .ok (some s') ∧ Sees devCnt s' (p ++ [t])) ∨
    (¬ Follows chain p t ∧ ∃ e, matchOption devCnt t s = .error e)

variable {devCnt : Nat} {s : Locals} {p : List CString} {t : CString}

theorem sees_initial (tuples : Vector Tuple 25) (actions : Vector Action 25) :
    Sees devCnt (initialLocals tuples actions) [] :=
  ⟨by simp [initialLocals], rfl, rfl, rfl, by simp, fun _ => rfl⟩

theorem exists_concat {P : CString → Prop} : (∃ u ∈ p ++ [t], P u) ↔ (∃ u ∈ p, P u) ∨ P t := by
  simp only [List.mem_append, List.mem_singleton, or_and_right, exists_or, exists_eq_left]

theorem lastPlace_concat_none (h : place chain t = none) :
    lastPlace chain (p ++ [t]) = lastPlace chain p := by
  rw [lastPlace, List.filterMap_append, List.filterMap_cons_none h, List.filterMap_nil,
    List.append_nil, lastPlace]

theorem lastPlace_concat_some {k : Nat} (h : place chain t = some k) :
    lastPlace chain (p ++ [t]) = some k := by
  rw [lastPlace, List.filterMap_append, List.filterMap_cons_some h, List.filterMap_nil,
    List.getLast?_concat]

theorem optionShort_eq_none : optionShort t = none ↔ '=' ∉ t := by
  rw [optionShort, Option.map_eq_none_iff, ← Option.not_isSome_iff_eq_none, optionValue_isSome]

theorem Sees.concat (hs : Sees devCnt s p) (hd : ¬ "dev".toList <+: t) (hm : ¬ IsMatch chain t)
    (op : Option FlwOp) (tbl : Int) (hop : op.isSome ↔ s.flowCmd.isSome ∨ IsCommand t) :
    Sees devCnt { s with flowCmd := op, tblId := tbl } (p ++ [t]) := by
  have hp := place_none hm
  constructor
  · rw [exists_concat, ← hs.flowCmd]
    exact hop
  · rw [lastPlace_concat_none hp]
    exact hs.rqdField
  · rw [List.filterMap_append, List.filterMap_cons_none hp, List.filterMap_nil, List.append_nil]
    exact hs.tupleCnt
  · exact hs.actionCnt
  · intro hdev
    exact hs.devSeen ((exists_concat.mp hdev).resolve_right hd)
  · intro hdev
    exact hs.devFree fun h => hdev (exists_concat.mpr (Or.inl h))

theorem follows_plain {a : CString} (ha : a ∈ words) (h : a <+: t)
    (hk : "filter".toList <+: t ∨ IsCommand t) (hdev : "dev".toList ≠ a) (htbl : "tbl".toList ≠ a)
    (hc : a ∉ chain) : Follows chain p t := by
  have hm := not_isMatch ha hc h
  have hd := not_starts ha h (by decide) hdev
  have ht := not_starts ha h (by decide) htbl
  refine ⟨hk.elim Or.inl fun hcmd => Or.inr (Or.inl hcmd), ?_, ?_, fun h => absurd h ht, ?_, ?_⟩
  · intro hf hcmd
    exact absurd hk (not_or.mpr ⟨hf, hcmd⟩)
  · rintro (h | h | h)
    · exact absurd h hd
    · exact absurd h ht
    · exact absurd h hm
  · intro hdst
    exact absurd ⟨_, by decide, hdst⟩ hm
  · intro k hk
    rw [place_none hm] at hk
    cases hk

theorem read_filter (hs : Sees devCnt s p) (h : "filter".toList <+: t) : Read devCnt s p t := by
  have hf : Follows chain p t :=
    follows_plain (by decide) h (Or.inl h) (by decide) (by decide) (by decide)
  have hc : ¬ IsCommand t := not_isCommand (by decide) h (by decide) (by decide) (by decide)
  have hd := not_starts (by decide) h (show "dev".toList ∈ words by decide) (by decide)
  have hsees := hs.concat hd (not_isMatch (by decide) (by decide) h) s.flowCmd s.tblId
    ⟨Or.inl, fun h => h.resolve_right hc⟩
  exact Or.inl ⟨hf, s, matchOption_filter devCnt s h, hsees⟩

theorem isCommand_plain (h : IsCommand t) :
    Follows chain p t ∧ ¬ "dev".toList <+: t ∧ ¬ IsMatch chain t := by
  have hplain {a : CString} (ha : a ∈ words) (hat : a <+: t) (hdev : "dev".toList ≠ a)
      (htbl : "tbl".toList ≠ a) (hc : a ∉ chain) :
      Follows chain p t ∧ ¬ "dev".toList <+: t ∧ ¬ IsMatch chain t :=
    ⟨follows_plain ha hat (Or.inr h) hdev htbl hc, not_starts ha hat (by decide) hdev,
      not_isMatch ha hc hat⟩
  obtain h | h | h := h
  · exact hplain (by decide) h (by decide) (by decide) (by decide)
  · exact hplain (by decide) h (by decide) (by decide) (by decide)
  · exact hplain (by decide) h (by decide) (by decide) (by decide)

theorem read_command (hs : Sees devCnt s p) (h : IsCommand t) : Read devCnt s p t := by
  obtain ⟨hf, hd, hm⟩ := isCommand_plain (p := p) h
  obtain ⟨op, hop⟩ := matchOption_command devCnt s h
  exact Or.inl ⟨hf, _, hop, hs.concat hd hm _ s.tblId (iff_of_true rfl (Or.inr h))⟩

theorem read_uncommanded (hs : Sees devCnt s p) (hc : ¬ ∃ u ∈ p, IsCommand u)
    (hf : ¬ "filter".toList <+: t) (hcmd : ¬ IsCommand t) {r : Except Stop (Option Locals)}
    (h : matchOption devCnt t s = if s.flowCmd.isNone then .error .out else r) :
    Read devCnt s p t := by
  refine Or.inr ⟨fun hfol => hc (hfol.command hf hcmd), .out, ?_⟩
  rw [h, if_uncommanded s fun hsome => hc (hs.flowCmd.mp hsome)]

theorem commanded (hs : Sees devCnt s p) (hc : ∃ u ∈ p, IsCommand u)
    {r : Except Stop (Option Locals)}
    (h : matchOption devCnt t s = if s.flowCmd.isNone then .error .out else r) :
    matchOption devCnt t s = r := by
  rw [h, if_commanded s (hs.flowCmd.mpr hc)]

theorem follows_assign (hk : "dev".toList <+: t ∨ "tbl".toList <+: t) (hm : ¬ IsMatch chain t)
    (hc : ∃ u ∈ p, IsCommand u) {v : Int} (hv : optionShort t = some v)
    (htbl : "tbl".toList <+: t → 0 ≤ v) : Follows chain p t := by
  refine ⟨?_, fun _ _ => hc, fun _ => ?_, ?_, fun hdst => absurd ⟨_, by decide, hdst⟩ hm, ?_⟩
  · exact Or.inr (Or.inr (hk.imp_right Or.inl))
  · by_contra he
    rw [optionShort_eq_none.mpr he] at hv
    cases hv
  · intro ht v' hv'
    rw [hv] at hv'
    cases hv'
    exact htbl ht
  · intro k hk
    rw [place_none hm] at hk
    cases hk

theorem read_dev (hs : Sees devCnt s p) (h : "dev".toList <+: t)
    (hdom : ∀ v, optionShort t = some v → 0 ≤ v ∧ v < devCnt) : Read devCnt s p t := by
  have hf := not_starts (by decide) h (show "filter".toList ∈ words by decide) (by decide)
  have hcmd : ¬ IsCommand t := not_isCommand (by decide) h (by decide) (by decide) (by decide)
  have hm : ¬ IsMatch chain t := not_isMatch (by decide) (by decide) h
  have htbl := not_starts (by decide) h (show "tbl".toList ∈ words by decide) (by decide)
  have hstep := matchOption_dev devCnt s h
  by_cases hc : ∃ u ∈ p, IsCommand u
  swap
  · exact read_uncommanded hs hc hf hcmd hstep
  rw [Read, commanded hs hc hstep, devOption]
  cases hv : optionShort t with
  | none =>
    exact Or.inr ⟨fun hfol => optionShort_eq_none.mp hv (hfol.assigns (Or.inl h)), _, rfl⟩
  | some v =>
    obtain ⟨h0, hlt⟩ := hdom v hv
    have hfol : Follows chain p t := follows_assign (Or.inl h) hm hc hv fun ht => absurd ht htbl
    refine Or.inl ⟨hfol, { s with devId := v }, ?_, ?_⟩
    · have hok : ¬ ((devCnt : Int) < v ∨ v < 0) := by omega
      simp only [if_neg hok]
      rfl
    · have hp := place_none hm
      constructor
      · rw [exists_concat, ← hs.flowCmd]
        exact ⟨Or.inl, fun h => h.resolve_right hcmd⟩
      · rw [lastPlace_concat_none hp]
        exact hs.rqdField
      · rw [List.filterMap_append, List.filterMap_cons_none hp, List.filterMap_nil,
          List.append_nil]
        exact hs.tupleCnt
      · exact hs.actionCnt
      · exact fun _ => ⟨h0, hlt⟩
      · exact fun hno => absurd (exists_concat.mpr (Or.inr h)) hno

theorem read_tbl (hs : Sees devCnt s p) (h : "tbl".toList <+: t) : Read devCnt s p t := by
  have hf := not_starts (by decide) h (show "filter".toList ∈ words by decide) (by decide)
  have hcmd : ¬ IsCommand t := not_isCommand (by decide) h (by decide) (by decide) (by decide)
  have hm : ¬ IsMatch chain t := not_isMatch (by decide) (by decide) h
  have hd := not_starts (by decide) h (show "dev".toList ∈ words by decide) (by decide)
  have hstep := matchOption_tbl devCnt s h
  by_cases hc : ∃ u ∈ p, IsCommand u
  swap
  · exact read_uncommanded hs hc hf hcmd hstep
  rw [Read, commanded hs hc hstep, tblOption]
  cases hv : optionShort t with
  | none =>
    exact Or.inr ⟨fun hfol => optionShort_eq_none.mp hv (hfol.assigns (Or.inr (Or.inl h))), _, rfl⟩
  | some v =>
    by_cases h0 : v < 0
    · refine Or.inr ⟨fun hfol => ?_, .out, by simp only [if_pos h0]; rfl⟩
      have hn := hfol.tblNonneg h v hv
      omega
    have hfol : Follows chain p t := follows_assign (Or.inr h) hm hc hv fun _ => by omega
    refine Or.inl ⟨hfol, { s with tblId := v }, by simp only [if_neg h0]; rfl, ?_⟩
    exact hs.concat hd hm s.flowCmd v ⟨Or.inl, fun h => h.resolve_right hcmd⟩

theorem matchField_ok {f : MatchField} (hf : f ∈ matchFields) (s : Locals)
    (hreq : f.required.any (· != s.rqdField) = false) (hcnt : s.tupleCnt < 25) {text : CString}
    (hv : optionValue t = some text)
    (hmac : f.word = "dl-dst".toList ∨ f.word = "dl-src".toList → (etherAton text).isSome) :
    ∃ tuples, matchField f t s = .ok { s with
      rqdField := f.next, tuples := tuples, tupleCnt := s.tupleCnt + 1 } := by
  obtain ⟨v, hparse⟩ := parse_ok hf s.tuples[s.tupleCnt].value hmac
  rw [matchField, hreq, if_neg Bool.false_ne_true, dif_pos hcnt, hv]
  simp only [hparse]
  exact ⟨_, rfl⟩

theorem matchField_error {f : MatchField} (hf : f ∈ matchFields) (s : Locals)
    (h : f.required.any (· != s.rqdField) = true ∨ optionValue t = none ∨
      f.word = "dl-dst".toList ∧ ∃ text, optionValue t = some text ∧ etherAton text = none) :
    ∃ e, matchField f t s = .error e := by
  rw [matchField]
  by_cases hreq : f.required.any (· != s.rqdField) = true
  · rw [if_pos hreq]
    exact ⟨_, rfl⟩
  rw [if_neg hreq]
  by_cases hcnt : s.tupleCnt < 25
  · rw [dif_pos hcnt]
    obtain h | h | ⟨hword, text, hv, hbad⟩ := h
    · exact absurd h hreq
    · rw [h]
      exact ⟨_, rfl⟩
    · rw [hv]
      simp only [parse_error hf _ hword hbad]
      exact ⟨_, rfl⟩
  · rw [dif_neg hcnt]
    exact ⟨_, rfl⟩

theorem Sees.concat_field (hs : Sees devCnt s p) {k : Nat} {f : MatchField}
    (hk : matchFields[k]? = some f) (hp : place chain t = some k) (hcmd : ¬ IsCommand t)
    (hd : ¬ "dev".toList <+: t) (tuples : Vector Tuple 25) :
    Sees devCnt { s with rqdField := f.next, tuples := tuples, tupleCnt := s.tupleCnt + 1 }
      (p ++ [t]) := by
  constructor
  · rw [exists_concat, ← hs.flowCmd]
    exact ⟨Or.inl, fun h => h.resolve_right hcmd⟩
  · rw [lastPlace_concat_some hp]
    exact (field_codes hk).1
  · rw [List.filterMap_append, List.filterMap_cons_some hp, List.filterMap_nil,
      List.length_append, ← hs.tupleCnt]
    rfl
  · exact hs.actionCnt
  · intro hdev
    exact hs.devSeen ((exists_concat.mp hdev).resolve_right hd)
  · intro hdev
    exact hs.devFree fun h => hdev (exists_concat.mpr (Or.inl h))

theorem follows_field {k : Nat} {f : MatchField} (hk : matchFields[k]? = some f)
    (hword : f.word <+: t) (hc : ∃ u ∈ p, IsCommand u) {text : CString}
    (hv : optionValue t = some text) (hdst : f.word = "dl-dst".toList → (etherAton text).isSome)
    (hturn : k = 0 ∨ ∃ j, lastPlace chain p = some j ∧ k = j + 1) : Follows chain p t := by
  have hf := List.mem_of_getElem? hk
  have hw := word_mem_words hf
  have hmatch : IsMatch chain t := ⟨f.word, word_mem_chain hf, hword⟩
  have htbl := (chain_not_keyword f.word (word_mem_chain hf)).2.2.2.2.2.1
  refine ⟨Or.inr (Or.inr (Or.inr (Or.inr hmatch))), fun _ _ => hc, fun _ => ?_,
    fun htbl' => absurd htbl' (not_starts hw hword (by decide) htbl), ?_, ?_⟩
  · rw [← optionValue_isSome, hv]
    rfl
  · intro hdst' v hv'
    rw [hv] at hv'
    cases hv'
    exact hdst (word_unique hw (by decide) hword hdst')
  · intro k' hk'
    rw [place_field hk hword] at hk'
    cases hk'
    exact hturn

theorem read_field (hs : Sees devCnt s p) (h : IsMatch chain t)
    (hsrc : "dl-src".toList <+: t → ∀ v, optionValue t = some v → (etherAton v).isSome)
    (hcnt : ((p ++ [t]).filterMap (place chain)).length ≤ 25) : Read devCnt s p t := by
  obtain ⟨k, f, hk, hword⟩ := exists_field h
  have hf := List.mem_of_getElem? hk
  have hw := word_mem_words hf
  obtain ⟨hfil, hadd, hdel, hdump, hdev, -⟩ := chain_not_keyword f.word (word_mem_chain hf)
  have hd := not_starts hw hword (by decide) hdev
  have hcmd := not_isCommand hw hword hadd hdel hdump
  have hp := place_field hk hword
  have hstep := matchOption_field devCnt s hf hword
  by_cases hc : ∃ u ∈ p, IsCommand u
  swap
  · exact read_uncommanded hs hc (not_starts hw hword (by decide) hfil) hcmd hstep
  rw [Read, commanded hs hc hstep]
  have horder := required_iff hk (lastPlace chain p)
  rw [← hs.rqdField] at horder
  have herr (hno : ¬ Follows chain p t) (he : ∃ e, matchField f t s = .error e) :
      ¬ Follows chain p t ∧ ∃ e, (matchField f t s).map some = .error e := by
    obtain ⟨e, he⟩ := he
    exact ⟨hno, e, by rw [he]; rfl⟩
  by_cases hreq : f.required.any (· != s.rqdField) = true
  · refine Or.inr (herr (fun hfol => ?_) (matchField_error hf s (Or.inl hreq)))
    rw [horder.mpr (hfol.chained k hp)] at hreq
    cases hreq
  rw [Bool.not_eq_true] at hreq
  cases hv : optionValue t with
  | none =>
    refine Or.inr (herr (fun hfol => ?_) (matchField_error hf s (Or.inr (Or.inl hv))))
    have hsome := optionValue_isSome.mpr (hfol.assigns (Or.inr (Or.inr h)))
    rw [hv] at hsome
    cases hsome
  | some text =>
    by_cases hdst : f.word = "dl-dst".toList ∧ etherAton text = none
    · refine Or.inr (herr (fun hfol => ?_)
        (matchField_error hf s (Or.inr (Or.inr ⟨hdst.1, text, hv, hdst.2⟩))))
      have hsome := hfol.dstMac (hdst.1 ▸ hword) text hv
      rw [hdst.2] at hsome
      cases hsome
    have hmac : f.word = "dl-dst".toList ∨ f.word = "dl-src".toList → (etherAton text).isSome := by
      rintro (hn | hn)
      · rw [← Option.not_isSome_iff_eq_none, not_and_not_right] at hdst
        exact hdst hn
      · exact hsrc (hn ▸ hword) text hv
    have hfol : Follows chain p t :=
      follows_field hk hword hc hv (fun hn => hmac (Or.inl hn)) (horder.mp hreq)
    have hlt : s.tupleCnt < 25 := by
      rw [List.filterMap_append, List.filterMap_cons_some hp, List.filterMap_nil,
        List.length_append, ← hs.tupleCnt, List.length_singleton] at hcnt
      omega
    obtain ⟨tuples, hok⟩ := matchField_ok hf s hreq hlt hv hmac
    exact Or.inl ⟨hfol, _, by rw [hok]; rfl, hs.concat_field hk hp hcmd hd tuples⟩

theorem read_unknown (h : ∀ w ∈ words, ¬ w <+: t) : Read devCnt s p t := by
  refine Or.inr ⟨fun hfol => ?_, .out, matchOption_unknown devCnt s h⟩
  obtain hk | (hk | hk | hk) | hk | hk | ⟨n, hn, hk⟩ := hfol.known
  · exact h _ (by decide) hk
  · exact h _ (by decide) hk
  · exact h _ (by decide) hk
  · exact h _ (by decide) hk
  · exact h _ (by decide) hk
  · exact h _ (by decide) hk
  · exact h n (chain_mem_words hn) hk

theorem read_token (hs : Sees devCnt s p) (hm : isMarker t = false)
    (hdev : "dev".toList <+: t → ∀ v, optionShort t = some v → 0 ≤ v ∧ v < devCnt)
    (hsrc : "dl-src".toList <+: t → ∀ v, optionValue t = some v → (etherAton v).isSome)
    (hcnt : ((p ++ [t]).filterMap (place chain)).length ≤ 25) : Read devCnt s p t := by
  by_cases hfil : "filter".toList <+: t
  · exact read_filter hs hfil
  by_cases hcmd : IsCommand t
  · exact read_command hs hcmd
  by_cases hd : "dev".toList <+: t
  · exact read_dev hs hd (hdev hd)
  by_cases htbl : "tbl".toList <+: t
  · exact read_tbl hs htbl
  by_cases hmatch : IsMatch chain t
  · exact read_field hs hmatch hsrc hcnt
  apply read_unknown
  intro w hw hp
  simp only [words, List.mem_append, List.mem_cons, List.not_mem_nil, or_false] at hw
  obtain ((rfl | rfl | rfl | rfl | rfl | rfl) | hw) | rfl := hw
  · exact hfil hp
  · exact hcmd (Or.inl hp)
  · exact hcmd (Or.inr (Or.inl hp))
  · exact hcmd (Or.inr (Or.inr hp))
  · exact hd hp
  · exact htbl hp
  · exact hmatch ⟨w, hw, hp⟩
  · rw [isMarker, List.isPrefixOf_iff_prefix.mpr hp] at hm
    cases hm

theorem matchPart_marker (h : isMarker t = true) (ts : List CString) :
    matchPart (t :: ts) = [] ∧ actionPart (t :: ts) = ts := by
  simp [matchPart, actionPart, h]

theorem matchPart_cons (h : isMarker t = false) (ts : List CString) :
    matchPart (t :: ts) = t :: matchPart ts ∧ actionPart (t :: ts) = actionPart ts := by
  simp [matchPart, actionPart, h]

def AllFollow (p ts : List CString) : Prop := ∀ q t r, ts = q ++ t :: r → Follows chain (p ++ q) t

theorem allFollow_nil : AllFollow p [] := throughout_nil

theorem allFollow_cons (ts : List CString) :
    AllFollow p (t :: ts) ↔ Follows chain p t ∧ AllFollow (p ++ [t]) ts := throughout_cons

/-- The match loop gets to the actions when every token may follow those before it. Where it
does not, some token may not follow, or no command stands before the marker. -/
theorem matchLoop_cases (ts : List CString) (hs : Sees devCnt s p)
    (hdev : ∀ t ∈ matchPart ts, "dev".toList <+: t → ∀ v, optionShort t = some v →
      0 ≤ v ∧ v < devCnt)
    (hsrc : ∀ t ∈ matchPart ts, "dl-src".toList <+: t → ∀ v, optionValue t = some v →
      (etherAton v).isSome)
    (hcnt : ((p ++ matchPart ts).filterMap (place chain)).length ≤ 25) :
    (AllFollow p (matchPart ts) ∧ ∃ s', matchLoop devCnt ts s = .ok (s', actionPart ts) ∧
        Sees devCnt s' (p ++ matchPart ts)) ∨
      (¬ (AllFollow p (matchPart ts) ∧ ∃ u ∈ p ++ matchPart ts, IsCommand u) ∧
        ∃ e, matchLoop devCnt ts s = .error e) := by
  induction ts generalizing s p with
  | nil =>
    rw [matchPart, List.takeWhile_nil, List.append_nil]
    exact Or.inl ⟨allFollow_nil, s, rfl, hs⟩
  | cons t ts ih =>
    cases hm : isMarker t with
    | true =>
      obtain ⟨hpart, hact⟩ := matchPart_marker hm ts
      have hstep := matchOption_marker devCnt s (List.isPrefixOf_iff_prefix.mp hm)
      rw [hpart, hact, List.append_nil, matchLoop]
      by_cases hc : ∃ u ∈ p, IsCommand u
      · rw [commanded hs hc hstep]
        exact Or.inl ⟨allFollow_nil, s, rfl, hs⟩
      · rw [hstep, if_uncommanded s fun hsome => hc (hs.flowCmd.mp hsome)]
        exact Or.inr ⟨fun h => hc h.2, _, rfl⟩
    | false =>
      obtain ⟨hpart, hact⟩ := matchPart_cons hm ts
      rw [hpart] at hdev hsrc hcnt
      have happ := List.append_cons p t (matchPart ts)
      rw [happ] at hcnt
      rw [hpart, hact, matchLoop, allFollow_cons, happ]
      have hone : ((p ++ [t]).filterMap (place chain)).length ≤ 25 := by
        rw [List.filterMap_append, List.length_append] at hcnt
        omega
      obtain ⟨hfol, s', hok, hsees⟩ | ⟨hno, e, herr⟩ :=
        read_token hs hm (hdev t List.mem_cons_self) (hsrc t List.mem_cons_self) hone
      · rw [hok]
        obtain ⟨hall, h⟩ | ⟨hno, h⟩ :=
          ih hsees (fun u hu => hdev u (List.mem_cons_of_mem t hu))
            (fun u hu => hsrc u (List.mem_cons_of_mem t hu)) hcnt
        · exact Or.inl ⟨⟨hfol, hall⟩, h⟩
        · exact Or.inr ⟨fun hall => hno ⟨hall.1.2, hall.2⟩, h⟩
      · rw [herr]
        exact Or.inr ⟨fun hall => hno hall.1.1, e, rfl⟩

def ActionToken (t : CString) : Prop :=
  "drop".toList <+: t ∨ ("out-port".toList <+: t ∧ '=' ∈ t)

theorem actionOption_cases (t : CString) {s : Locals} (hcnt : s.actionCnt < 25) :
    (ActionToken t ∧ ∃ s', actionOption t s = .ok s' ∧ s'.flowCmd = s.flowCmd ∧
        s'.devId = s.devId ∧ s'.actionCnt ≤ s.actionCnt + 1) ∨
      (¬ ActionToken t ∧ ∃ e, actionOption t s = .error e) := by
  have hdrop : strncmpEq t "drop".toList 4 = true ↔ "drop".toList <+: t :=
    strncmpEq_iff_starts
  have hport : strncmpEq t "out-port".toList 8 = true ↔ "out-port".toList <+: t :=
    strncmpEq_iff_starts
  rw [actionOption]
  by_cases hd : "drop".toList <+: t
  · rw [if_pos (hdrop.mpr hd), dif_pos hcnt]
    exact Or.inl ⟨Or.inl hd, _, rfl, rfl, rfl, Nat.le_succ _⟩
  rw [if_neg fun h => hd (hdrop.mp h)]
  by_cases hp : "out-port".toList <+: t
  · rw [if_pos (hport.mpr hp), dif_pos hcnt]
    cases hv : optionValue t with
    | none =>
      refine Or.inr ⟨?_, _, rfl⟩
      rintro (h | ⟨-, he⟩)
      · exact hd h
      · rw [← optionValue_isSome, hv] at he
        cases he
    | some text =>
      refine Or.inl ⟨Or.inr ⟨hp, ?_⟩, _, rfl, rfl, rfl, Nat.le_refl _⟩
      rw [← optionValue_isSome, hv]
      rfl
  · rw [if_neg fun h => hp (hport.mp h)]
    refine Or.inr ⟨?_, _, rfl⟩
    rintro (h | ⟨h, -⟩)
    · exact hd h
    · exact hp h

theorem actionLoop_cases (ts : List CString) {s : Locals} (hcnt : s.actionCnt + ts.length ≤ 25) :
    ((∀ t ∈ ts, ActionToken t) ∧ ∃ s', actionLoop ts s = .ok s' ∧ s'.flowCmd = s.flowCmd ∧
        s'.devId = s.devId) ∨
      (¬ (∀ t ∈ ts, ActionToken t) ∧ ∃ e, actionLoop ts s = .error e) := by
  induction ts generalizing s with
  | nil => exact Or.inl ⟨by simp, s, rfl, rfl, rfl⟩
  | cons t ts ih =>
    rw [List.length_cons] at hcnt
    rw [actionLoop, List.forall_mem_cons]
    obtain ⟨ht, s₁, hok, hcmd, hdev, hle⟩ | ⟨ht, e, herr⟩ :=
      actionOption_cases t (s := s) (by omega)
    · rw [hok]
      obtain ⟨hts, s', hok', hcmd', hdev'⟩ | ⟨hts, h⟩ := ih (s := s₁) (by omega)
      · exact Or.inl ⟨⟨ht, hts⟩, s', hok', hcmd'.trans hcmd, hdev'.trans hdev⟩
      · exact Or.inr ⟨fun hall => hts hall.2, h⟩
    · rw [herr]
      exact Or.inr ⟨fun hall => ht hall.1, e, rfl⟩

theorem deviceCall_iff {flwDevs : Table D} (hf : Filled maxObjects flwDevs) {s s' : Locals}
    (hs : Sees flwDevs.cnt s p) (hcmd : s'.flowCmd = s.flowCmd) (hdev : s'.devId = s.devId)
    (hdev0 : (∀ t ∈ p, ¬ "dev".toList <+: t) → 0 < flwDevs.cnt) :
    (∃ d c, deviceCall flwDevs s' = .calls d c) ↔ ∃ u ∈ p, IsCommand u := by
  rw [← hs.flowCmd, deviceCall, hcmd, hdev]
  cases s.flowCmd with
  | none => simp
  | some op =>
    have hreg : 0 ≤ s.devId ∧ s.devId < flwDevs.cnt := by
      by_cases hseen : ∃ u ∈ p, "dev".toList <+: u
      · exact hs.devSeen hseen
      · have h0 := hdev0 fun t ht h => hseen ⟨t, ht, h⟩
        rw [hs.devFree hseen]
        omega
    obtain ⟨d, hd⟩ := Option.isSome_iff_exists.mp ((hf.deref_isSome s.devId).mpr hreg)
    simp only [hd]
    exact iff_of_true ⟨d, _, rfl⟩ rfl

/-- `fib_cmd_filter` makes a device call on exactly the lines of the grammar of its chain. -/
theorem calls_iff_chain {flwDevs : Table D} (hf : Filled maxObjects flwDevs)
    (tuples : Vector Tuple 25) (actions : Vector Action 25) (cmd : CString)
    (hdom : InDomain chain flwDevs.cnt (tokens ' ' cmd)) :
    (∃ d c, fibCmdFilter flwDevs tuples actions cmd = .calls d c) ↔
      Grammar chain (tokens ' ' cmd) := by
  have hgrammar : Grammar chain (tokens ' ' cmd) ↔ AllFollow [] (matchPart (tokens ' ' cmd)) ∧
      (∃ t ∈ matchPart (tokens ' ' cmd), IsCommand t) ∧
        ∀ t ∈ actionPart (tokens ' ' cmd), ActionToken t :=
    ⟨fun h => ⟨h.follows, h.command, h.actions⟩, fun h => ⟨h.1, h.2.1, h.2.2⟩⟩
  rw [hgrammar, fibCmdFilter, filterLoops]
  obtain ⟨hall, s₁, hok, hsees⟩ | ⟨hno, e, herr⟩ :=
    matchLoop_cases (tokens ' ' cmd) (sees_initial tuples actions) hdom.devs hdom.srcMac
      hdom.tuples
  · rw [hok]
    dsimp only
    rw [List.nil_append] at hsees
    have hfit : s₁.actionCnt + (actionPart (tokens ' ' cmd)).length ≤ 25 := by
      rw [hsees.actionCnt, Nat.zero_add]
      exact hdom.actions
    obtain ⟨hact, s', hok', hcmd, hdev⟩ | ⟨hact, e, herr⟩ :=
      actionLoop_cases (actionPart (tokens ' ' cmd)) hfit
    · rw [hok']
      dsimp only
      rw [deviceCall_iff hf hsees hcmd hdev hdom.dev0]
      exact ⟨fun h => ⟨hall, h, hact⟩, fun h => h.2.1⟩
    · rw [herr]
      exact iff_of_false (by simp) fun h => hact h.2.2
  · rw [herr]
    exact iff_of_false (by simp) fun h => hno ⟨h.1, h.2.1⟩

end LibSwitch.FilterGrammar

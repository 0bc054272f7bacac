import Mathlib.Data.List.Infix
import Mathlib.Data.List.Nodup
import Mathlib.Tactic.IntervalCases
import LibSwitch.FlowFilter

namespace LibSwitch.FilterWords

open LibSwitch.PointerTable LibSwitch.ByteOrder LibSwitch.ByteBuffer LibSwitch.CText
open LibSwitch.Numeral LibSwitch.Address LibSwitch.Common LibSwitch.FlowTypes
open LibSwitch.FlowFilter

/-- The match names, in the order in which the match loop asks for them. -/
def matchNames : List CString :=
  ["in-phy-port".toList, "in-port".toList, "dl-dst".toList, "dl-src".toList, "dl-type".toList,
   "nw-dst".toList, "nw-src".toList, "nw-ecn".toList, "nw-proto".toList, "tp-dst".toList,
   "tp-src".toList]

/-- What the match loop compares of them: of `dl-type`, the first six characters. -/
def chain : List CString :=
  ["in-phy-port".toList, "in-port".toList, "dl-dst".toList, "dl-src".toList, "dl-typ".toList,
   "nw-dst".toList, "nw-src".toList, "nw-ecn".toList, "nw-proto".toList, "tp-dst".toList,
   "tp-src".toList]

def IsCommand (t : CString) : Prop :=
  "add".toList <+: t ∨ "del".toList <+: t ∨ "dump".toList <+: t

def IsMatch (names : List CString) (t : CString) : Prop := ∃ n ∈ names, n <+: t

def place (names : List CString) (t : CString) : Option Nat :=
  names.findIdx? fun n => n.isPrefixOf t

def words : List CString :=
  ["filter".toList, "add".toList, "del".toList, "dump".toList, "dev".toList, "tbl".toList] ++
    chain ++ ["action".toList]

theorem chain_mem_words {n : CString} (hn : n ∈ chain) : n ∈ words := by
  rw [words, List.mem_append, List.mem_append]
  exact Or.inl (Or.inr hn)

theorem words_prefixFree : ∀ a ∈ words, ∀ b ∈ words, a <+: b → a = b := by decide

theorem word_unique {a b t : CString} (ha : a ∈ words) (hb : b ∈ words) (hat : a <+: t)
    (hbt : b <+: t) : a = b := by
  obtain h | h := List.prefix_or_prefix_of_prefix hat hbt
  · exact words_prefixFree a ha b hb h
  · exact (words_prefixFree b hb a ha h).symm

theorem not_starts {a b t : CString} (ha : a ∈ words) (h : a <+: t) (hb : b ∈ words)
    (hne : b ≠ a) : ¬ b <+: t :=
  fun hbt => hne (word_unique hb ha hbt h)

theorem not_isMatch {a t : CString} (ha : a ∈ words) (hc : a ∉ chain) (h : a <+: t) :
    ¬ IsMatch chain t := by
  rintro ⟨n, hn, hp⟩
  rw [word_unique (chain_mem_words hn) ha hp h] at hn
  exact hc hn

theorem not_isCommand {a t : CString} (ha : a ∈ words) (h : a <+: t) (hadd : "add".toList ≠ a)
    (hdel : "del".toList ≠ a) (hdump : "dump".toList ≠ a) : ¬ IsCommand t := by
  rintro (hc | hc | hc)
  · exact not_starts ha h (by decide) hadd hc
  · exact not_starts ha h (by decide) hdel hc
  · exact not_starts ha h (by decide) hdump hc

theorem strncmpEq_word {a b t : CString} (ha : a ∈ words) (hat : a <+: t) (hb : b ∈ words) :
    strncmpEq t b b.length = decide (b = a) := by
  by_cases h : b = a
  · subst h
    rw [strncmpEq_iff_starts.mpr hat, decide_eq_true rfl]
  · rw [decide_eq_false h, Bool.eq_false_iff, ne_eq, strncmpEq_iff_starts]
    exact fun hbt => h (word_unique hb ha hbt hat)

theorem name_mem_matchNames {f : MatchField} (hf : f ∈ matchFields) : f.name ∈ matchNames :=
  List.mem_map_of_mem hf

theorem words_eq_chain : matchFields.map MatchField.word = chain := rfl

theorem word_prefix_name (f : MatchField) : f.word <+: f.name := List.take_prefix f.len f.name

theorem field_starts {f : MatchField} (hf : f ∈ matchFields) {t : CString} :
    strncmpEq t f.name f.len = true ↔ f.word <+: t := by
  have hlen : ∀ f ∈ matchFields, f.len ≤ f.name.length := by decide
  exact strncmpEq_iff_take (hlen f hf)

theorem keywords_word {a t : CString} (ha : a ∈ words) (h : a <+: t) :
    strncmpEq t "filter".toList 6 = decide ("filter".toList = a) ∧
    strncmpEq t "add".toList 3 = decide ("add".toList = a) ∧
    strncmpEq t "del".toList 3 = decide ("del".toList = a) ∧
    strncmpEq t "dump".toList 4 = decide ("dump".toList = a) ∧
    strncmpEq t "dev".toList 3 = decide ("dev".toList = a) ∧
    strncmpEq t "tbl".toList 3 = decide ("tbl".toList = a) ∧
    strncmpEq t "action".toList 6 = decide ("action".toList = a) :=
  ⟨strncmpEq_word ha h (b := "filter".toList) (by decide),
    strncmpEq_word ha h (b := "add".toList) (by decide),
    strncmpEq_word ha h (b := "del".toList) (by decide),
    strncmpEq_word ha h (b := "dump".toList) (by decide),
    strncmpEq_word ha h (b := "dev".toList) (by decide),
    strncmpEq_word ha h (b := "tbl".toList) (by decide),
    strncmpEq_word ha h (b := "action".toList) (by decide)⟩

variable {t : CString} (devCnt : Nat) (s : Locals)

theorem matchOption_filter (h : "filter".toList <+: t) :
    matchOption devCnt t s = .ok (some s) := by
  obtain ⟨h₁, -⟩ := keywords_word (by decide) h
  rw [matchOption, h₁]
  rfl

theorem matchOption_command (h : IsCommand t) :
    ∃ op, matchOption devCnt t s = .ok (some { s with flowCmd := some op }) := by
  obtain h | h | h := h
  · obtain ⟨h₁, h₂, -⟩ := keywords_word (by decide) h
    refine ⟨.add, ?_⟩
    rw [matchOption, h₁, h₂]
    rfl
  · obtain ⟨h₁, h₂, h₃, -⟩ := keywords_word (by decide) h
    refine ⟨.delete, ?_⟩
    rw [matchOption, h₁, h₂, h₃]
    rfl
  · obtain ⟨h₁, h₂, h₃, h₄, -⟩ := keywords_word (by decide) h
    refine ⟨.lookup, ?_⟩
    rw [matchOption, h₁, h₂, h₃, h₄]
    rfl

theorem matchOption_dev (h : "dev".toList <+: t) :
    matchOption devCnt t s =
      if s.flowCmd.isNone then .error .out else (devOption devCnt t s).map some := by
  obtain ⟨h₁, h₂, h₃, h₄, h₅, -⟩ := keywords_word (by decide) h
  rw [matchOption, h₁, h₂, h₃, h₄, h₅]
  rfl

theorem matchOption_tbl (h : "tbl".toList <+: t) :
    matchOption devCnt t s =
      if s.flowCmd.isNone then .error .out else (tblOption t s).map some := by
  obtain ⟨h₁, h₂, h₃, h₄, h₅, h₆, -⟩ := keywords_word (by decide) h
  rw [matchOption, h₁, h₂, h₃, h₄, h₅, h₆]
  rfl

theorem if_commanded {r : Except Stop (Option Locals)} (h : s.flowCmd.isSome) :
    (if s.flowCmd.isNone then .error .out else r) = r := by
  apply if_neg
  rw [Option.isNone_iff_eq_none, ← Option.not_isSome_iff_eq_none]
  exact not_not_intro h

theorem if_uncommanded {r : Except Stop (Option Locals)} (h : ¬ s.flowCmd.isSome) :
    (if s.flowCmd.isNone then .error .out else r) = .error .out := by
  apply if_pos
  rwa [Option.isNone_iff_eq_none, ← Option.not_isSome_iff_eq_none]

theorem word_mem_chain {f : MatchField} (hf : f ∈ matchFields) : f.word ∈ chain :=
  List.mem_map_of_mem hf

theorem word_mem_words {f : MatchField} (hf : f ∈ matchFields) : f.word ∈ words :=
  chain_mem_words (word_mem_chain hf)

theorem words_nodup : (matchFields.map MatchField.word).Nodup := by
  rw [words_eq_chain]
  decide

theorem find_field {f : MatchField} (hf : f ∈ matchFields) (h : f.word <+: t) :
    (matchFields.find? fun f' => strncmpEq t f'.name f'.len) = some f := by
  cases hfind : matchFields.find? fun f' => strncmpEq t f'.name f'.len with
  | none =>
    have hno := List.find?_eq_none.mp hfind f hf
    rw [(field_starts hf).mpr h] at hno
    exact absurd rfl hno
  | some f' =>
    have hf' := List.mem_of_find?_eq_some hfind
    have hs := List.find?_some hfind
    have hp : f'.word <+: t := (field_starts hf').mp hs
    have hword := word_unique (word_mem_words hf') (word_mem_words hf) hp h
    rw [List.inj_on_of_nodup_map words_nodup hf' hf hword]

theorem chain_not_keyword : ∀ n ∈ chain, "filter".toList ≠ n ∧ "add".toList ≠ n ∧
    "del".toList ≠ n ∧ "dump".toList ≠ n ∧ "dev".toList ≠ n ∧ "tbl".toList ≠ n ∧
    "action".toList ≠ n := by decide

theorem matchOption_field {f : MatchField} (hf : f ∈ matchFields) (h : f.word <+: t) :
    matchOption devCnt t s =
      if s.flowCmd.isNone then .error .out else (matchField f t s).map some := by
  obtain ⟨n₁, n₂, n₃, n₄, n₅, n₆, -⟩ := chain_not_keyword f.word (word_mem_chain hf)
  obtain ⟨h₁, h₂, h₃, h₄, h₅, h₆, -⟩ := keywords_word (word_mem_words hf) h
  rw [decide_eq_false n₁] at h₁
  rw [decide_eq_false n₂] at h₂
  rw [decide_eq_false n₃] at h₃
  rw [decide_eq_false n₄] at h₄
  rw [decide_eq_false n₅] at h₅
  rw [decide_eq_false n₆] at h₆
  rw [matchOption, h₁, h₂, h₃, h₄, h₅, h₆, find_field hf h]
  rfl

theorem find_none {t : CString} (h : ¬ IsMatch chain t) :
    (matchFields.find? fun f => strncmpEq t f.name f.len) = none := by
  rw [List.find?_eq_none]
  intro f hf hs
  exact h ⟨f.word, word_mem_chain hf, (field_starts hf).mp hs⟩

theorem matchOption_marker (h : "action".toList <+: t) :
    matchOption devCnt t s = if s.flowCmd.isNone then .error .out else .ok none := by
  have hm := not_isMatch (by decide) (by decide) h
  obtain ⟨h₁, h₂, h₃, h₄, h₅, h₆, h₇⟩ := keywords_word (by decide) h
  rw [matchOption, h₁, h₂, h₃, h₄, h₅, h₆, h₇, find_none hm]
  rfl

theorem matchOption_unknown (h : ∀ w ∈ words, ¬ w <+: t) :
    matchOption devCnt t s = .error .out := by
  have hno {w : CString} (hw : w ∈ words) : strncmpEq t w w.length = false := by
    rw [Bool.eq_false_iff, ne_eq, strncmpEq_iff_starts]
    exact h w hw
  have hm : ¬ IsMatch chain t := by
    rintro ⟨n, hn, hp⟩
    exact h n (chain_mem_words hn) hp
  have h₁ : strncmpEq t "filter".toList 6 = false := hno (w := "filter".toList) (by decide)
  have h₂ : strncmpEq t "add".toList 3 = false := hno (w := "add".toList) (by decide)
  have h₃ : strncmpEq t "del".toList 3 = false := hno (w := "del".toList) (by decide)
  have h₄ : strncmpEq t "dump".toList 4 = false := hno (w := "dump".toList) (by decide)
  have h₅ : strncmpEq t "dev".toList 3 = false := hno (w := "dev".toList) (by decide)
  have h₆ : strncmpEq t "tbl".toList 3 = false := hno (w := "tbl".toList) (by decide)
  have h₇ : strncmpEq t "action".toList 6 = false := hno (w := "action".toList) (by decide)
  rw [matchOption, h₁, h₂, h₃, h₄, h₅, h₆, h₇, find_none hm]
  simp

theorem place_field {k : Nat} {f : MatchField} (hk : matchFields[k]? = some f) (h : f.word <+: t) :
    place chain t = some k := by
  have hc : chain[k]? = some f.word := by
    rw [← words_eq_chain, List.getElem?_map, hk]
    rfl
  obtain ⟨hlt, hget⟩ := List.getElem?_eq_some_iff.mp hc
  rw [place, List.findIdx?_eq_some_iff_getElem]
  refine ⟨hlt, by rw [hget]; exact List.isPrefixOf_iff_prefix.mpr h, ?_⟩
  intro j hj hp
  have hjm : chain[j] ∈ words := chain_mem_words (List.getElem_mem _)
  have hkm := word_mem_words (List.mem_of_getElem? hk)
  have heq := word_unique hjm hkm (List.isPrefixOf_iff_prefix.mp hp) h
  have hnodup : chain.Nodup := by decide
  rw [← hget] at heq
  have hidx := (List.Nodup.getElem_inj_iff hnodup).mp heq
  omega

theorem place_none (h : ¬ IsMatch chain t) : place chain t = none := by
  rw [place, List.findIdx?_eq_none_iff]
  intro n hn
  rw [Bool.eq_false_iff, ne_eq, List.isPrefixOf_iff_prefix]
  exact fun hp => h ⟨n, hn, hp⟩

theorem exists_field (h : IsMatch chain t) :
    ∃ (k : Nat) (f : MatchField), matchFields[k]? = some f ∧ f.word <+: t := by
  obtain ⟨n, hn, hp⟩ := h
  rw [← words_eq_chain] at hn
  obtain ⟨f, hf, rfl⟩ := List.mem_map.mp hn
  obtain ⟨k, hk⟩ := List.getElem?_of_mem hf
  exact ⟨k, f, hk, hp⟩

def rqdOf : Option Nat → Nat
  | none => 0
  | some k => if k ≤ 8 then k + 1 else k + 2

/-- The value of `rqd_field` the given place of the chain asks for. -/
def requiredOf : Nat → Option Nat
  | 0 => none
  | j + 1 => some (rqdOf (some j))

theorem field_codes {k : Nat} {f : MatchField} (hk : matchFields[k]? = some f) :
    f.next = rqdOf (some k) ∧ f.required = requiredOf k := by
  have hlt : k < 11 := (List.getElem?_eq_some_iff.mp hk).1
  interval_cases k <;> cases hk <;> exact ⟨rfl, rfl⟩

theorem required_iff {k : Nat} {f : MatchField} (hk : matchFields[k]? = some f)
    (last : Option Nat) :
    f.required.any (· != rqdOf last) = false ↔ k = 0 ∨ ∃ j, last = some j ∧ k = j + 1 := by
  rw [(field_codes hk).2]
  cases k with
  | zero => simp [requiredOf]
  | succ i =>
    cases last with
    | none =>
      simp only [requiredOf, rqdOf, Option.any_some, bne_eq_false_iff_eq, reduceCtorEq,
        false_and, exists_false, or_false, Nat.add_eq_zero_iff, Nat.one_ne_zero, and_false,
        iff_false]
      split <;> omega
    | some j =>
      simp only [requiredOf, rqdOf, Option.any_some, bne_eq_false_iff_eq,
        Nat.add_eq_zero_iff, Nat.one_ne_zero, and_false, Option.some.injEq, exists_eq_left',
        false_or]
      split <;> split <;> omega

theorem parse_cases {f : MatchField} (hf : f ∈ matchFields) :
    f.parse = parseShort ∨ f.parse = parseHex ∨ f.parse = parseIp ∨
      (f.word = "dl-dst".toList ∧ f.parse = parseMac .out) ∨
      (f.word = "dl-src".toList ∧ f.parse = parseMac .nullAddr) := by
  simp only [matchFields, List.mem_cons, List.not_mem_nil, or_false] at hf
  obtain rfl | rfl | rfl | rfl | rfl | rfl | rfl | rfl | rfl | rfl | rfl := hf <;>
    simp [MatchField.word]

theorem parse_ok {f : MatchField} (hf : f ∈ matchFields) {text : CString} (val : Value)
    (hmac : f.word = "dl-dst".toList ∨ f.word = "dl-src".toList → (etherAton text).isSome) :
    ∃ v, f.parse text val = .ok v := by
  have hmac' (bad : Stop) (h : (etherAton text).isSome) : ∃ v, parseMac bad text val = .ok v := by
    obtain ⟨mac, hm⟩ := Option.isSome_iff_exists.mp h
    rw [parseMac, hm]
    exact ⟨_, rfl⟩
  obtain h | h | h | ⟨hn, h⟩ | ⟨hn, h⟩ := parse_cases hf
  · rw [h]
    exact ⟨_, rfl⟩
  · rw [h]
    exact ⟨_, rfl⟩
  · rw [h, parseIp]
    cases inetPton text with
    | none => exact ⟨_, rfl⟩
    | some ip => exact ⟨_, rfl⟩
  · rw [h]
    exact hmac' _ (hmac (Or.inl hn))
  · rw [h]
    exact hmac' _ (hmac (Or.inr hn))

theorem parse_error {f : MatchField} (hf : f ∈ matchFields) {text : CString} (val : Value)
    (hdst : f.word = "dl-dst".toList) (h : etherAton text = none) :
    f.parse text val = .error .out := by
  have hdl : ⟨"dl-dst".toList, 6, .dlDst, some 2, 3, parseMac .out⟩ ∈ matchFields := by
    simp [matchFields]
  rw [List.inj_on_of_nodup_map words_nodup hf hdl hdst]
  change parseMac .out text val = _
  rw [parseMac, h]

end LibSwitch.FilterWords

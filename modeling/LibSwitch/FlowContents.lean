import LibSwitch.FilterActions

namespace LibSwitch.FlowContents

open LibSwitch.PointerTable LibSwitch.ByteOrder LibSwitch.ByteBuffer LibSwitch.CText
open LibSwitch.ListRuns LibSwitch.Numeral LibSwitch.Address LibSwitch.Common
open LibSwitch.FlowTypes LibSwitch.FlowFilter LibSwitch.FilterWords LibSwitch.FilterGrammar
open LibSwitch.FilterRule LibSwitch.FilterSteps LibSwitch.FilterActions

/-- How many bytes of a value the branch of a field sets, given the text behind `=`. -/
def width (id : FlowTuple) (text : CString) : Nat :=
  match id with
  | .dlDst | .dlSrc => 6
  | .nw4Dst | .nw4Src => if (inetPton text).isSome then 4 else 0
  | _ => 2

/-- How many bytes of its value a match token sets. -/
def written (t : CString) : Nat :=
  match matchFields.find? fun f => strncmpEq t f.name f.len, optionValue t with
  | some f, some text => width f.id text
  | _, _ => 0

theorem put_zero_bytes (v : Value) {bs : List UInt8} (h : 0 + bs.length ≤ 16) :
    (put v 0 bs h).bytes = bs ++ v.bytes.drop bs.length := by
  simp [put]

theorem put_eq_iff {v w : Value} {bs : List UInt8} (h : 0 + bs.length ≤ 16) :
    put v 0 bs h = put w 0 bs h ↔ v.bytes.drop bs.length = w.bytes.drop bs.length := by
  rw [← (List.append_right_injective bs).eq_iff, ← put_zero_bytes v h, ← put_zero_bytes w h]
  exact ⟨congrArg Buffer.bytes, ByteBuffer.ext⟩

theorem storeShort_eq_iff {v w : Value} (n : Int) :
    storeShort n v = storeShort n w ↔ v.bytes.drop 2 = w.bytes.drop 2 := by
  have h := put_eq_iff (v := v) (w := w) (two_fits n)
  rwa [length_shortBytes] at h

theorem length_read_four (v : Value) : (ByteBuffer.read v 0 4).reverse.length = 4 := by
  rw [List.length_reverse, length_read v (by decide)]

theorem swapBytes_swapBytes (v : Value) : swapBytes (swapBytes v) = v := by
  have hbytes (w : Value) :
      (swapBytes w).bytes = (ByteBuffer.read w 0 4).reverse ++ w.bytes.drop 4 := by
    rw [swapBytes, put_zero_bytes, length_read_four]
  apply ByteBuffer.ext
  rw [hbytes (swapBytes v), read_swapBytes, List.reverse_reverse, hbytes v,
    List.drop_left' (length_read_four v)]
  exact List.take_append_drop 4 v.bytes

theorem swapBytes_eq_iff {v w : Value} : swapBytes v = swapBytes w ↔ v = w :=
  (Function.Involutive.injective swapBytes_swapBytes).eq_iff

theorem eq_iff_bytes {v w : Value} : v = w ↔ v.bytes = w.bytes :=
  ⟨congrArg Buffer.bytes, ByteBuffer.ext⟩

variable {text : CString} {v w v' w' : Value}

theorem parseMac_eq_iff {bad : Stop} (hv : parseMac bad text v = .ok v')
    (hw : parseMac bad text w = .ok w') : v' = w' ↔ v.bytes.drop 6 = w.bytes.drop 6 := by
  rw [parseMac] at hv hw
  cases hmac : etherAton text with
  | none =>
    rw [hmac] at hv
    cases hv
  | some mac =>
    rw [hmac] at hv hw
    cases hv
    cases hw
    have h := put_eq_iff (v := v) (w := w) (mac_fits mac)
    rwa [mac.length_eq] at h

theorem parseIp_eq_iff (hv : parseIp text v = .ok v') (hw : parseIp text w = .ok w') :
    v' = w' ↔ v.bytes.drop (if (inetPton text).isSome then 4 else 0) =
      w.bytes.drop (if (inetPton text).isSome then 4 else 0) := by
  rw [parseIp] at hv hw
  cases hip : inetPton text with
  | none =>
    rw [hip] at hv hw
    cases hv
    cases hw
    exact swapBytes_eq_iff.trans eq_iff_bytes
  | some ip =>
    rw [hip] at hv hw
    cases hv
    cases hw
    have h := put_eq_iff (v := v) (w := w) (ip_fits ip)
    rw [ip.length_eq] at h
    exact swapBytes_eq_iff.trans h

theorem parseShort_eq_iff (hv : parseShort text v = .ok v') (hw : parseShort text w = .ok w') :
    v' = w' ↔ v.bytes.drop 2 = w.bytes.drop 2 := by
  cases hv
  cases hw
  exact storeShort_eq_iff (atoi text)

theorem parseHex_eq_iff (hv : parseHex text v = .ok v') (hw : parseHex text w = .ok w') :
    v' = w' ↔ v.bytes.drop 2 = w.bytes.drop 2 := by
  cases hv
  cases hw
  exact storeShort_eq_iff (strtol 16 text)

/-- What a branch makes of two values is the same when they agree behind what it sets. -/
theorem parse_eq_iff {f : MatchField} (hf : f ∈ matchFields) (hv : f.parse text v = .ok v')
    (hw : f.parse text w = .ok w') :
    v' = w' ↔ v.bytes.drop (width f.id text) = w.bytes.drop (width f.id text) := by
  simp only [matchFields, List.mem_cons, List.not_mem_nil, or_false] at hf
  obtain rfl | rfl | rfl | rfl | rfl | rfl | rfl | rfl | rfl | rfl | rfl := hf
  · exact parseShort_eq_iff hv hw
  · exact parseShort_eq_iff hv hw
  · exact parseMac_eq_iff hv hw
  · exact parseMac_eq_iff hv hw
  · exact parseHex_eq_iff hv hw
  · exact parseIp_eq_iff hv hw
  · exact parseIp_eq_iff hv hw
  · exact parseShort_eq_iff hv hw
  · exact parseShort_eq_iff hv hw
  · exact parseShort_eq_iff hv hw
  · exact parseShort_eq_iff hv hw

theorem parseMac_any {bad : Stop} (hv : parseMac bad text v = .ok v') (w : Value) :
    ∃ w', parseMac bad text w = .ok w' := by
  rw [parseMac] at hv ⊢
  cases hmac : etherAton text with
  | none =>
    rw [hmac] at hv
    cases hv
  | some mac => exact ⟨_, rfl⟩

theorem parse_any {f : MatchField} (hf : f ∈ matchFields) (hv : f.parse text v = .ok v')
    (w : Value) : ∃ w', f.parse text w = .ok w' := by
  obtain h | h | h | ⟨-, h⟩ | ⟨-, h⟩ := parse_cases hf
  · rw [h]
    exact ⟨_, rfl⟩
  · rw [h]
    exact ⟨_, rfl⟩
  · rw [h, parseIp]
    cases inetPton text with
    | none => exact ⟨_, rfl⟩
    | some ip => exact ⟨_, rfl⟩
  · rw [h] at hv ⊢
    exact parseMac_any hv w
  · rw [h] at hv ⊢
    exact parseMac_any hv w

/-- A match token turns one tuple into another. -/
def Fills (t : CString) (old new : Tuple) : Prop :=
  ∃ f ∈ matchFields, f.word <+: t ∧ new.id = f.id ∧
    ∃ text, optionValue t = some text ∧ f.parse text old.value = .ok new.value

theorem fills_eq_iff {t : CString} {old new old' new' : Tuple} (h : Fills t old new)
    (h' : Fills t old' new') :
    new = new' ↔ old.value.bytes.drop (written t) = old'.value.bytes.drop (written t) := by
  obtain ⟨f, hf, hname, hid, text, htext, hparse⟩ := h
  obtain ⟨g, hg, hname', hid', text', htext', hparse'⟩ := h'
  have hfind := find_field hf hname
  have hfg : f = g := Option.some.inj (hfind.symm.trans (find_field hg hname'))
  subst hfg
  rw [htext] at htext'
  cases htext'
  have hwidth : written t = width f.id text := by rw [written, hfind, htext]
  rw [hwidth, ← parse_eq_iff hf hparse hparse']
  constructor
  · rintro rfl
    rfl
  · intro hval
    cases new
    cases new'
    cases hid.trans hid'.symm
    cases hval
    rfl

def isMatch (t : CString) : Bool := (place chain t).isSome

theorem isMatch_field {t : CString} {f : MatchField} (hf : f ∈ matchFields) (h : f.word <+: t) :
    isMatch t = true := by
  obtain ⟨k, hk⟩ := List.getElem?_of_mem hf
  rw [isMatch, place_field hk h]
  rfl

theorem isMatch_word {t a : CString} (ha : a ∈ words) (hc : a ∉ chain) (h : a <+: t) :
    isMatch t = false := by
  rw [isMatch, place_none (not_isMatch ha hc h)]
  rfl

variable {devCnt : Nat} {p ts : List CString} {t : CString} {s s' : Locals}

/-- After the given tokens, each match token has filled one tuple, and no other tuple has
changed. -/
structure TuplesFilled (tuples : Vector Tuple 25) (p : List CString) (s : Locals) : Prop where
  tupleCnt : s.tupleCnt = (p.filter isMatch).length
  fills : ∀ i t, (p.filter isMatch)[i]? = some t → ∃ h : i < 25, Fills t tuples[i] s.tuples[i]
  rest : ∀ i, ∀ h : i < 25, s.tupleCnt ≤ i → s.tuples[i] = tuples[i]

theorem TuplesFilled.skip {tuples : Vector Tuple 25} (hs : TuplesFilled tuples p s)
    (hm : isMatch t = false) (htuples : s'.tuples = s.tuples) (hcnt : s'.tupleCnt = s.tupleCnt) :
    TuplesFilled tuples (p ++ [t]) s' := by
  constructor
  · rw [filter_concat_neg hm, hcnt, hs.tupleCnt]
  · rw [filter_concat_neg hm, htuples]
    exact hs.fills
  · rw [htuples, hcnt]
    exact hs.rest

theorem TuplesFilled.field {tuples : Vector Tuple 25} (hs : TuplesFilled tuples p s)
    {f : MatchField}
    (hf : f ∈ matchFields) (h : f.word <+: t) (hcnt : s.tupleCnt < 25)
    (htext : optionValue t = some text)
    (hv : f.parse text s.tuples[s.tupleCnt].value = .ok v) :
    TuplesFilled tuples (p ++ [t]) (stored f v s hcnt) := by
  have hfilter := filter_concat_pos (p := p) (isMatch_field hf h)
  constructor
  · rw [hfilter, List.length_append, ← hs.tupleCnt]
    rfl
  · intro i u hu
    rw [hfilter] at hu
    obtain hi | rfl | hi := Nat.lt_trichotomy i s.tupleCnt
    · rw [List.getElem?_append_left (by rw [← hs.tupleCnt]; exact hi)] at hu
      obtain ⟨h25, hfill⟩ := hs.fills i u hu
      refine ⟨h25, ?_⟩
      rw [stored, Vector.getElem_set_ne hcnt h25 (by omega)]
      exact hfill
    · rw [hs.tupleCnt, List.getElem?_concat_length] at hu
      cases hu
      refine ⟨hcnt, f, hf, h, ?_, text, htext, ?_⟩
      · rw [stored, Vector.getElem_set_self]
      · rw [← hs.rest s.tupleCnt hcnt (Nat.le_refl _), hv, stored, Vector.getElem_set_self]
    · rw [List.getElem?_eq_none] at hu
      · cases hu
      · rw [List.length_append, List.length_singleton, ← hs.tupleCnt]
        exact hi
  · intro i h25 hi
    have hlt : s.tupleCnt < i := hi
    rw [stored, Vector.getElem_set_ne hcnt h25 (Nat.ne_of_lt hlt)]
    exact hs.rest i h25 (Nat.le_of_lt hlt)

theorem tuplesFilled_step {tuples : Vector Tuple 25} (h : MatchStep devCnt t s s')
    (hs : TuplesFilled tuples p s) : TuplesFilled tuples (p ++ [t]) s' := by
  cases h with
  | filter h => exact hs.skip (isMatch_word (by decide) (by decide) h) rfl rfl
  | command op h =>
    refine hs.skip ?_ rfl rfl
    cases op <;> exact isMatch_word (by decide) (by decide) h
  | dev _ h => exact hs.skip (isMatch_word (by decide) (by decide) h) rfl rfl
  | tbl _ h => exact hs.skip (isMatch_word (by decide) (by decide) h) rfl rfl
  | field _ f hf h _ hcnt text htext v hv => exact hs.field hf h hcnt htext hv

theorem tuplesFilled_matches {tuples : Vector Tuple 25} {actions : Vector Action 25}
    (h : Steps (MatchStep devCnt) ts (initialLocals tuples actions) s) :
    TuplesFilled tuples ts s := by
  have h0 : TuplesFilled tuples [] (initialLocals tuples actions) :=
    ⟨rfl, fun i t ht => by simp at ht, fun _ _ _ => rfl⟩
  exact h.track (TuplesFilled tuples) (fun _ _ _ _ => tuplesFilled_step) h0

theorem tuplesFilled_line {tuples : Vector Tuple 25} {actions : Vector Action 25}
    {as : List CString} (h : Steps (MatchStep devCnt) ts (initialLocals tuples actions) s)
    (ha : Steps ActionStep as s s') : TuplesFilled tuples ts s' := by
  obtain ⟨hcnt, hfills, hrest⟩ := tuplesFilled_matches h
  obtain ⟨-, -, -, htuples, htupleCnt⟩ := actionSteps_frame ha
  rw [← htuples] at hfills hrest
  rw [← htupleCnt] at hcnt hrest
  exact ⟨hcnt, hfills, hrest⟩

end LibSwitch.FlowContents

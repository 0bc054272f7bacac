import Mathlib.Data.List.Forall2
import LibSwitch.FilterWords

namespace LibSwitch.FilterRule

open LibSwitch.PointerTable LibSwitch.ByteOrder LibSwitch.ByteBuffer LibSwitch.CText
open LibSwitch.Numeral LibSwitch.Address LibSwitch.Common LibSwitch.FlowTypes
open LibSwitch.FlowFilter LibSwitch.FilterWords

variable {D : Type}

inductive Datum
  | num (n : Nat)
  | mac (m : Buffer 6)
  | ip (a : Buffer 4)

def beNat (bs : List UInt8) : Nat := bs.foldl (fun n b => n * 256 + b.toNat) 0

def Decodes (v : Value) : Datum → Prop
  | .num n => leNat (read v 0 2) = n
  | .mac m => read v 0 6 = m.bytes
  | .ip a => leNat (read v 0 4) = beNat a.bytes

structure Entry where
  name : CString
  id : FlowTuple
  text : CString
  datum : Datum

/-- The match chain: the name of each field and the tuple it stands for. -/
def chainFields : List (CString × FlowTuple) :=
  [("in-phy-port".toList, .inPhyPort), ("in-port".toList, .inPort), ("dl-dst".toList, .dlDst),
   ("dl-src".toList, .dlSrc), ("dl-type".toList, .dlType), ("nw-dst".toList, .nw4Dst),
   ("nw-src".toList, .nw4Src), ("nw-ecn".toList, .nwEcn), ("nw-proto".toList, .nwProto),
   ("tp-dst".toList, .tpDst), ("tp-src".toList, .tpSrc)]

/-- How the value of each field is written: addresses, a hexadecimal ethertype with or without
its prefix, and decimal numbers. -/
def Writes (e : Entry) : Prop :=
  match e.id with
  | .dlDst | .dlSrc => ∃ (ts : List CString) (m : Buffer 6), MacText ts m.bytes ∧
      e.text = join ':' ts ∧ e.datum = .mac m
  | .dlType => ∃ (n : Nat) (s : CString), n < 65536 ∧ Spells 16 s n ∧
      (e.text = s ∨ e.text = '0' :: 'x' :: s) ∧ e.datum = .num n
  | .nw4Dst | .nw4Src => ∃ a : Buffer 4, e.text = dottedText a ∧ e.datum = .ip a
  | _ => ∃ n : Nat, n < 65536 ∧ Spells 10 e.text n ∧ e.datum = .num n

structure Port where
  text : CString
  num : Nat

structure Rule where
  op : FlwOp
  devText : CString
  dev : Nat
  tblText : CString
  tbl : Nat
  fields : List Entry
  ports : List Port

structure Rule.WellWritten (r : Rule) (devCnt : Nat) : Prop where
  dev_spells : Spells 10 r.devText r.dev
  dev_lt : r.dev < devCnt
  tbl_spells : Spells 10 r.tblText r.tbl
  tbl_lt : r.tbl < 32768
  nonempty : r.fields ≠ []
  chained : (r.fields.map fun e => (e.name, e.id)) <+: chainFields
  writes : ∀ e ∈ r.fields, Writes e
  ports_le : r.ports.length ≤ 25
  ports : ∀ p ∈ r.ports, Spells 10 p.text p.num ∧ p.num < 65536

/-- A written rule may also match no field. -/
structure Rule.Written (r : Rule) (devCnt : Nat) : Prop where
  dev_spells : Spells 10 r.devText r.dev
  dev_lt : r.dev < devCnt
  tbl_spells : Spells 10 r.tblText r.tbl
  tbl_lt : r.tbl < 32768
  chained : (r.fields.map fun e => (e.name, e.id)) <+: chainFields
  writes : ∀ e ∈ r.fields, Writes e
  ports_le : r.ports.length ≤ 25
  ports : ∀ p ∈ r.ports, Spells 10 p.text p.num ∧ p.num < 65536

def opWord : FlwOp → CString
  | .add => "add".toList
  | .delete => "del".toList
  | .lookup => "dump".toList

def Entry.token (e : Entry) : CString := assign e.name e.text

def Port.token (p : Port) : CString := assign "out-port".toList p.text

def Rule.tokens (r : Rule) : List CString :=
  "filter".toList :: opWord r.op :: assign "dev".toList r.devText ::
    assign "tbl".toList r.tblText :: (r.fields.map Entry.token ++
      "action".toList :: r.ports.map Port.token)

def Rule.line (r : Rule) : CString := join ' ' r.tokens

theorem chainFields_eq : (matchFields.map fun f => (f.name, f.id)) = chainFields := rfl

theorem decodes_storeShort {n : Nat} (hn : n < 65536) (val : Value) :
    leNat (read (storeShort n val) 0 2) = n := by
  have hread := read_put_self val 0 (shortBytes n) (two_fits n)
  rw [length_shortBytes] at hread
  have hnat := leNat_shortBytes n
  rw [storeShort, hread]
  omega

theorem leNat_reverse (bs : List UInt8) : leNat bs.reverse = beNat bs := by
  induction bs using List.reverseRecOn with
  | nil => rfl
  | append_singleton bs b ih =>
    have hb : beNat (bs ++ [b]) = beNat bs * 256 + b.toNat := by
      rw [beNat, List.foldl_append]
      rfl
    rw [List.reverse_append, List.reverse_singleton, List.singleton_append, leNat, ih, hb]
    omega

theorem read_swapBytes (v : Value) : read (swapBytes v) 0 4 = (read v 0 4).reverse := by
  have hlen : (read v 0 4).reverse.length = 4 := by
    rw [List.length_reverse, length_read v (by decide)]
  have hread := read_put_self v 0 (read v 0 4).reverse (swap_fits v)
  rwa [hlen] at hread

theorem decodes_swapBytes (a : Buffer 4) (val : Value) :
    leNat (read (swapBytes (put val 0 a.bytes (ip_fits a))) 0 4) = beNat a.bytes := by
  have hip := read_put_self val 0 a.bytes (ip_fits a)
  rw [a.length_eq] at hip
  rw [read_swapBytes, hip, leNat_reverse]

theorem decodes_mac (m : Buffer 6) (val : Value) :
    read (put val 0 m.bytes (mac_fits m)) 0 6 = m.bytes := by
  have hread := read_put_self val 0 m.bytes (mac_fits m)
  rwa [m.length_eq] at hread

theorem parse_decodes {f : MatchField} (hf : f ∈ matchFields) {e : Entry} (hid : e.id = f.id)
    (hw : Writes e) (val : Value) : ∃ v, f.parse e.text val = .ok v ∧ Decodes v e.datum := by
  have hshort (h : ∃ n : Nat, n < 65536 ∧ Spells 10 e.text n ∧ e.datum = .num n) :
      ∃ v, parseShort e.text val = .ok v ∧ Decodes v e.datum := by
    obtain ⟨n, hn, hs, hd⟩ := h
    have ha := atoi_spells (SpellsInt.nonneg hs) (by omega) (by omega)
    rw [parseShort, ha, hd]
    exact ⟨_, rfl, decodes_storeShort hn val⟩
  have hmac (bad : Stop) (h : ∃ (ts : List CString) (m : Buffer 6), MacText ts m.bytes ∧
      e.text = join ':' ts ∧ e.datum = .mac m) :
      ∃ v, parseMac bad e.text val = .ok v ∧ Decodes v e.datum := by
    obtain ⟨ts, m, hm, ht, hd⟩ := h
    rw [parseMac, ht, etherAton_join hm, hd]
    exact ⟨_, rfl, decodes_mac m val⟩
  have hip (h : ∃ a : Buffer 4, e.text = dottedText a ∧ e.datum = .ip a) :
      ∃ v, parseIp e.text val = .ok v ∧ Decodes v e.datum := by
    obtain ⟨a, ht, hd⟩ := h
    rw [parseIp, ht, inetPton_dottedText, hd]
    exact ⟨_, rfl, decodes_swapBytes a val⟩
  have hhex (h : ∃ (n : Nat) (s : CString), n < 65536 ∧ Spells 16 s n ∧
      (e.text = s ∨ e.text = '0' :: 'x' :: s) ∧ e.datum = .num n) :
      ∃ v, parseHex e.text val = .ok v ∧ Decodes v e.datum := by
    obtain ⟨n, s, hn, hs, ht, hd⟩ := h
    have hread : strtol 16 e.text = n := by
      obtain ht | ht := ht
      · rw [ht, strtol_spells hs (by decide) (by omega)]
      · rw [ht, strtol_hexPrefix hs (by omega)]
    rw [parseHex, hread, hd]
    exact ⟨_, rfl, decodes_storeShort hn val⟩
  rw [Writes, hid] at hw
  simp only [matchFields, List.mem_cons, List.not_mem_nil, or_false] at hf
  obtain rfl | rfl | rfl | rfl | rfl | rfl | rfl | rfl | rfl | rfl | rfl := hf
  · exact hshort hw
  · exact hshort hw
  · exact hmac _ hw
  · exact hmac _ hw
  · exact hhex hw
  · exact hip hw
  · exact hip hw
  · exact hshort hw
  · exact hshort hw
  · exact hshort hw
  · exact hshort hw

variable {devCnt : Nat} {s : Locals}

def stored (f : MatchField) (v : Value) (s : Locals) (h : s.tupleCnt < 25) : Locals :=
  { s with
    rqdField := f.next
    tuples := s.tuples.set s.tupleCnt ⟨f.id, v⟩ h
    tupleCnt := s.tupleCnt + 1 }

theorem names_plain : ∀ n ∈ matchNames, '=' ∉ n ∧ ' ' ∉ n := by decide

theorem matchOption_entry (devCnt : Nat) {f : MatchField} (hf : f ∈ matchFields) {e : Entry}
    (hname : e.name = f.name) (hid : e.id = f.id) (hw : Writes e) (hcmd : s.flowCmd.isSome)
    (hreq : f.required.any (· != s.rqdField) = false) (hcnt : s.tupleCnt < 25) :
    ∃ v, matchOption devCnt e.token s = .ok (some (stored f v s hcnt)) ∧
      Decodes v e.datum := by
  obtain ⟨v, hparse, hdec⟩ := parse_decodes hf hid hw s.tuples[s.tupleCnt].value
  have hval : optionValue e.token = some e.text := by
    rw [Entry.token, hname]
    exact optionValue_append (names_plain f.name (name_mem_matchNames hf)).1 e.text
  have hfield : matchField f e.token s = .ok (stored f v s hcnt) := by
    rw [matchField, hreq, if_neg Bool.false_ne_true, dif_pos hcnt, hval]
    simp only [hparse]
    rfl
  refine ⟨v, ?_, hdec⟩
  have hpre : f.word <+: e.token := by
    rw [Entry.token, hname]
    exact (word_prefix_name f).trans (prefix_assign f.name e.text)
  rw [matchOption_field devCnt s hf hpre, if_commanded s hcmd, hfield]
  rfl

def Carries (e : Entry) (t : Tuple) : Prop := t.id = e.id ∧ Decodes t.value e.datum

def Forwards (p : Port) (a : Action) : Prop := a.id = .outPort ∧ leNat (read a.value 0 2) = p.num

theorem take_set {α : Type} {n k : Nat} (v : Vector α n) (x : α) (h : k < n) :
    (v.set k x h).toList.take (k + 1) = v.toList.take k ++ [x] := by
  have hk : k < v.toList.length := by rw [Vector.length_toList]; exact h
  rw [Vector.toList_set, List.take_add_one, List.take_set_of_le (Nat.le_refl k),
    List.getElem?_set_self hk, Option.toList_some]

theorem chained_cons {e : Entry} {es : List Entry} {k : Nat}
    (h : ((e :: es).map fun e => (e.name, e.id)) <+: chainFields.drop k) :
    (∃ f, matchFields[k]? = some f ∧ e.name = f.name ∧ e.id = f.id) ∧
      (es.map fun e => (e.name, e.id)) <+: chainFields.drop (k + 1) := by
  obtain ⟨l, hl, hes⟩ := List.cons_prefix_iff.mp h
  have hget : chainFields[k]? = some (e.name, e.id) := by
    rw [← List.head?_drop, hl]
    rfl
  rw [← chainFields_eq, List.getElem?_map, Option.map_eq_some_iff] at hget
  obtain ⟨f, hf, heq⟩ := hget
  refine ⟨⟨f, hf, (congrArg Prod.fst heq).symm, (congrArg Prod.snd heq).symm⟩, ?_⟩
  rw [← List.tail_drop, hl]
  exact hes

theorem matchLoop_fields (devCnt : Nat) {es : List Entry} (rest : List CString) {k : Nat}
    (last : Option Nat)
    (hchain : (es.map fun e => (e.name, e.id)) <+: chainFields.drop k)
    (hw : ∀ e ∈ es, Writes e) (hcmd : s.flowCmd.isSome) (hcnt : s.tupleCnt = k)
    (hreq : s.rqdField = rqdOf last) (hlast : k = 0 ∨ ∃ j, last = some j ∧ k = j + 1) :
    ∃ rqd tuples ts, matchLoop devCnt (es.map Entry.token ++ rest) s =
        matchLoop devCnt rest { s with
          rqdField := rqd, tuples := tuples, tupleCnt := k + es.length } ∧
      tuples.toList.take (k + es.length) = s.tuples.toList.take k ++ ts ∧
      List.Forall₂ Carries es ts := by
  induction es generalizing s k last with
  | nil =>
    subst hcnt
    exact ⟨s.rqdField, s.tuples, [], rfl, (List.append_nil _).symm, .nil⟩
  | cons e es ih =>
    obtain ⟨⟨f, hk, hname, hid⟩, hrest⟩ := chained_cons hchain
    have hf := List.mem_of_getElem? hk
    have hlt : k < 11 := (List.getElem?_eq_some_iff.mp hk).1
    have horder := (required_iff hk last).mpr hlast
    rw [← hreq] at horder
    have h25 : s.tupleCnt < 25 := by omega
    obtain ⟨v, hstep, hdec⟩ := matchOption_entry devCnt hf hname hid
      (hw e List.mem_cons_self) hcmd horder h25
    obtain ⟨rqd, tuples, ts, hrun, htake, hts⟩ := ih (s := stored f v s h25)
      (some k) hrest (fun e he => hw e (List.mem_cons_of_mem _ he)) hcmd
      (congrArg Nat.succ hcnt) (field_codes hk).1 (Or.inr ⟨k, rfl, rfl⟩)
    refine ⟨rqd, tuples, ⟨f.id, v⟩ :: ts, ?_, ?_, .cons ⟨hid.symm, hdec⟩ hts⟩
    · rw [List.map_cons, List.cons_append, matchLoop, hstep]
      simp only [hrun, List.length_cons, Nat.add_right_comm k 1, ← Nat.add_assoc]
      rfl
    · subst hcnt
      have hset := take_set s.tuples ⟨f.id, v⟩ h25
      rw [List.length_cons, Nat.add_comm es.length, ← Nat.add_assoc, htake, stored, hset,
        List.append_assoc, List.singleton_append]

def sent (a : Action) (s : Locals) (h : s.actionCnt < 25) : Locals :=
  { s with actions := s.actions.set s.actionCnt a h, actionCnt := s.actionCnt + 1 }

theorem actionOption_port {p : Port} (hp : Spells 10 p.text p.num ∧ p.num < 65536)
    (hcnt : s.actionCnt < 25) :
    ∃ a, actionOption p.token s = .ok (sent a s hcnt) ∧ Forwards p a := by
  have hval : optionValue p.token = some p.text := optionValue_append (by decide) p.text
  have hdrop : strncmpEq p.token "drop".toList 4 = false := rfl
  have hport : strncmpEq p.token "out-port".toList 8 = true := rfl
  have hnum := atoi_spells (SpellsInt.nonneg hp.1) (by omega) (by omega)
  rw [actionOption, hdrop, if_neg Bool.false_ne_true, hport, if_pos rfl, dif_pos hcnt, hval]
  simp only [hnum]
  exact ⟨_, rfl, rfl, decodes_storeShort hp.2 _⟩

theorem actionLoop_ports {ps : List Port}
    (hps : ∀ p ∈ ps, Spells 10 p.text p.num ∧ p.num < 65536) {k : Nat} (hcnt : s.actionCnt = k)
    (hfit : k + ps.length ≤ 25) :
    ∃ actions as, actionLoop (ps.map Port.token) s =
        .ok { s with actions := actions, actionCnt := k + ps.length } ∧
      actions.toList.take (k + ps.length) = s.actions.toList.take k ++ as ∧
      List.Forall₂ Forwards ps as := by
  induction ps generalizing s k with
  | nil =>
    subst hcnt
    exact ⟨s.actions, [], rfl, (List.append_nil _).symm, .nil⟩
  | cons p ps ih =>
    subst hcnt
    rw [List.length_cons] at hfit
    have h25 : s.actionCnt < 25 := by omega
    obtain ⟨a, hstep, ha⟩ := actionOption_port (hps p List.mem_cons_self) h25
    have hfit' : s.actionCnt + 1 + ps.length ≤ 25 := by omega
    obtain ⟨actions, as, hrun, htake, has⟩ := ih (s := sent a s h25) (k := s.actionCnt + 1)
      (fun p hp => hps p (List.mem_cons_of_mem _ hp)) rfl hfit'
    refine ⟨actions, a :: as, ?_, ?_, .cons ha has⟩
    · rw [List.map_cons, actionLoop, hstep]
      simp only [hrun, List.length_cons, Nat.add_right_comm s.actionCnt 1, ← Nat.add_assoc]
      rfl
    · rw [List.length_cons, Nat.add_comm ps.length, ← Nat.add_assoc, htake, sent, take_set,
        List.append_assoc, List.singleton_append]

theorem Writes.noSpace {e : Entry} (h : Writes e) : ' ' ∉ e.text := by
  rw [Writes] at h
  split at h
  · obtain ⟨ts, m, hm, ht, -⟩ := h
    rw [ht]
    exact notMem_join (by decide) hm.noSpace
  · obtain ⟨ts, m, hm, ht, -⟩ := h
    rw [ht]
    exact notMem_join (by decide) hm.noSpace
  · obtain ⟨n, t, -, hs, ht | ht, -⟩ := h
    · rw [ht]
      exact hs.noSpace
    · rw [ht, List.mem_cons, List.mem_cons, not_or, not_or]
      exact ⟨by decide, by decide, hs.noSpace⟩
  · obtain ⟨a, ht, -⟩ := h
    rw [ht]
    exact dottedText_noSpace a
  · obtain ⟨a, ht, -⟩ := h
    rw [ht]
    exact dottedText_noSpace a
  · obtain ⟨n, -, hs, -⟩ := h
    exact hs.noSpace

theorem matchOption_opWord {t : CString} {op : FlwOp} (h : opWord op <+: t) :
    matchOption devCnt t s = .ok (some { s with flowCmd := some op }) := by
  cases op with
  | add =>
    obtain ⟨h₁, h₂, -⟩ := keywords_word (by decide) h
    rw [matchOption, h₁, h₂]
    rfl
  | delete =>
    obtain ⟨h₁, h₂, h₃, -⟩ := keywords_word (by decide) h
    rw [matchOption, h₁, h₂, h₃]
    rfl
  | lookup =>
    obtain ⟨h₁, h₂, h₃, h₄, -⟩ := keywords_word (by decide) h
    rw [matchOption, h₁, h₂, h₃, h₄]
    rfl

theorem matchOption_devText {text : CString} {d : Nat} (hd : Spells 10 text d)
    (hlt : d < devCnt) (hc : devCnt ≤ maxObjects) (hcmd : s.flowCmd.isNone = false) :
    matchOption devCnt (assign "dev".toList text) s = .ok (some { s with devId := d }) := by
  have hcap : devCnt ≤ 256 := hc
  have hval := optionShort_assign (show '=' ∉ "dev".toList by decide) (.nonneg hd)
    (by omega) (by omega)
  have hreg : ¬ ((devCnt : Int) < d ∨ (d : Int) < 0) := by omega
  rw [matchOption_dev devCnt s (prefix_assign _ _), hcmd, if_neg Bool.false_ne_true,
    devOption, hval]
  simp only [if_neg hreg]
  rfl

theorem matchOption_tblText (devCnt : Nat) {text : CString} {n : Nat} (hn : Spells 10 text n)
    (hlt : n < 32768) (hcmd : s.flowCmd.isNone = false) :
    matchOption devCnt (assign "tbl".toList text) s = .ok (some { s with tblId := n }) := by
  have hval := optionShort_assign (show '=' ∉ "tbl".toList by decide) (.nonneg hn)
    (by omega) (by omega)
  have h0 : ¬ (n : Int) < 0 := by omega
  rw [matchOption_tbl devCnt s (prefix_assign _ _), hcmd, if_neg Bool.false_ne_true,
    tblOption, hval]
  simp only [if_neg h0]
  rfl

theorem tokens_line {r : Rule} (h : r.Written devCnt) : tokens ' ' r.line = r.tokens := by
  apply tokens_join (List.cons_ne_nil _ _)
  have hop : ∀ op, ' ' ∉ opWord op := by
    intro op
    cases op <;> decide
  have hdev : ' ' ∉ assign "dev".toList r.devText :=
    notMem_assign (by decide) (by decide) h.dev_spells.noSpace
  have htbl : ' ' ∉ assign "tbl".toList r.tblText :=
    notMem_assign (by decide) (by decide) h.tbl_spells.noSpace
  have hfields : ∀ t ∈ r.fields.map Entry.token, ' ' ∉ t := by
    intro t ht
    obtain ⟨e, he, rfl⟩ := List.mem_map.mp ht
    have hmem : (e.name, e.id) ∈ chainFields :=
      h.chained.subset (List.mem_map_of_mem he)
    rw [← chainFields_eq] at hmem
    obtain ⟨f, hf, heq⟩ := List.mem_map.mp hmem
    have hplain := (names_plain f.name (name_mem_matchNames hf)).2
    have hname : f.name = e.name := congrArg Prod.fst heq
    rw [hname] at hplain
    exact notMem_assign hplain (by decide) (h.writes e he).noSpace
  have hports : ∀ t ∈ r.ports.map Port.token, ' ' ∉ t := by
    intro t ht
    obtain ⟨p, hp, rfl⟩ := List.mem_map.mp ht
    exact notMem_assign (by decide) (by decide) (h.ports p hp).1.noSpace
  simp only [List.forall_mem_cons, List.forall_mem_append]
  exact ⟨by decide, hop r.op, hdev, htbl, hfields, by decide, hports⟩

theorem matchLoop_rule {r : Rule} (h : r.Written devCnt) (hc : devCnt ≤ maxObjects)
    (tuples : Vector Tuple 25) (actions : Vector Action 25) :
    ∃ rqd tuples', matchLoop devCnt r.tokens (initialLocals tuples actions) =
        .ok (⟨rqd, tuples', actions, r.fields.length, 0, r.dev, r.tbl, some r.op⟩,
          r.ports.map Port.token) ∧
      List.Forall₂ Carries r.fields (tuples'.toList.take r.fields.length) := by
  obtain ⟨rqd, tuples', ts, hrun, htake, hts⟩ := matchLoop_fields devCnt
    (s := ⟨0, tuples, actions, 0, 0, r.dev, r.tbl, some r.op⟩)
    ("action".toList :: r.ports.map Port.token) none h.chained h.writes rfl rfl rfl (Or.inl rfl)
  rw [Nat.zero_add] at hrun htake
  have hstored : tuples'.toList.take r.fields.length = ts := htake
  rw [← hstored] at hts
  refine ⟨rqd, tuples', ?_, hts⟩
  have hdev := matchOption_devText (s := { initialLocals tuples actions with flowCmd := some r.op })
    h.dev_spells h.dev_lt hc rfl
  have htbl := matchOption_tblText devCnt
    (s := { initialLocals tuples actions with flowCmd := some r.op, devId := r.dev })
    h.tbl_spells h.tbl_lt rfl
  have hmarker := matchOption_marker devCnt
    ⟨rqd, tuples', actions, r.fields.length, 0, r.dev, r.tbl, some r.op⟩
    (List.prefix_refl "action".toList)
  rw [Rule.tokens, matchLoop, matchOption_filter devCnt _ (List.prefix_refl _)]
  simp only [matchLoop, matchOption_opWord (List.prefix_refl _), hdev, htbl]
  apply hrun.trans
  rw [matchLoop, hmarker]
  rfl

/-- A written rule is delivered with the fields and ports it writes. -/
theorem rule_delivered {flwDevs : Table D} (hf : Filled maxObjects flwDevs) {r : Rule}
    (h : r.Written flwDevs.cnt) (tuples : Vector Tuple 25) (actions : Vector Action 25) :
    ∃ d flow, deref maxObjects flwDevs r.dev = some d ∧
      fibCmdFilter flwDevs tuples actions r.line = .calls d ⟨r.op, r.dev, r.tbl, some flow⟩ ∧
      List.Forall₂ Carries r.fields flow.countedTuples ∧
      List.Forall₂ Forwards r.ports flow.countedActions := by
  obtain ⟨rqd, tuples', hmatch, htuples⟩ := matchLoop_rule h hf.cnt_le tuples actions
  obtain ⟨actions', as, hrun, hactions, has⟩ := actionLoop_ports h.ports
    (s := ⟨rqd, tuples', actions, r.fields.length, 0, r.dev, r.tbl, some r.op⟩) rfl
    (by rw [Nat.zero_add]; exact h.ports_le)
  rw [Nat.zero_add] at hrun hactions
  have hlt := h.dev_lt
  obtain ⟨d, hd⟩ := Option.isSome_iff_exists.mp ((hf.deref_isSome r.dev).mpr (by omega))
  refine ⟨d, ⟨tuples', actions', r.fields.length, r.ports.length⟩, hd, ?_, htuples, ?_⟩
  · rw [fibCmdFilter, filterLoops, tokens_line h, hmatch]
    simp only [hrun, deviceCall, hd]
    rfl
  · rw [Flow.countedActions, hactions]
    exact has

/-- A written rule reaches the operation of its device with the fields and ports written. -/
theorem rule_roundTrip {flwDevs : Table D} (hf : Filled maxObjects flwDevs) {r : Rule}
    (h : r.WellWritten flwDevs.cnt) (tuples : Vector Tuple 25) (actions : Vector Action 25) :
    ∃ d flow, deref maxObjects flwDevs r.dev = some d ∧
      fibCmdFilter flwDevs tuples actions r.line = .calls d ⟨r.op, r.dev, r.tbl, some flow⟩ ∧
      List.Forall₂ Carries r.fields flow.countedTuples ∧
      List.Forall₂ Forwards r.ports flow.countedActions :=
  rule_delivered hf { h with } tuples actions

/-- The first line of the sample file. -/
def sampleRule : Rule where
  op := .add
  devText := "0".toList
  dev := 0
  tblText := "0".toList
  tbl := 0
  fields :=
    [⟨"in-phy-port".toList, .inPhyPort, "0".toList, .num 0⟩,
     ⟨"in-port".toList, .inPort, "0".toList, .num 0⟩,
     ⟨"dl-dst".toList, .dlDst, "6d:59:8b:bf:42:0c".toList,
       .mac ⟨[0x6d, 0x59, 0x8b, 0xbf, 0x42, 0x0c], rfl⟩⟩,
     ⟨"dl-src".toList, .dlSrc, "00:00:cd:8d:8a:92".toList,
       .mac ⟨[0x00, 0x00, 0xcd, 0x8d, 0x8a, 0x92], rfl⟩⟩,
     ⟨"dl-type".toList, .dlType, "0x800".toList, .num 0x800⟩,
     ⟨"nw-dst".toList, .nw4Dst, "12.16.126.217".toList, .ip ⟨[12, 16, 126, 217], rfl⟩⟩,
     ⟨"nw-src".toList, .nw4Src, "70.42.65.111".toList, .ip ⟨[70, 42, 65, 111], rfl⟩⟩,
     ⟨"nw-ecn".toList, .nwEcn, "199".toList, .num 199⟩,
     ⟨"nw-proto".toList, .nwProto, "6".toList, .num 6⟩,
     ⟨"tp-dst".toList, .tpDst, "63784".toList, .num 63784⟩,
     ⟨"tp-src".toList, .tpSrc, "49272".toList, .num 49272⟩]
  ports := [⟨"0".toList, 0⟩]

theorem macText_pair {s : CString} {b : UInt8} {ts : List CString} {bs : List UInt8}
    (hs : value 16 0 s = some b.toNat) (hlen : s.length = 2) (h : MacText ts bs) :
    MacText (s :: ts) (b :: bs) := by
  refine .cons ⟨⟨?_, hs⟩, Nat.le_of_eq hlen⟩ h
  rintro rfl
  cases hlen

theorem sampleRule_wellWritten : sampleRule.WellWritten 1 where
  dev_spells := ⟨by decide, rfl⟩
  dev_lt := Nat.one_pos
  tbl_spells := ⟨by decide, rfl⟩
  tbl_lt := by decide
  nonempty := List.cons_ne_nil _ _
  chained := by decide
  writes := by
    have hdst : MacText ["6d".toList, "59".toList, "8b".toList, "bf".toList, "42".toList,
        "0c".toList] [0x6d, 0x59, 0x8b, 0xbf, 0x42, 0x0c] := by
      iterate 6 apply macText_pair rfl rfl
      exact .nil
    have hsrc : MacText ["00".toList, "00".toList, "cd".toList, "8d".toList, "8a".toList,
        "92".toList] [0x00, 0x00, 0xcd, 0x8d, 0x8a, 0x92] := by
      iterate 6 apply macText_pair rfl rfl
      exact .nil
    simp only [sampleRule, List.forall_mem_cons]
    refine ⟨⟨0, by decide, ⟨by decide, rfl⟩, rfl⟩, ⟨0, by decide, ⟨by decide, rfl⟩, rfl⟩,
      ⟨_, _, hdst, by decide, rfl⟩, ⟨_, _, hsrc, by decide, rfl⟩,
      ⟨0x800, "800".toList, by decide, ⟨by decide, rfl⟩, Or.inr (by decide), rfl⟩,
      ⟨_, by decide, rfl⟩, ⟨_, by decide, rfl⟩,
      ⟨199, by decide, ⟨by decide, rfl⟩, rfl⟩, ⟨6, by decide, ⟨by decide, rfl⟩, rfl⟩,
      ⟨63784, by decide, ⟨by decide, rfl⟩, rfl⟩, ⟨49272, by decide, ⟨by decide, rfl⟩, rfl⟩,
      List.forall_mem_nil _⟩
  ports_le := by decide
  ports := by
    simp only [sampleRule, List.forall_mem_cons]
    exact ⟨⟨⟨by decide, rfl⟩, by decide⟩, List.forall_mem_nil _⟩

theorem sampleRule_roundTrip :
    ∃ d flow, deref maxObjects (ofList [()]) 0 = some d ∧
      fibCmdFilter (ofList [()]) (Vector.replicate 25 ⟨.inPort, zeros 16⟩)
        (Vector.replicate 25 ⟨.drop, zeros 16⟩) sampleRule.line = .calls d ⟨.add, 0, 0, some flow⟩ ∧
      List.Forall₂ Carries sampleRule.fields flow.countedTuples ∧
      List.Forall₂ Forwards sampleRule.ports flow.countedActions :=
  rule_roundTrip (filled_ofList (show [()].length ≤ 256 by decide)) sampleRule_wellWritten
    (Vector.replicate 25 ⟨.inPort, zeros 16⟩) (Vector.replicate 25 ⟨.drop, zeros 16⟩)

end LibSwitch.FilterRule

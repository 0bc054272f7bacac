import LibSwitch.FlowDump

namespace LibSwitch.DumpedRules

open LibSwitch.PointerTable LibSwitch.ByteOrder LibSwitch.ByteBuffer LibSwitch.CText
open LibSwitch.Numeral LibSwitch.Address LibSwitch.Common LibSwitch.FlowTypes
open LibSwitch.FlowFilter LibSwitch.FilterWords LibSwitch.FilterRule LibSwitch.FlowDump

variable {D : Type}

def tupleEnumerators : List CString :=
  ["in_port".toList, "in_phy_port".toList, "dl_src".toList, "dl_dst".toList, "dl_type".toList,
   "dl_vlan_pcp".toList, "nw4_src".toList, "nw4_dst".toList, "nw6_src".toList, "nw6_dst".toList,
   "nw_proto".toList, "nw_ecn".toList, "nw_tos".toList, "tp_src".toList, "tp_dst".toList,
   "udp_src".toList, "udp_dst".toList, "ipv6_label".toList, "mpls_label".toList,
   "ipv6_ext_hdr".toList, "icmp4_code".toList, "icmp6_code".toList, "icmp6_tll".toList,
   "icmp6_sll".toList, "ip6_nd_target".toList, "arp_op".toList, "arp_spa".toList,
   "arp_sha".toList, "arp_tpa".toList, "arp_tha".toList]

def actionEnumerators : List CString :=
  ["fwd_queue".toList, "drop".toList, "out_port".toList, "push_vlan_id".toList,
   "pop_vlan_id".toList, "set_vlan_id".toList, "set_vlan_priority".toList, "push_mpls".toList,
   "pop_mpls".toList, "set_dl_src".toList, "set_dl_dst".toList, "set_ip_src".toList,
   "set_ip_dst".toList, "set_tcp_src".toList, "set_tcp_dst".toList, "set_dscp".toList,
   "set_ecn".toList, "set_ip_ttl".toList, "dec_ip_ttl".toList, "set_ip_flabel".toList,
   "set_extended_header".toList, "set_mpls".toList, "set_mpls_traffic".toList,
   "set_mpls_ttl".toList, "set_mpls_header".toList, "dec_mpls_ttl".toList,
   "copy_in_ttl".toList, "copy_out_ttl".toList, "set_bottom_stack".toList,
   "set_icmp_code".toList, "set_icmp_type".toList, "set_icmp_nd".toList, "set_nd_sll".toList,
   "meter".toList, "set_sha".toList, "set_spa".toList, "set_tha".toList, "set_tpa".toList,
   "set_arp_op".toList]

def tupleEnumerator (id : FlowTuple) : CString := tupleEnumerators.getD id.ctorIdx []

def actionEnumerator (id : FlowAction) : CString := actionEnumerators.getD id.ctorIdx []

/-- One field of `enum flow_tuple` is named differently in the table of names. -/
theorem tupleName_iff (id : FlowTuple) :
    tupleName[id.ctorIdx]? = some (tupleEnumerator id) ↔ id ≠ .ipv6ExtHdr := by
  cases id <;> decide

/-- How the value of a field is shown: numbers in decimal, the ethertype in hexadecimal, and
addresses octet by octet in the order written. -/
def datumText : FlowTuple → Datum → CString
  | .dlType, .num n => hex n
  | _, .num n => dec n
  | _, .mac m => macText m.bytes ++ [' ']
  | _, .ip a => ipText a.bytes

def fieldLine (e : Entry) : CString :=
  tupleHead e.id (tupleEnumerator e.id) ++ datumText e.id e.datum

def portLine (p : Port) : CString :=
  actionHead .outPort (actionEnumerator .outPort) ++ dec p.num

/-- The dump that shows each field and action of a rule under its own name with its value. -/
def shown (r : Rule) : CString :=
  dumpHeader r.dev r.tbl ++ unlines (r.fields.map fieldLine ++ r.ports.map portLine) ++
    dumpFooter r.tbl

/-- The value the dump has for a field: an address in reverse. -/
def dumpedDatum : Datum → Datum
  | .num n => .num n
  | .mac m => .mac m
  | .ip a => .ip ⟨a.bytes.reverse, by rw [List.length_reverse, a.length_eq]⟩

def dumpedField (e : Entry) : CString := fieldLine { e with datum := dumpedDatum e.datum }

/-- The line the dump has for a port: under another name, and its low byte. -/
def dumpedPort (p : Port) : CString :=
  actionHead .outPort "enqueue_queue".toList ++ dec (p.num % 256)

theorem leNat_inj {bs cs : List UInt8} (hlen : bs.length = cs.length)
    (h : leNat bs = leNat cs) : bs = cs := by
  induction bs generalizing cs with
  | nil => exact (List.length_eq_zero_iff.mp hlen.symm).symm
  | cons b bs ih =>
    cases cs with
    | nil => cases hlen
    | cons c cs =>
      have hb := b.toNat_lt
      have hc := c.toNat_lt
      rw [leNat, leNat] at h
      have hhead : b = c := UInt8.toNat_inj.mp (by omega)
      rw [hhead, ih (Nat.succ.inj hlen) (by omega)]

theorem leNat_low (v : Value) : leNat (read v 0 1) = leNat (read v 0 2) % 256 := by
  obtain ⟨bytes, hlen⟩ := v
  match bytes, hlen with
  | b :: c :: bs, _ =>
    have hb := b.toNat_lt
    simp only [ByteBuffer.read, List.drop_zero, List.take_succ_cons, List.take_zero, leNat]
    omega

theorem ipText_eq_iff {a b : Buffer 4} : ipText a.bytes = ipText b.bytes ↔ a = b := by
  constructor
  · intro h
    have hparse : inetPton (dottedText a) = inetPton (dottedText b) := congrArg inetPton h
    rw [inetPton_dottedText, inetPton_dottedText] at hparse
    exact Option.some.inj hparse
  · rintro rfl
    rfl

section
variable {e : Entry} {v : Value}

theorem read_num (hv : Decodes v e.datum) {n : Nat} (hd : e.datum = .num n) :
    leNat (read v 0 2) = n := by
  rw [hd] at hv
  exact hv

theorem read_mac (hv : Decodes v e.datum) {m : Buffer 6} (hd : e.datum = .mac m) :
    read v 0 6 = m.bytes := by
  rw [hd] at hv
  exact hv

theorem read_ip (hv : Decodes v e.datum) {a : Buffer 4} (hd : e.datum = .ip a) :
    read v 0 4 = a.bytes.reverse := by
  rw [hd] at hv
  apply leNat_inj
  · rw [length_read v (by decide), List.length_reverse, a.length_eq]
  · rw [leNat_reverse]
    exact hv

theorem valueText_stored (hid : (e.name, e.id) ∈ chainFields) (hw : Writes e)
    (hv : Decodes v e.datum) :
    valueText e.id v = datumText e.id (dumpedDatum e.datum) ++ ['\n'] := by
  have hdec {id : FlowTuple}
      (hval : ∀ v, valueText id v = dec (leNat (read v 0 2)) ++ ['\n'])
      (htext : ∀ n, datumText id (.num n) = dec n)
      (h : ∃ n : Nat, n < 65536 ∧ Spells 10 e.text n ∧ e.datum = .num n) :
      valueText id v = datumText id (dumpedDatum e.datum) ++ ['\n'] := by
    obtain ⟨n, -, -, hd⟩ := h
    rw [hval, read_num hv hd, hd, dumpedDatum, htext]
  have hmac {id : FlowTuple}
      (hval : ∀ v, valueText id v = macText (read v 0 6) ++ " \n".toList)
      (htext : ∀ m, datumText id (.mac m) = macText m.bytes ++ [' '])
      (h : ∃ (ts : List CString) (m : Buffer 6), MacText ts m.bytes ∧
        e.text = join ':' ts ∧ e.datum = .mac m) :
      valueText id v = datumText id (dumpedDatum e.datum) ++ ['\n'] := by
    obtain ⟨ts, m, -, -, hd⟩ := h
    rw [hval, read_mac hv hd, hd, dumpedDatum, htext, List.append_assoc]
    rfl
  have hip {id : FlowTuple}
      (hval : ∀ v, valueText id v = ipText (read v 0 4) ++ ['\n'])
      (htext : ∀ a, datumText id (.ip a) = ipText a.bytes)
      (h : ∃ a : Buffer 4, e.text = dottedText a ∧ e.datum = .ip a) :
      valueText id v = datumText id (dumpedDatum e.datum) ++ ['\n'] := by
    obtain ⟨a, -, hd⟩ := h
    rw [hval, read_ip hv hd, hd, dumpedDatum, htext]
  simp only [chainFields, List.mem_cons, Prod.mk.injEq, List.not_mem_nil, or_false] at hid
  obtain ⟨-, hid⟩ | ⟨-, hid⟩ | ⟨-, hid⟩ | ⟨-, hid⟩ | ⟨-, hid⟩ | ⟨-, hid⟩ | ⟨-, hid⟩ | ⟨-, hid⟩ |
    ⟨-, hid⟩ | ⟨-, hid⟩ | ⟨-, hid⟩ := hid
  all_goals rw [Writes, hid] at hw; rw [hid]
  · exact hdec (fun _ => rfl) (fun _ => rfl) hw
  · exact hdec (fun _ => rfl) (fun _ => rfl) hw
  · exact hmac (fun _ => rfl) (fun _ => rfl) hw
  · exact hmac (fun _ => rfl) (fun _ => rfl) hw
  · obtain ⟨n, s, -, -, -, hd⟩ := hw
    rw [valueText, read_num hv hd, hd]
    rfl
  · exact hip (fun _ => rfl) (fun _ => rfl) hw
  · exact hip (fun _ => rfl) (fun _ => rfl) hw
  · exact hdec (fun _ => rfl) (fun _ => rfl) hw
  · exact hdec (fun _ => rfl) (fun _ => rfl) hw
  · exact hdec (fun _ => rfl) (fun _ => rfl) hw
  · exact hdec (fun _ => rfl) (fun _ => rfl) hw

end

theorem chain_tupleName {e : Entry} (hid : (e.name, e.id) ∈ chainFields) :
    tupleName[e.id.ctorIdx]? = some (tupleEnumerator e.id) := by
  rw [tupleName_iff]
  intro h
  rw [h] at hid
  simp [chainFields] at hid

theorem tupleText_stored {e : Entry} {t : Tuple} (hid : (e.name, e.id) ∈ chainFields)
    (hw : Writes e) (h : Carries e t) : tupleText t = some (dumpedField e ++ ['\n']) := by
  obtain ⟨htid, hdec⟩ := h
  rw [tupleText, htid, chain_tupleName hid, Option.map_some, valueText_stored hid hw hdec,
    ← List.append_assoc]
  rfl

theorem actionText_stored {p : Port} {a : Action} (h : Forwards p a) :
    actionText a = some (dumpedPort p ++ ['\n']) := by
  obtain ⟨hid, hnum⟩ := h
  rw [actionText, hid, leNat_low, hnum]
  rfl

theorem mapM_eq_some {A : Type} {f : A → Option CString} {ls : List CString} {as : List A}
    (h : List.Forall₂ (fun l a => f a = some (l ++ ['\n'])) ls as) :
    as.mapM f = some (ls.map fun l => l ++ ['\n']) := by
  induction h with
  | nil => rfl
  | cons hl _ ih =>
    rw [List.mapM_cons, hl, ih]
    rfl

theorem dumpFlow_rule {r : Rule} {devCnt : Nat} (h : r.Written devCnt) {flow : Flow}
    (hf : List.Forall₂ Carries r.fields flow.countedTuples)
    (hp : List.Forall₂ Forwards r.ports flow.countedActions) :
    dumpFlow r.dev r.tbl (some flow) =
      some (dumpHeader r.dev r.tbl ++
        unlines (r.fields.map dumpedField ++ r.ports.map dumpedPort) ++ dumpFooter r.tbl, 1) := by
  have hmem : ∀ e ∈ r.fields, (e.name, e.id) ∈ chainFields ∧ Writes e := fun e he =>
    ⟨h.chained.subset (List.mem_map_of_mem he), h.writes e he⟩
  have hboth := (List.forall₂_and_left _ _).mpr ⟨hmem, hf⟩
  have htuples : flow.countedTuples.mapM tupleText =
      some ((r.fields.map dumpedField).map fun l => l ++ ['\n']) := by
    apply mapM_eq_some
    rw [List.forall₂_map_left_iff]
    exact hboth.imp fun e t het => tupleText_stored het.1.1 het.1.2 het.2
  have hactions : flow.countedActions.mapM actionText =
      some ((r.ports.map dumpedPort).map fun l => l ++ ['\n']) := by
    apply mapM_eq_some
    rw [List.forall₂_map_left_iff]
    exact hp.imp fun _ _ => actionText_stored
  rw [dumpFlow, htuples, hactions]
  simp only [unlines, List.map_append, List.flatten_append]

theorem toDigits_plain {base n : Nat} (h1 : 1 < base) (h16 : base ≤ 16) :
    '\n' ∉ Nat.toDigits base n :=
  (spells_toDigits h1 h16 n).notMem (digit?_eq_none rfl)

theorem digits_plain {base : Nat} (h1 : 1 < base) (h16 : base ≤ 16) {c : Char} (hc : '\n' ≠ c)
    (bs : List UInt8) : '\n' ∉ join c (bs.map fun b => Nat.toDigits base b.toNat) := by
  apply notMem_join hc
  intro t ht
  obtain ⟨b, -, rfl⟩ := List.mem_map.mp ht
  exact toDigits_plain h1 h16

theorem datumText_plain (id : FlowTuple) (d : Datum) : '\n' ∉ datumText id d := by
  have hdec (n : Nat) : '\n' ∉ dec n := toDigits_plain (by decide) (by decide)
  cases d with
  | num n =>
    by_cases h : id = .dlType
    · rw [h]
      exact toDigits_plain (by decide) (by decide)
    · have hd : datumText id (.num n) = dec n := by cases id <;> first | rfl | exact absurd rfl h
      rw [hd]
      exact hdec n
  | mac m =>
    have hm : datumText id (.mac m) = macText m.bytes ++ [' '] := by cases id <;> rfl
    rw [hm, List.mem_append, not_or]
    exact ⟨digits_plain (by decide) (by decide) (by decide) m.bytes, by decide⟩
  | ip a =>
    have ha : datumText id (.ip a) = ipText a.bytes := by cases id <;> rfl
    rw [ha]
    exact digits_plain (by decide) (by decide) (by decide) a.bytes

theorem fieldLine_plain (e : Entry) : '\n' ∉ fieldLine e := by
  have hid : '\n' ∉ tupleHead e.id (tupleEnumerator e.id) := by cases e.id <;> decide
  rw [fieldLine, List.mem_append, not_or]
  exact ⟨hid, datumText_plain e.id e.datum⟩

theorem portLine_plain (p : Port) : '\n' ∉ portLine p := by
  rw [portLine, List.mem_append, not_or]
  exact ⟨by decide, toDigits_plain (by decide) (by decide)⟩

theorem dumpedPort_plain (p : Port) : '\n' ∉ dumpedPort p := by
  rw [dumpedPort, List.mem_append, not_or]
  exact ⟨by decide, toDigits_plain (by decide) (by decide)⟩

/-- A field is dumped as it was written unless it is an address that changes when reversed. -/
theorem dumpedField_eq_iff (e : Entry) : dumpedField e = fieldLine e ↔
    ∀ a, e.datum = .ip a → a.bytes.reverse = a.bytes := by
  rw [dumpedField, fieldLine, fieldLine, List.append_right_inj]
  cases hd : e.datum with
  | num n => simp [dumpedDatum]
  | mac m => simp [dumpedDatum]
  | ip a =>
    have ha (b : Buffer 4) : datumText e.id (.ip b) = ipText b.bytes := by cases e.id <;> rfl
    rw [dumpedDatum, ha, ha, ipText_eq_iff]
    constructor
    · intro heq b hb
      cases hb
      exact congrArg Buffer.bytes heq
    · exact fun h => ByteBuffer.ext (h a rfl)

theorem dumpedPort_ne (p : Port) : dumpedPort p ≠ portLine p := by
  -- the two names differ in their first letter
  have hdumped : (dumpedPort p)[15]? = some 'e' := rfl
  have hshown : (portLine p)[15]? = some 'o' := rfl
  intro h
  rw [h, hshown] at hdumped
  exact absurd hdumped (by decide)

theorem shown_iff (r : Rule) :
    dumpHeader r.dev r.tbl ++ unlines (r.fields.map dumpedField ++ r.ports.map dumpedPort) ++
      dumpFooter r.tbl = shown r ↔
    r.ports = [] ∧ ∀ e ∈ r.fields, ∀ a, e.datum = .ip a → a.bytes.reverse = a.bytes := by
  have hplain {f : Entry → CString} {g : Port → CString} (hf : ∀ e, '\n' ∉ f e)
      (hg : ∀ p, '\n' ∉ g p) : ∀ l ∈ r.fields.map f ++ r.ports.map g, '\n' ∉ l := by
    simp only [List.forall_mem_append, List.forall_mem_map]
    exact ⟨fun e _ => hf e, fun p _ => hg p⟩
  rw [shown, List.append_left_inj, List.append_right_inj]
  constructor
  · intro h
    have hlines := unlines_injective
      (hplain (fun e => fieldLine_plain { e with datum := dumpedDatum e.datum }) dumpedPort_plain)
      (hplain fieldLine_plain portLine_plain) h
    obtain ⟨hfields, hports⟩ := List.append_inj hlines (by simp)
    refine ⟨?_, fun e he => (dumpedField_eq_iff e).mp (List.map_inj_left.mp hfields e he)⟩
    rw [List.eq_nil_iff_forall_not_mem]
    exact fun p hp => dumpedPort_ne p (List.map_inj_left.mp hports p hp)
  · rintro ⟨hports, hfields⟩
    rw [hports, List.map_congr_left fun e he => (dumpedField_eq_iff e).mpr (hfields e he)]
    rfl

/-- A delivered rule is dumped as it was written exactly when it has no actions and its IPv4
addresses read the same from both ends. -/
theorem dump_shows_iff {flwDevs : Table D} (hf : Filled maxObjects flwDevs) {r : Rule}
    (h : r.Written flwDevs.cnt) (tuples : Vector Tuple 25) (actions : Vector Action 25) :
    ∃ d c, fibCmdFilter flwDevs tuples actions r.line = .calls d c ∧
      (dumpFlow c.devId c.flowTable c.flow = some (shown r, 1) ↔
        r.ports = [] ∧ ∀ e ∈ r.fields, ∀ a, e.datum = .ip a → a.bytes.reverse = a.bytes) := by
  obtain ⟨d, flow, -, hcall, hfields, hports⟩ := rule_delivered hf h tuples actions
  refine ⟨d, _, hcall, ?_⟩
  rw [dumpFlow_rule h hfields hports, Option.some.injEq, Prod.mk.injEq, ← shown_iff]
  exact and_iff_left rfl

theorem sampleRule_written : sampleRule.Written 1 := { sampleRule_wellWritten with }

theorem sampleRule_misshown : ∃ c,
    fibCmdFilter (ofList [()]) (Vector.replicate 25 ⟨.inPort, zeros 16⟩)
      (Vector.replicate 25 ⟨.drop, zeros 16⟩) sampleRule.line = .calls () c ∧
    dumpFlow c.devId c.flowTable c.flow ≠ some (shown sampleRule, 1) := by
  obtain ⟨d, flow, -, hcall, hfields, hports⟩ :=
    rule_delivered (filled_ofList (show [()].length ≤ 256 by decide)) sampleRule_written
      (Vector.replicate 25 ⟨.inPort, zeros 16⟩) (Vector.replicate 25 ⟨.drop, zeros 16⟩)
  refine ⟨_, hcall, ?_⟩
  rw [dumpFlow_rule sampleRule_written hfields hports]
  intro h
  cases ((shown_iff sampleRule).mp (congrArg Prod.fst (Option.some.inj h))).1

/-- The first fields of the sample line, with an address that reads the same from both ends. -/
def mirroredRule : Rule :=
  { sampleRule with
    fields := sampleRule.fields.take 5 ++
      [⟨"nw-dst".toList, .nw4Dst, "10.8.8.10".toList, .ip ⟨[10, 8, 8, 10], rfl⟩⟩]
    ports := [] }

theorem mirroredRule_written : mirroredRule.Written 1 :=
  { sampleRule_written with
    chained := by decide
    writes := by
      intro e he
      obtain he | he := List.mem_append.mp he
      · exact sampleRule_written.writes e (List.mem_of_mem_take he)
      · rw [List.mem_singleton.mp he]
        exact ⟨_, by decide, rfl⟩
    ports_le := Nat.zero_le 25
    ports := List.forall_mem_nil _ }

theorem mirroredRule_shown : ∃ c,
    fibCmdFilter (ofList [()]) (Vector.replicate 25 ⟨.inPort, zeros 16⟩)
      (Vector.replicate 25 ⟨.drop, zeros 16⟩) mirroredRule.line = .calls () c ∧
    dumpFlow c.devId c.flowTable c.flow = some (shown mirroredRule, 1) := by
  obtain ⟨d, c, hcall, hshows⟩ := dump_shows_iff
    (filled_ofList (show [()].length ≤ 256 by decide)) mirroredRule_written
    (Vector.replicate 25 ⟨.inPort, zeros 16⟩) (Vector.replicate 25 ⟨.drop, zeros 16⟩)
  refine ⟨c, hcall, hshows.mpr ⟨rfl, ?_⟩⟩
  simp only [mirroredRule, sampleRule, List.take_succ_cons, List.take_zero, List.cons_append,
    List.nil_append, List.forall_mem_cons, reduceCtorEq, false_implies, implies_true, true_and,
    Datum.ip.injEq, forall_eq', List.not_mem_nil]
  decide

end LibSwitch.DumpedRules

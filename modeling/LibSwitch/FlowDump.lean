import LibSwitch.FilterRule

namespace LibSwitch.FlowDump

open LibSwitch.ByteOrder LibSwitch.ByteBuffer LibSwitch.CText LibSwitch.Numeral
open LibSwitch.Address LibSwitch.FlowTypes LibSwitch.FlowFilter LibSwitch.FilterRule

def tupleName : List CString :=
  ["in_port".toList, "in_phy_port".toList, "dl_src".toList, "dl_dst".toList, "dl_type".toList,
   "dl_vlan_pcp".toList, "nw4_src".toList, "nw4_dst".toList, "nw6_src".toList, "nw6_dst".toList,
   "nw_proto".toList, "nw_ecn".toList, "nw_tos".toList, "tp_src".toList, "tp_dst".toList,
   "udp_src".toList, "udp_dst".toList, "ipv6_label".toList, "mpls_label".toList,
   "ipv6ext_hder".toList, "icmp4_code".toList, "icmp6_code".toList, "icmp6_tll".toList,
   "icmp6_sll".toList, "ip6_nd_target".toList, "arp_op".toList, "arp_spa".toList,
   "arp_sha".toList, "arp_tpa".toList, "arp_tha".toList]

def actionName : List CString :=
  ["out_port".toList, "enqueue_port".toList, "enqueue_queue".toList, "NORMAL".toList,
   "FLOOD".toList, "ALL".toList, "CONTROLLER".toList, "DROP".toList, "push_vlan".toList,
   "set_field".toList, "push_mpls".toList, "pop_mpls".toList, "push_pbb".toList,
   "pop_pbb".toList, "Mod_vlan_vid".toList, "Mod_vlan_pcp".toList, "Strip_vlan".toList,
   "Mod_dl_src".toList, "Mod_dl_dst".toList, "Mod_nw_src".toList, "Mod_nw_dst".toList,
   "Mod_tp_src".toList, "Mod_tp_dst".toList, "Mod_nw_tos".toList, "resubmit".toList,
   "Set_queue".toList, "Set_mpls".toList]

def dec (n : Nat) : CString := Nat.toDigits 10 n

def hex (n : Nat) : CString := Nat.toDigits 16 n

def macText (bytes : List UInt8) : CString := join ':' (bytes.map fun b => hex b.toNat)

def ipText (bytes : List UInt8) : CString := join '.' (bytes.map fun b => dec b.toNat)

/-- What is printed for the value of a tuple, its line break included. -/
def valueText (id : FlowTuple) (v : Value) : CString :=
  match id with
  | .inPort | .inPhyPort | .tpSrc | .tpDst | .dlVlanPcp | .nwProto | .nwTos | .nwEcn =>
    dec (leNat (read v 0 2)) ++ ['\n']
  | .dlType => hex (leNat (read v 0 2)) ++ ['\n']
  | .dlSrc | .dlDst => macText (read v 0 6) ++ " \n".toList
  | .nw4Src | .nw4Dst => ipText (read v 0 4) ++ ['\n']
  | _ => ['0']

def tupleHead (id : FlowTuple) (name : CString) : CString :=
  "TUPLE ID=".toList ++ dec id.ctorIdx ++ " : ".toList ++ name ++ "  ".toList

def actionHead (id : FlowAction) (name : CString) : CString :=
  "ACTION  ID=".toList ++ dec id.ctorIdx ++ " : ".toList ++ name ++ " ".toList

/-- The text of a tuple, undefined where the name is read behind the table. -/
def tupleText (t : Tuple) : Option CString :=
  tupleName[t.id.ctorIdx]?.map fun name => tupleHead t.id name ++ valueText t.id t.value

def actionText (a : Action) : Option CString :=
  actionName[a.id.ctorIdx]?.map fun name =>
    actionHead a.id name ++ dec (leNat (read a.value 0 1)) ++ ['\n']

def callText (devId flowTable : Int) : CString :=
  "device_id=".toList ++ decimal devId ++ "\nflow_table=".toList ++ decimal flowTable ++ ['\n']

def dumpHeader (devId flowTable : Int) : CString :=
  "in dump FUNCTION\n".toList ++ callText devId flowTable

def dumpFooter (flowTable : Int) : CString :=
  if flowTable ≠ 0 then "flow table not NULL\n".toList else []

def nullText : CString := "Null FLow passed\n".toList

/-- The text `dump_flow` prints and its result. -/
def dumpFlow (devId flowTable : Int) : Option Flow → Option (CString × Int)
  | none => some (dumpHeader devId flowTable ++ nullText, 0)
  | some flow =>
    match flow.countedTuples.mapM tupleText, flow.countedActions.mapM actionText with
    | some ts, some as =>
      some (dumpHeader devId flowTable ++ (ts.flatten ++ as.flatten) ++ dumpFooter flowTable, 1)
    | _, _ => none

def stubHeader : FlwOp → CString
  | .add => "in Sutb FLOW_ADD FUNCTION\n".toList
  | .delete => "in Stub FLOW_DELETE FUNCTION\n".toList
  | .lookup => "in Stub FLOW_LOOKUP FUNCTION\n".toList

/-- An operation of the stub device prints its arguments and dumps the flow. Only the addition
does so for a null flow. -/
def flowStubCall (c : FlwCall) : Option (CString × Int) :=
  if c.flow.isNone ∧ c.op ≠ .add then some (nullText, 0)
  else (dumpFlow c.devId c.flowTable c.flow).map fun r =>
    (stubHeader c.op ++ callText c.devId c.flowTable ++ r.1, 1)

/-- What is printed for a flow is what the stub prints behind its own lines. -/
theorem flowStubCall_dumps {c : FlwCall} {flow : Flow} (h : c.flow = some flow) :
    flowStubCall c = (dumpFlow c.devId c.flowTable (some flow)).map fun r =>
      (stubHeader c.op ++ callText c.devId c.flowTable ++ r.1, 1) := by
  rw [flowStubCall, h, if_neg]
  rintro ⟨hnone, -⟩
  cases hnone

theorem tupleText_isSome (t : Tuple) : (tupleText t).isSome := by
  rw [tupleText, Option.isSome_map]
  cases t.id <;> rfl

def unlines (ls : List CString) : CString := (ls.map fun l => l ++ ['\n']).flatten

theorem tokens_unlines {ls : List CString} (h : ∀ l ∈ ls, '\n' ∉ l) :
    tokens '\n' (unlines ls) = ls ++ [[]] := by
  induction ls with
  | nil => rfl
  | cons l ls ih =>
    rw [List.forall_mem_cons] at h
    have hcons : unlines (l :: ls) = l ++ '\n' :: unlines ls := by
      simp [unlines]
    rw [hcons, tokens_append h.1, ih h.2, List.cons_append]

theorem unlines_injective {ls ms : List CString} (hl : ∀ l ∈ ls, '\n' ∉ l)
    (hm : ∀ m ∈ ms, '\n' ∉ m) (h : unlines ls = unlines ms) : ls = ms := by
  have htokens := congrArg (tokens '\n') h
  rw [tokens_unlines hl, tokens_unlines hm] at htokens
  exact List.append_cancel_right htokens

end LibSwitch.FlowDump

import LibSwitch.ByteBuffer

namespace LibSwitch.FlowTypes

open LibSwitch.ByteBuffer

inductive FlowTuple
  | inPort | inPhyPort | dlSrc | dlDst | dlType | dlVlanPcp | nw4Src | nw4Dst | nw6Src | nw6Dst
  | nwProto | nwEcn | nwTos | tpSrc | tpDst | udpSrc | udpDst | ipv6Label | mplsLabel
  | ipv6ExtHdr | icmp4Code | icmp6Code | icmp6Tll | icmp6Sll | ip6NdTarget | arpOp | arpSpa
  | arpSha | arpTpa | arpTha
  deriving DecidableEq

inductive FlowAction
  | fwdQueue | drop | outPort | pushVlanId | popVlanId | setVlanId | setVlanPriority | pushMpls
  | popMpls | setDlSrc | setDlDst | setIpSrc | setIpDst | setTcpSrc | setTcpDst | setDscp
  | setEcn | setIpTtl | decIpTtl | setIpFlabel | setExtendedHeader | setMpls | setMplsTraffic
  | setMplsTtl | setMplsHeader | decMplsTtl | copyInTtl | copyOutTtl | setBottomStack
  | setIcmpCode | setIcmpType | setIcmpNd | setNdSll | meter | setSha | setSpa | setTha | setTpa
  | setArpOp
  deriving DecidableEq

abbrev Value := Buffer 16

structure Tuple where
  id : FlowTuple
  value : Value

structure Action where
  id : FlowAction
  value : Value

/-- A flow as a device receives it: two arrays and the number of entries that count. -/
structure Flow where
  tuples : Vector Tuple 25
  actions : Vector Action 25
  numTuples : Nat
  numActions : Nat

def Flow.countedTuples (f : Flow) : List Tuple := f.tuples.toList.take f.numTuples

def Flow.countedActions (f : Flow) : List Action := f.actions.toList.take f.numActions

inductive FlwOp
  | add
  | delete
  | lookup
  deriving DecidableEq

/-- An operation of a flow device. A message passes a null flow. -/
structure FlwCall where
  op : FlwOp
  devId : Int
  flowTable : Int
  flow : Option Flow

end LibSwitch.FlowTypes

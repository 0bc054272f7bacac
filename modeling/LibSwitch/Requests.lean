import LibSwitch.SockComm

namespace LibSwitch.Requests

open LibSwitch.PointerTable LibSwitch.ByteOrder LibSwitch.ByteBuffer LibSwitch.Common
open LibSwitch.SockComm

variable {H C : Type}

/-- A complete request: two header fields and the parameters that follow the header. -/
structure Request where
  type : Int
  messageId : Int
  params : List UInt8
  type_mem : -2147483648 ≤ type ∧ type < 2147483648
  messageId_mem : -2147483648 ≤ messageId ∧ messageId < 2147483648
  fits : szHdr + params.length ≤ szBuf

def Request.len (r : Request) : Int := szHdr + r.params.length

def Request.bytes (r : Request) : List UInt8 :=
  intBytes r.type ++ (intBytes r.messageId ++ (intBytes r.len ++ r.params))

theorem Request.length_bytes (r : Request) : r.bytes.length = szHdr + r.params.length := by
  simp only [Request.bytes, List.length_append, length_intBytes, szHdr]
  omega

def Request.chunk (r : Request) : Chunk := ⟨r.bytes, by rw [r.length_bytes]; exact r.fits⟩

def Request.recv (r : Request) : Recv := .data r.chunk

theorem read_receive (msg : Msg) (r : Request) {i len : Nat}
    (h : i + len ≤ szHdr + r.params.length) :
    read (receive msg r.chunk) i len = (r.bytes.drop i).take len :=
  read_put_start msg _ (by rw [Request.chunk, r.length_bytes]; exact h)

theorem hdrType_receive (msg : Msg) (r : Request) : hdrType (receive msg r.chunk) = r.type := by
  have htake : (r.bytes.drop 0).take 4 = intBytes r.type :=
    List.take_left' (length_intBytes r.type)
  rw [hdrType, intAt, read_receive msg r (by rw [szHdr]; omega), htake]
  exact readInt_intBytes r.type_mem.1 r.type_mem.2

theorem hdrMessageId_receive (msg : Msg) (r : Request) :
    hdrMessageId (receive msg r.chunk) = r.messageId := by
  have htake : (r.bytes.drop 4).take 4 = intBytes r.messageId := by
    rw [Request.bytes, List.drop_left' (length_intBytes r.type)]
    exact List.take_left' (length_intBytes r.messageId)
  rw [hdrMessageId, intAt, read_receive msg r (by rw [szHdr]; omega), htake]
  exact readInt_intBytes r.messageId_mem.1 r.messageId_mem.2

theorem param_receive (msg : Msg) (r : Request) :
    (param (receive msg r.chunk)).bytes.take r.params.length = r.params := by
  have hhdr : r.bytes.drop szHdr = r.params := by
    have hlen : (intBytes r.type ++ (intBytes r.messageId ++ intBytes r.len)).length = szHdr := by
      simp [szHdr]
    have hbytes : r.bytes =
        (intBytes r.type ++ (intBytes r.messageId ++ intBytes r.len)) ++ r.params := by
      simp [Request.bytes]
    rw [hbytes, List.drop_left' hlen]
  have hread := read_receive msg r (Nat.le_refl (szHdr + r.params.length))
  rw [hhdr, List.take_length] at hread
  exact hread

/-- An int that lies inside the parameters of a request is read as it was sent. -/
theorem intAt_param (msg : Msg) (r : Request) (off : Nat) (h : off + 4 ≤ r.params.length) :
    intAt (param (receive msg r.chunk)) off = readInt ((r.params.drop off).take 4) := by
  have htake := congrArg (fun bs => (bs.drop off).take 4) (param_receive msg r)
  simp only [List.drop_take, List.take_take] at htake
  rw [Nat.min_eq_left (by omega)] at htake
  rw [intAt, ByteBuffer.read, htake]

theorem zero_mem : (-2147483648 : Int) ≤ 0 ∧ (0 : Int) < 2147483648 := by decide

theorem bridge_mem : -2147483648 ≤ protocolBridge ∧ protocolBridge < 2147483648 := by decide

def bareRequest (type messageId : Int) (ht : -2147483648 ≤ type ∧ type < 2147483648)
    (hm : -2147483648 ≤ messageId ∧ messageId < 2147483648) : Request :=
  ⟨type, messageId, [], ht, hm, szHdr_le⟩

end LibSwitch.Requests

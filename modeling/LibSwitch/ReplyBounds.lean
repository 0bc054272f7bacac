import LibSwitch.RequestSafety

namespace LibSwitch.ReplyBounds

open LibSwitch.PointerTable LibSwitch.ByteOrder LibSwitch.ByteBuffer LibSwitch.Common
open LibSwitch.ModuleLoad LibSwitch.SockComm LibSwitch.Requests LibSwitch.Handlers
open LibSwitch.HandlerSpecs LibSwitch.RequestSafety LibSwitch.StubLibraries

variable {D : Type} {H C : Type}

def InBuffer : Event H C → Prop
  | .send len _ => 0 ≤ len ∧ len ≤ szBuf
  | .fault f => f ≠ .bufferOverrun ∧ f ≠ .sendOverrun
  | .call _ | .device _ => True

def Bounded (es : List (Event H C)) : Prop := ∀ e ∈ es, InBuffer e

/-- The header names a message of a protocol, and a switch query asks for all switches or for
one that is registered. -/
structure Addressed (r : Registry Handler D) (msg : Msg) : Prop where
  type_mem : 0 ≤ hdrType msg ∧ hdrType msg < maxObjects
  messageId_mem : ∀ p, r.protocols.slots (hdrType msg).toNat = some p →
    0 ≤ hdrMessageId msg ∧ hdrMessageId msg < p.msgCnt
  qryId_mem : lookup (server r) (hdrType msg) (hdrMessageId msg) = .ok (some .appMsgQrySw) →
    qryId (param msg) = maxObjects ∨
      0 ≤ qryId (param msg) ∧ qryId (param msg) < r.switches.cnt

/-- No handler reuses a received length above 500, and no query for all switches meets more
than 125 of them. -/
def RoomToReply (r : Registry Handler D) (msg : Msg) (len : Nat) : Prop :=
  match lookup (server r) (hdrType msg) (hdrMessageId msg) with
  | .ok (some h) => ¬ (h = .appMsgQrySw ∧ qryId (param msg) = maxObjects ∧ 125 < r.switches.cnt)
  | _ => len ≤ 500

theorem bounded_reply_iff (msg : Msg) {len : Int} (h0 : 0 ≤ len) (hm : len ≤ szBuf) :
    Bounded (reply msg len : List (Event H C) × Option Msg).1 ↔ len ≤ 500 := by
  rw [szBuf] at hm
  have hn : toInt (szHdr + len) = szHdr + len :=
    toInt_of_mem (by rw [szHdr]; omega) (by rw [szHdr]; omega)
  simp only [reply, hn]
  by_cases hle : len ≤ 500
  · rw [if_pos ⟨by rw [szHdr]; omega, by rw [szHdr, szBuf]; omega⟩]
    refine iff_of_true ?_ hle
    intro e he
    rw [List.mem_singleton.mp he]
    exact ⟨by rw [szHdr]; omega, by rw [szHdr, szBuf]; omega⟩
  · have hlong : ¬ (0 ≤ (szHdr : Int) + len ∧ (szHdr : Int) + len ≤ szBuf) := by
      rw [szHdr, szBuf]
      omega
    rw [if_neg hlong]
    refine iff_of_false ?_ hle
    intro h
    exact hlong (h _ (List.mem_cons_self))

theorem bounded_returns_iff (c : Call H) (cs : List C) {es : List (Event H C)} :
    Bounded (.call c :: cs.map .device ++ es) ↔ Bounded es := by
  constructor
  · exact fun h e he => h e (List.mem_append_right _ he)
  · intro h e he
    rw [List.cons_append] at he
    obtain rfl | he := List.mem_cons.mp he
    · trivial
    obtain hd | hs := List.mem_append.mp he
    · obtain ⟨_, -, rfl⟩ := List.mem_map.mp hd
      trivial
    · exact h e hs

theorem Addressed.lookup_ok {r : Registry Handler D} {msg : Msg} (h : Addressed r msg) :
    ∃ target, lookup (server r) (hdrType msg) (hdrMessageId msg) = .ok target := by
  rw [lookup, dispatch_inside h.type_mem]
  cases hs : (server r).protocols.slots (hdrType msg).toNat with
  | none => exact ⟨none, rfl⟩
  | some p =>
    obtain ⟨row, hrow⟩ :=
      Option.isSome_iff_exists.mp ((p.row_isSome _).mpr (h.messageId_mem p hs))
    exact ⟨row.func, by simp only [hrow]⟩

/-- A handler leaves the buffer only in the loop of the switch query. -/
theorem bounded_called_iff {r : Registry Handler D} (hr : WellFormed r) {msg : Msg} {h : Handler}
    (hl : lookup (server r) (hdrType msg) (hdrMessageId msg) = .ok (some h)) (len : Int) :
    Bounded (serve (server r) msg len).1 ↔ ¬ Overruns r h (param msg) := by
  cases runHandler_ends hr (hdrType msg).toNat h (param msg) with
  | returns rep hrun hret hp ho =>
    rw [serve_returns hl hrun]
    have hb := (bounded_reply_iff (H := Handler) (C := DevCall D)
      (replaceAfter szHdr msg rep.param szHdr_le) hret.1
      (by rw [szBuf]; omega)).mpr hret.2
    exact iff_of_true ((bounded_returns_iff _ _).mpr hb) ho
  | absent f hrun hfault hp ho =>
    rw [serve_fault hl hrun]
    refine iff_of_true ?_ ho
    intro e he
    obtain rfl | he := List.mem_cons.mp he
    · trivial
    rw [List.mem_singleton.mp he]
    constructor
    · rintro rfl
      cases hfault
    · rintro rfl
      cases hfault
  | overruns hrun hp ho =>
    rw [serve_fault hl hrun]
    refine iff_of_false ?_ fun hn => hn ho
    intro hb
    exact (hb (.fault .bufferOverrun) (by simp)).1 rfl

/-- Replies keep to the message buffer exactly when the answer leaves room for the header: a
query for all switches meets at most 125 of them, and a message that runs no handler has at
most 500 bytes. -/
theorem bounded_iff {r : Registry Handler D} (hr : WellFormed r) (msg : Msg) (c : Chunk)
    (ha : Addressed r (receive msg c)) :
    Bounded (serveChunk (server r) msg c).1 ↔
      RoomToReply r (receive msg c) c.bytes.length := by
  obtain ⟨target, hl⟩ := ha.lookup_ok
  rw [serveChunk, RoomToReply, hl]
  cases target with
  | none =>
    rw [serve_none hl, bounded_reply_iff _ (by omega) (by have := c.length_le; omega)]
    exact Int.ofNat_le
  | some h => exact bounded_called_iff hr hl _

def longChunk (n : Nat) (h : 4 + n ≤ szBuf) : Chunk :=
  ⟨intBytes 100 ++ List.replicate n 0, by
    rw [List.length_append, length_intBytes, List.length_replicate]
    exact h⟩

theorem length_longChunk (n : Nat) (h : 4 + n ≤ szBuf) :
    (longChunk n h).bytes.length = 4 + n := by
  simp [longChunk]

theorem hdrType_longChunk (n : Nat) (h : 4 + n ≤ szBuf) :
    hdrType (receive (zeros szBuf) (longChunk n h)) = 100 := by
  have hread : read (receive (zeros szBuf) (longChunk n h)) 0 4 =
      ((longChunk n h).bytes.drop 0).take 4 :=
    read_put_start (zeros szBuf) _ (by rw [length_longChunk]; omega)
  have htake : ((longChunk n h).bytes.drop 0).take 4 = intBytes 100 :=
    List.take_left' (length_intBytes 100)
  rw [hdrType, intAt, hread, htake]
  exact readInt_intBytes (by decide) (by decide)

theorem stubDir_addressed {r : Registry Handler StubDev}
    (hp : Holds r.protocols [flow, bridge, appMain appFuncs]) (n : Nat) (h : 4 + n ≤ szBuf) :
    Addressed r (receive (zeros szBuf) (longChunk n h)) ∧
      lookup (server r) (hdrType (receive (zeros szBuf) (longChunk n h)))
        (hdrMessageId (receive (zeros szBuf) (longChunk n h))) = .ok none := by
  have ht := hdrType_longChunk n h
  have hs : r.protocols.slots (100 : Int).toNat = none := hp.slot_eq 100
  have hl (messageId : Int) : lookup (server r) 100 messageId = .ok none :=
    lookup_free (by decide) hs messageId
  rw [ht, hl]
  refine ⟨⟨by rw [ht]; decide, ?_, ?_⟩, rfl⟩
  · intro p hslot
    rw [ht, hs] at hslot
    cases hslot
  · intro hq
    rw [ht, hl] at hq
    cases hq

theorem bounded_longChunk : ∃ r : Registry Handler StubDev, load appFuncs stubDir = some r ∧
    Bounded (serveChunk (server r) (zeros szBuf) (longChunk 496 (by decide))).1 := by
  obtain ⟨r, hr, hw, hp⟩ := stubDir_wellFormed
  obtain ⟨ha, hl⟩ := stubDir_addressed hp 496 (by decide)
  refine ⟨r, hr, (bounded_iff hw (zeros szBuf) _ ha).mpr ?_⟩
  rw [RoomToReply, hl]
  exact Nat.le_of_eq (length_longChunk 496 (by decide))

/-- A message of 501 bytes that runs no handler is answered with 513 bytes. -/
theorem reply_exceeds_buffer : ∃ r : Registry Handler StubDev,
    load appFuncs stubDir = some r ∧
      Addressed r (receive (zeros szBuf) (longChunk 497 (by decide))) ∧
      ¬ Bounded (serveChunk (server r) (zeros szBuf) (longChunk 497 (by decide))).1 := by
  obtain ⟨r, hr, -, hp⟩ := stubDir_wellFormed
  obtain ⟨ha, hl⟩ := stubDir_addressed hp 497 (by decide)
  refine ⟨r, hr, ha, ?_⟩
  rw [serveChunk, serve_none hl, length_longChunk,
    bounded_reply_iff _ (by decide) (by decide)]
  decide

end LibSwitch.ReplyBounds

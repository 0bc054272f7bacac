import LibSwitch.RequestSafety

namespace LibSwitch.SwitchQuery

open LibSwitch.PointerTable LibSwitch.ByteOrder LibSwitch.ByteBuffer LibSwitch.Common
open LibSwitch.ModuleLoad LibSwitch.SockComm LibSwitch.Requests LibSwitch.Handlers
open LibSwitch.HandlerSpecs LibSwitch.RequestSafety LibSwitch.StubLibraries

variable {D : Type} {H C : Type}

def encodeInts (vs : List Int) : List UInt8 := (vs.map intBytes).flatten

def readInts : Nat → List UInt8 → List Int
  | 0, _ => []
  | k + 1, bs => readInt (bs.take 4) :: readInts k (bs.drop 4)

def IsInt (v : Int) : Prop := -2147483648 ≤ v ∧ v < 2147483648

theorem encodeInts_cons (v : Int) (vs : List Int) :
    encodeInts (v :: vs) = intBytes v ++ encodeInts vs := rfl

theorem length_encodeInts (vs : List Int) : (encodeInts vs).length = 4 * vs.length := by
  induction vs with
  | nil => rfl
  | cons v vs ih =>
    rw [encodeInts_cons, List.length_append, length_intBytes, ih, List.length_cons]
    omega

theorem readInts_encodeInts {vs : List Int} (h : ∀ v ∈ vs, IsInt v) :
    readInts vs.length (encodeInts vs) = vs := by
  induction vs with
  | nil => rfl
  | cons v vs ih =>
    rw [List.forall_mem_cons] at h
    have hlen := length_intBytes v
    rw [List.length_cons, encodeInts_cons, readInts, List.take_left' hlen, List.drop_left' hlen,
      readInt_intBytes h.1.1 h.1.2, ih h.2]

theorem put_ints {p : Param} {n : Nat} (v : Int) (hw : 4 * n + (intBytes v).length ≤ szBuf - szHdr)
    (m : Nat) (bs : List UInt8) :
    (put p (4 * n) (intBytes v) hw).bytes.take (4 * (n + 1)) ++
        (bs ++ (put p (4 * n) (intBytes v) hw).bytes.drop (4 * (n + 1 + m))) =
      p.bytes.take (4 * n) ++ (intBytes v ++ bs ++ p.bytes.drop (4 * (n + (m + 1)))) := by
  have hp : p.bytes.length = 500 := p.length_eq
  have hfit : 4 * n + 4 ≤ 500 := by rwa [length_intBytes, szParam_eq] at hw
  have htake : (p.bytes.take (4 * n)).length = 4 * n := by
    rw [List.length_take]
    omega
  have hhead : (p.bytes.take (4 * n) ++ intBytes v).length = 4 * (n + 1) := by
    rw [List.length_append, htake, length_intBytes]
    omega
  have hput : (put p (4 * n) (intBytes v) hw).bytes =
      (p.bytes.take (4 * n) ++ intBytes v) ++ p.bytes.drop (4 * (n + 1)) := by
    rw [put_bytes, List.append_assoc, length_intBytes]
    rfl
  have hdrop : 4 * (n + 1 + m) = 4 * (n + 1) + 4 * m := by omega
  have hend : 4 * (n + (m + 1)) = 4 * (n + 1) + 4 * m := by omega
  rw [hput, List.take_left' hhead, hdrop, ← List.drop_drop, List.drop_left' hhead,
    List.drop_drop, hend]
  simp only [List.append_assoc]

/-- The loop of the query writes the types of the switches it passes, one after the other. -/
theorem forLoop_storeTypes {switches : Table (Sw D)} (pre : List (Sw D)) {us : List (Sw D)}
    (h : Holds switches (pre ++ us)) (hle : pre.length + us.length ≤ 125) (p : Param) :
    ∃ p', forLoop (storeType switches) us.length pre.length p = .ok p' ∧
      p'.bytes = p.bytes.take (4 * pre.length) ++ (encodeInts (us.map Sw.type) ++
        p.bytes.drop (4 * (pre.length + us.length))) := by
  induction us generalizing pre p with
  | nil => exact ⟨p, rfl, (List.take_append_drop (4 * pre.length) p.bytes).symm⟩
  | cons s us ih =>
    rw [List.length_cons] at hle
    have hslot : deref maxObjects switches pre.length = some s := by
      rw [deref, h.read (by omega) (by rw [maxObjects]; omega)]
      simp
    have hw : 4 * pre.length + (intBytes s.type).length ≤ szBuf - szHdr := by
      rw [length_intBytes, szParam_eq]
      omega
    have hstore : storeType switches pre.length p =
        .ok (put p (4 * pre.length) (intBytes s.type) hw) := by
      unfold storeType
      rw [hslot]
      simp only [write_of_le p hw]
    have hnext : Holds switches ((pre ++ [s]) ++ us) := by
      rwa [List.append_assoc, List.singleton_append]
    have hlen : (pre ++ [s]).length = pre.length + 1 := by simp
    obtain ⟨p', hrun, hbytes⟩ := ih (pre ++ [s]) hnext (by omega)
      (put p (4 * pre.length) (intBytes s.type) hw)
    rw [hlen] at hrun hbytes
    refine ⟨p', ?_, ?_⟩
    · rw [List.length_cons, forLoop, hstore]
      exact hrun
    · rw [hbytes, put_ints, List.map_cons, encodeInts_cons, List.length_cons]

/-- The switches a query asks for: all of them, or one. -/
def asked (ss : List (Sw D)) (q : Int) : List (Sw D) :=
  if q = maxObjects then ss else if 0 ≤ q then ss[q.toNat]?.toList else []

theorem asked_mem {ss : List (Sw D)} {q : Int} {s : Sw D} (h : s ∈ asked ss q) : s ∈ ss := by
  rw [asked] at h
  split at h
  · exact h
  · split at h
    · exact List.mem_of_getElem? (Option.mem_toList.mp h)
    · cases h

theorem asked_length {ss : List (Sw D)} (hle : ss.length ≤ 125) (q : Int) :
    (asked ss q).length ≤ 125 := by
  rw [asked]
  split
  · exact hle
  · split
    · exact Nat.le_trans Option.length_toList_le (by decide)
    · exact Nat.zero_le 125

theorem appMsgQrySw_types {switches : Table (Sw D)} {ss : List (Sw D)} (h : Holds switches ss)
    (hle : ss.length ≤ 125) (p : Param)
    (hq : qryId p = maxObjects ∨ 0 ≤ qryId p ∧ qryId p < ss.length) :
    ∃ p', appMsgQrySw switches p =
        .ok ⟨p', (encodeInts ((asked ss (qryId p)).map Sw.type)).length, []⟩ ∧
      p'.bytes = encodeInts ((asked ss (qryId p)).map Sw.type) ++
        p.bytes.drop (encodeInts ((asked ss (qryId p)).map Sw.type)).length := by
  rw [length_encodeInts, List.length_map, appMsgQrySw, asked]
  by_cases hall : qryId p = maxObjects
  · rw [if_pos hall, if_pos hall, h.cnt_eq]
    obtain ⟨p', hrun, hbytes⟩ := forLoop_storeTypes [] h (by simpa using hle) p
    rw [List.length_nil] at hrun
    rw [hrun]
    refine ⟨p', ?_, by simpa using hbytes⟩
    simp only [Except.ok.injEq, Reply.mk.injEq, true_and, and_true]
    omega
  · obtain ⟨h0, hlt⟩ := hq.resolve_left hall
    have hget : ss[(qryId p).toNat]? = some ss[(qryId p).toNat] :=
      List.getElem?_eq_getElem (by omega)
    have hslot : deref maxObjects switches (qryId p) = some ss[(qryId p).toNat] := by
      rw [deref, h.read h0 (by rw [maxObjects]; omega), hget]
      rfl
    rw [if_neg hall, if_neg hall, if_pos h0, hslot, hget]
    refine ⟨_, rfl, ?_⟩
    simp [put, encodeInts]

/-- What is sent for a handler that leaves `w` at the start of its parameters and returns its
size: the first two fields of the header, the new length and `w`. -/
theorem reply_sends (msg : Msg) {p : Param} {w tail : List UInt8} (hp : p.bytes = w ++ tail) :
    ∃ msg', (reply (replaceAfter szHdr msg p szHdr_le) w.length :
        List (Event H C) × Option Msg) =
      ([.send (szHdr + w.length)
        (msg.bytes.take 8 ++ (intBytes (szHdr + w.length) ++ w))], some msg') ∧
      msg'.bytes = msg.bytes.take 8 ++ (intBytes (szHdr + w.length) ++ p.bytes) := by
  have hw : w.length ≤ 500 := by
    have hlen : p.bytes.length = 500 := p.length_eq
    rw [hp, List.length_append] at hlen
    omega
  have hn : toInt (szHdr + w.length) = szHdr + w.length :=
    toInt_of_mem (by rw [szHdr]; omega) (by rw [szHdr]; omega)
  have h8 : (msg.bytes.take 8).length = 8 := by
    rw [List.length_take, msg.length_eq]
    decide
  have h12 : (msg.bytes.take szHdr).length = szHdr := by
    rw [List.length_take, msg.length_eq]
    decide
  have hbytes : (put (replaceAfter szHdr msg p szHdr_le) 8 (intBytes (szHdr + w.length))
      (hdrLen_fits _)).bytes =
        msg.bytes.take 8 ++ (intBytes (szHdr + w.length) ++ p.bytes) := by
    have hdrop : (msg.bytes.take szHdr ++ p.bytes).drop (8 + 4) = p.bytes := List.drop_left' h12
    rw [put_bytes, replaceAfter_bytes, length_intBytes, hdrop,
      List.take_append_of_le_length (by rw [h12]; decide), List.take_take]
    rfl
  have hfit : 0 ≤ (szHdr : Int) + w.length ∧ (szHdr : Int) + w.length ≤ szBuf := by
    rw [szHdr, szBuf]
    omega
  have hsent : (msg.bytes.take 8 ++ (intBytes (szHdr + w.length) ++ p.bytes)).take
      ((szHdr : Int) + w.length).toNat =
        msg.bytes.take 8 ++ (intBytes (szHdr + w.length) ++ w) := by
    rw [hp, ← List.append_assoc, ← List.append_assoc, ← List.append_assoc]
    apply List.take_left'
    simp only [List.length_append, h8, length_intBytes, szHdr]
    omega
  refine ⟨_, ?_, hbytes⟩
  simp only [reply, hn, if_pos hfit, hbytes, hsent]

/-- The bytes sent are a reply with the given types behind a header that keeps the type and the
message id. The buffer holds them, and keeps what they do not reach. -/
structure Answered (msg msg' : Msg) (types : List Int) (sent : List UInt8) : Prop where
  length_eq : sent.length = szHdr + 4 * types.length
  type : readInt (sent.take 4) = hdrType msg
  messageId : readInt ((sent.drop 4).take 4) = hdrMessageId msg
  len : readInt ((sent.drop 8).take 4) = szHdr + 4 * types.length
  payload : readInts types.length (sent.drop szHdr) = types
  buffer : msg'.bytes = sent ++ msg.bytes.drop sent.length

theorem answered_sent {msg msg' : Msg} (types : List Int) (htypes : ∀ v ∈ types, IsInt v)
    (hle : types.length ≤ 125)
    (hbuf : msg'.bytes = msg.bytes.take 8 ++ (intBytes (szHdr + (encodeInts types).length) ++
      (encodeInts types ++ (param msg).bytes.drop (encodeInts types).length))) :
    Answered msg msg' types (msg.bytes.take 8 ++
      (intBytes (szHdr + (encodeInts types).length) ++ encodeInts types)) := by
  have h8 : (msg.bytes.take 8).length = 8 := by
    rw [List.length_take, msg.length_eq]
    decide
  have hints := length_encodeInts types
  have hlen : (msg.bytes.take 8 ++ (intBytes (szHdr + (encodeInts types).length) ++
      encodeInts types)).length = szHdr + 4 * types.length := by
    simp only [List.length_append, h8, length_intBytes, hints, szHdr]
    omega
  have hdrop : (msg.bytes.take 8 ++ (intBytes (szHdr + (encodeInts types).length) ++
      encodeInts types)).drop 8 = intBytes (szHdr + (encodeInts types).length) ++
        encodeInts types := List.drop_left' h8
  constructor
  · exact hlen
  · rw [List.take_append_of_le_length (by rw [h8]; decide), List.take_take]
    rfl
  · rw [List.drop_append_of_le_length (by rw [h8]; decide),
      List.take_append_of_le_length (by rw [List.length_drop, h8]), List.drop_take,
      List.take_take]
    rfl
  · have hn : (szHdr : Int) + (encodeInts types).length = szHdr + 4 * types.length := by
      rw [hints]
      omega
    rw [hdrop, List.take_left' (length_intBytes _), readInt_intBytes, hn]
    · rw [szHdr]
      omega
    · rw [szHdr]
      omega
  · have hdrop12 : (msg.bytes.take 8 ++ (intBytes (szHdr + (encodeInts types).length) ++
        encodeInts types)).drop szHdr = encodeInts types := by
      rw [← List.append_assoc]
      apply List.drop_left'
      rw [List.length_append, h8, length_intBytes]
      rfl
    rw [hdrop12]
    exact readInts_encodeInts htypes
  · rw [hlen, hbuf, hints]
    simp only [param, after, List.drop_drop, List.append_assoc]

/-- A switch query is answered with the types of the switches it asks for. -/
theorem query_answered {r : Registry Handler D} {ss : List (Sw D)} (h : Holds r.switches ss)
    (hle : ss.length ≤ 125) (htypes : ∀ s ∈ ss, IsInt s.type) {msg : Msg}
    (hl : lookup (server r) (hdrType msg) (hdrMessageId msg) = .ok (some .appMsgQrySw))
    (hq : qryId (param msg) = maxObjects ∨
      0 ≤ qryId (param msg) ∧ qryId (param msg) < ss.length) (len : Int) :
    ∃ sent msg', serve (server r) msg len =
        ([.call ⟨hdrType msg, hdrMessageId msg, .appMsgQrySw, param msg⟩,
          .send sent.length sent], some msg') ∧
      Answered msg msg' ((asked ss (qryId (param msg))).map Sw.type) sent := by
  obtain ⟨p', hrun, hp'⟩ := appMsgQrySw_types h hle (param msg) hq
  obtain ⟨msg', hreply, hbuf⟩ := reply_sends (H := Handler) (C := DevCall D) msg hp'
  have hcall : (server r).call (hdrType msg).toNat .appMsgQrySw (param msg) =
      .ok ⟨p', (encodeInts ((asked ss (qryId (param msg))).map Sw.type)).length, []⟩ := hrun
  rw [hp'] at hbuf
  have hanswer := answered_sent ((asked ss (qryId (param msg))).map Sw.type)
    (by simpa using fun s hs => htypes s (asked_mem hs))
    (by rw [List.length_map]; exact asked_length hle (qryId (param msg))) hbuf
  refine ⟨_, msg', ?_, hanswer⟩
  have hlen : ((szHdr + (encodeInts ((asked ss (qryId (param msg))).map Sw.type)).length : Nat) :
      Int) = szHdr + (encodeInts ((asked ss (qryId (param msg))).map Sw.type)).length := by
    omega
  rw [serve_returns hl hcall, hanswer.length_eq, ← length_encodeInts, hlen]
  simp only [hreply, List.map_nil, List.singleton_append]

def qryRequest (q : Int) : Request where
  type := 2
  messageId := 0
  params := intBytes q
  type_mem := by decide
  messageId_mem := by decide
  fits := by
    rw [length_intBytes]
    decide

theorem stubDir_query : ∃ r msg, load appFuncs stubDir = some r ∧
    ∃ sent msg', serve (server r) msg 16 =
        ([.call ⟨hdrType msg, hdrMessageId msg, .appMsgQrySw, param msg⟩,
          .send sent.length sent], some msg') ∧
      Answered msg msg' [0, 0] sent := by
  obtain ⟨r, hr, hl⟩ := DeviceLinking.load_linked appFuncs stubDir
    (LoadedModules.fitsHandles_of_length (by decide)) (by decide)
  refine ⟨r, receive (zeros szBuf) (qryRequest 256).chunk, hr, ?_⟩
  have hslot : (server r).protocols.slots 2 = some (appMain appFuncs) := hl.protocols.slot_eq 2
  have hlook : lookup (server r) (hdrType (receive (zeros szBuf) (qryRequest 256).chunk))
      (hdrMessageId (receive (zeros szBuf) (qryRequest 256).chunk)) =
        .ok (some .appMsgQrySw) := by
    rw [hdrType_receive, hdrMessageId_receive]
    exact lookup_slot hslot (by decide) 0
  have hq : qryId (param (receive (zeros szBuf) (qryRequest 256).chunk)) = 256 :=
    intAt_param (zeros szBuf) (qryRequest 256) 0 (by decide)
  have hanswer := query_answered hl.switches (by decide) (by unfold IsInt; decide) hlook
    (Or.inl hq) 16
  rw [hq] at hanswer
  exact hanswer

end LibSwitch.SwitchQuery

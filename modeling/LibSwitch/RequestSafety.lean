import LibSwitch.HandlerSpecs
import LibSwitch.Requests

namespace LibSwitch.RequestSafety

open LibSwitch.PointerTable LibSwitch.ByteBuffer LibSwitch.Common LibSwitch.ModuleLoad
open LibSwitch.SockComm LibSwitch.Requests LibSwitch.Handlers LibSwitch.HandlerSpecs
open LibSwitch.LoadedModules LibSwitch.StubLibraries

variable {D : Type} {H C : Type}

/-- No table was read outside its live range and no absent entry was dereferenced. -/
def IndexSafe (es : List (Event H C)) : Prop :=
  ∀ f, Event.fault f ∈ es → Fault.isIndex f = false

/-- The three indices a message names are those of entries that exist: its type is one of
`protocols[]`, its message id is a row of the protocol registered there, and the switch or
device the row's handler will look up is registered. -/
def Servable (r : Registry Handler D) (msg : Msg) : Prop :=
  0 ≤ hdrType msg ∧ hdrType msg < maxObjects ∧
    ∀ p, r.protocols.slots (hdrType msg).toNat = some p →
      0 ≤ hdrMessageId msg ∧ hdrMessageId msg < p.msgCnt ∧
        ∀ h, (p.row (hdrMessageId msg)).bind Messages.func = some h →
          Present r (hdrType msg).toNat (entryOf (param msg) h)

theorem reply_indexSafe (msg : Msg) (len : Int) :
    IndexSafe (reply msg len : List (Event H C) × Option Msg).1 := by
  intro f hf
  simp only [reply] at hf
  split at hf
  · simp at hf
  · simp only [List.mem_cons, reduceCtorEq, Event.fault.injEq, List.not_mem_nil, or_false,
      false_or] at hf
    rw [hf]
    rfl

theorem indexSafe_returns (c : Call H) (cs : List C) {es : List (Event H C)}
    (h : IndexSafe es) : IndexSafe (.call c :: cs.map .device ++ es) := by
  intro f hf
  obtain hc | hf := List.mem_cons.mp hf
  · cases hc
  obtain hd | hs := List.mem_append.mp hf
  · obtain ⟨_, -, he⟩ := List.mem_map.mp hd
    cases he
  · exact h f hs

theorem not_indexSafe_type {srv : Server H C} {msg : Msg}
    (ht : ¬ (0 ≤ hdrType msg ∧ hdrType msg < maxObjects)) (len : Int) :
    ¬ IndexSafe (serve srv msg len).1 := by
  have hl : lookup srv (hdrType msg) (hdrMessageId msg) = .error .protocolsIndex := by
    rw [lookup, dispatch_outside srv.protocols ht]
  rw [serve_error hl len]
  intro h
  exact absurd (h .protocolsIndex (by simp)) (by decide)

theorem indexSafe_handler_iff {r : Registry Handler D} (hr : WellFormed r) {msg : Msg}
    {h : Handler} (hl : lookup (server r) (hdrType msg) (hdrMessageId msg) = .ok (some h))
    (len : Int) : IndexSafe (serve (server r) msg len).1 ↔
      Present r (hdrType msg).toNat (entryOf (param msg) h) := by
  cases runHandler_ends hr (hdrType msg).toNat h (param msg) with
  | returns rep hrun hret hp ho =>
    rw [serve_returns hl hrun len]
    exact iff_of_true (indexSafe_returns _ _ (reply_indexSafe _ _)) hp
  | absent f hrun hfault hp ho =>
    rw [serve_fault hl hrun len]
    refine iff_of_false ?_ hp
    intro h
    have hsafe := h f (by simp)
    rw [hfault] at hsafe
    cases hsafe
  | overruns hrun hp ho =>
    rw [serve_fault hl hrun len]
    refine iff_of_true ?_ hp
    intro f hf
    simp only [List.mem_cons, reduceCtorEq, Event.fault.injEq, List.not_mem_nil, or_false,
      false_or] at hf
    rw [hf]
    rfl

/-- Through a registered protocol, the row must exist and its handler must find its entry. -/
theorem indexSafe_slot_iff {r : Registry Handler D} (hr : WellFormed r) {msg : Msg}
    (ht : 0 ≤ hdrType msg ∧ hdrType msg < maxObjects) {p : Protocol Handler}
    (hs : r.protocols.slots (hdrType msg).toNat = some p) (len : Int) :
    IndexSafe (serve (server r) msg len).1 ↔
      0 ≤ hdrMessageId msg ∧ hdrMessageId msg < p.msgCnt ∧
        ∀ h, (p.row (hdrMessageId msg)).bind Messages.func = some h →
          Present r (hdrType msg).toNat (entryOf (param msg) h) := by
  have hd : dispatch (server r).protocols (hdrType msg) = .ok (some p) := by
    rw [dispatch_inside ht, ← hs]
    rfl
  rw [← and_assoc, ← p.row_isSome]
  cases hrow : p.row (hdrMessageId msg) with
  | none =>
    have hl : lookup (server r) (hdrType msg) (hdrMessageId msg) = .error .messageIndex := by
      rw [lookup, hd]
      simp only [hrow]
    rw [serve_error hl len]
    constructor
    · intro h
      exact absurd (h .messageIndex (by simp)) (by decide)
    · rintro ⟨h, -⟩
      cases h
  | some row =>
    have hl : lookup (server r) (hdrType msg) (hdrMessageId msg) = .ok row.func := by
      rw [lookup, hd]
      simp only [hrow]
    simp only [Option.isSome_some, Option.bind_some, true_and]
    cases hf : row.func with
    | none =>
      rw [hf] at hl
      rw [serve_none hl len]
      simp only [reply_indexSafe, reduceCtorEq, false_imp_iff, implies_true]
    | some h =>
      rw [hf] at hl
      simp only [Option.some.injEq, forall_eq']
      exact indexSafe_handler_iff hr hl len

/-- The server stays inside its tables on exactly the requests whose indices are all in use:
nothing checks the type, the message id or the id in the parameters. -/
theorem indexSafe_iff {r : Registry Handler D} (hr : WellFormed r) (msg : Msg) (c : Chunk) :
    IndexSafe (serveChunk (server r) msg c).1 ↔ Servable r (receive msg c) := by
  rw [serveChunk]
  by_cases ht : 0 ≤ hdrType (receive msg c) ∧ hdrType (receive msg c) < maxObjects
  · cases hs : r.protocols.slots (hdrType (receive msg c)).toNat with
    | none =>
      have hl : lookup (server r) (hdrType (receive msg c)) (hdrMessageId (receive msg c)) =
          .ok none := lookup_free ht hs _
      rw [serve_none hl]
      refine iff_of_true (reply_indexSafe _ _) ⟨ht.1, ht.2, ?_⟩
      intro p hp
      rw [hs] at hp
      cases hp
    | some p =>
      rw [indexSafe_slot_iff hr ht hs]
      constructor
      · intro h
        refine ⟨ht.1, ht.2, ?_⟩
        intro p' hp'
        obtain rfl : p = p' := Option.some.inj (hs.symm.trans hp')
        exact h
      · exact fun h => h.2.2 p hs
  · exact iff_of_false (not_indexSafe_type ht _) fun h => ht ⟨h.1, h.2.1⟩

theorem stubDir_wellFormed :
    ∃ r, load appFuncs stubDir = some r ∧ WellFormed r ∧
      Holds r.protocols [flow, bridge, appMain appFuncs] := by
  have hp : (protosOf (modules stubDir)).length < maxObjects := by decide
  obtain ⟨r, hr, hl⟩ := DeviceLinking.load_linked appFuncs stubDir
    (fitsHandles_of_length (by decide)) hp
  exact ⟨r, hr, load_wellFormed hp hr, hl.protocols⟩

theorem addBr_fits : szHdr + (List.replicate 24 (0 : UInt8)).length ≤ szBuf := by decide

def addBrRequest : Request :=
  ⟨protocolBridge, 0, List.replicate 24 0, bridge_mem, zero_mem, addBr_fits⟩

theorem indexSafe_addBr : ∃ r : Registry Handler StubDev,
    load appFuncs stubDir = some r ∧ r.protocols.slots 1 = some bridge ∧
      IndexSafe (serveChunk (server r) (zeros szBuf) addBrRequest.chunk).1 := by
  have hp : (protosOf (modules stubDir)).length < maxObjects := by decide
  obtain ⟨r, hr, hl⟩ := DeviceLinking.load_linked appFuncs stubDir
    (fitsHandles_of_length (by decide)) hp
  have hbr : r.protocols.slots 1 = some bridge := hl.protocols.slot_eq 1
  have hdevs : (r.devs 1).cnt = 1 := (hl.devs 1 bridge hbr rfl).cnt_eq
  have hid : bridgeId (param (receive (zeros szBuf) addBrRequest.chunk)) = 0 :=
    intAt_param (zeros szBuf) addBrRequest 8 (by decide)
  refine ⟨r, hr, hbr, (indexSafe_iff (load_wellFormed hp hr) (zeros szBuf) _).mpr ?_⟩
  rw [Servable, hdrType_receive, hdrMessageId_receive]
  refine ⟨by decide, by decide, ?_⟩
  intro p hs
  obtain rfl : bridge = p := Option.some.inj (hbr.symm.trans hs)
  refine ⟨by decide, by decide, ?_⟩
  intro h hrow
  obtain rfl : Handler.brAddBr = h := Option.some.inj hrow
  rw [entryOf, Present, hid, show addBrRequest.type.toNat = 1 from rfl, hdevs]
  decide

/-- A request of type 256 makes the server read behind `protocols[]`. -/
theorem type_reads_outside : ∃ r : Registry Handler StubDev,
    load appFuncs stubDir = some r ∧
      ¬ IndexSafe (serveChunk (server r) (zeros szBuf)
        (bareRequest 256 0 (by decide) (by decide)).chunk).1 := by
  obtain ⟨r, hr, -⟩ := stubDir_wellFormed
  refine ⟨r, hr, not_indexSafe_type ?_ _⟩
  rw [hdrType_receive]
  decide

end LibSwitch.RequestSafety

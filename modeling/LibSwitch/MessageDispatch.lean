import Mathlib.Data.List.Nodup
import LibSwitch.Requests
import LibSwitch.DeviceLinking

namespace LibSwitch.MessageDispatch

open LibSwitch.PointerTable LibSwitch.Common LibSwitch.ModuleLoad LibSwitch.LoadedModules
open LibSwitch.SockComm LibSwitch.Requests LibSwitch.Handlers LibSwitch.StubLibraries
open LibSwitch.DeviceLinking

variable {H C : Type}

/-- The message table lists every id below its size exactly once, in some order. -/
def ListsEach (p : Protocol H) : Prop :=
  (p.message.map Messages.messageId).Perm ((List.range p.msgCnt).map Int.ofNat)

def handlerOf (p : Protocol H) (messageId : Int) : Option H :=
  (p.message.find? fun row => row.messageId == messageId).bind Messages.func

/-- The row at the position of the message id has the handler of the row that carries it. -/
def InPlace (p : Protocol H) (messageId : Int) : Prop :=
  ∀ row ∈ p.message, row.messageId = messageId →
    (p.row messageId).bind Messages.func = row.func

def handlers (es : List (Event H C)) : List H := (calls es).map Call.func

theorem ListsEach.find {p : Protocol H} (hp : ListsEach p) {m : Int} (h0 : 0 ≤ m)
    (hm : m < p.msgCnt) : ∃ row ∈ p.message, row.messageId = m ∧ handlerOf p m = row.func := by
  have hmem : m ∈ p.message.map Messages.messageId :=
    hp.mem_iff.mpr (List.mem_map.mpr
      ⟨m.toNat, by rw [List.mem_range]; omega, Int.toNat_of_nonneg h0⟩)
  obtain ⟨row, hrow, hid⟩ := List.mem_map.mp hmem
  cases hf : p.message.find? fun row => row.messageId == m with
  | none => exact absurd (by simpa using hid) (List.find?_eq_none.mp hf row hrow)
  | some first =>
    refine ⟨first, List.mem_of_find?_eq_some hf, by simpa using List.find?_some hf, ?_⟩
    rw [handlerOf, hf, Option.bind_some]

theorem ListsEach.row_unique {p : Protocol H} (hp : ListsEach p) {row row' : Messages H}
    (h : row ∈ p.message) (h' : row' ∈ p.message) (hid : row.messageId = row'.messageId) :
    row = row' := by
  have hnodup : (p.message.map Messages.messageId).Nodup :=
    hp.nodup_iff.mpr (List.Nodup.map (fun _ _ he => Int.ofNat.inj he) List.nodup_range)
  exact List.inj_on_of_nodup_map hnodup h h' hid

theorem inPlace_iff {p : Protocol H} (hp : ListsEach p) {m : Int} (h0 : 0 ≤ m)
    (hm : m < p.msgCnt) : InPlace p m ↔ (p.row m).bind Messages.func = handlerOf p m := by
  obtain ⟨first, hfirst, hid, hfunc⟩ := hp.find h0 hm
  rw [hfunc]
  constructor
  · exact fun h => h first hfirst hid
  · intro h row hrow hm'
    rwa [hp.row_unique hrow hfirst (hm'.trans hid.symm)]

theorem step_handlers {srv : Server H C} {slot : Nat} {p : Protocol H}
    (hs : srv.protocols.slots slot = some p) (hc : slot < maxObjects) {s s' : Session}
    {r : Request} {es : List (Event H C)} (hr : r.type = slot)
    (h : step srv s r.recv = some (es, s')) :
    handlers es = ((p.row r.messageId).bind Messages.func).toList := by
  cases s with
  | closed | dead => cases h
  | live msg =>
    simp only [step, serveChunk, Request.recv, Option.some.injEq, Prod.mk.injEq] at h
    obtain ⟨rfl, -⟩ := h
    rw [handlers, calls_serve, selected, hdrType_receive, hdrMessageId_receive, hr,
      lookup_slot hs hc]
    cases p.row r.messageId with
    | none => rfl
    | some row =>
      cases hf : row.func <;> simp [hf]

theorem run_handlers {srv : Server H C} {slot : Nat} {p : Protocol H}
    (hs : srv.protocols.slots slot = some p) (hc : slot < maxObjects) {s t : Session}
    (reqs : List Request) {turns : List (List (Event H C))} (hr : ∀ r ∈ reqs, r.type = slot)
    (h : Run srv s (reqs.map Request.recv) turns t) :
    turns.map handlers =
      reqs.map fun r => ((p.row r.messageId).bind Messages.func).toList := by
  induction reqs generalizing s turns with
  | nil =>
    cases h
    rfl
  | cons r reqs ih =>
    cases h with
    | cons hstep hrun =>
      rw [List.map_cons, List.map_cons, step_handlers hs hc (hr r (by simp)) hstep,
        ih (fun r' hr' => hr r' (by simp [hr'])) hrun]

/-- A run of requests to a slot executes the handlers the message ids name exactly when the
rows at these positions hold them. -/
theorem handlers_by_id {srv : Server H C} {slot : Nat} {p : Protocol H}
    (hs : srv.protocols.slots slot = some p) (hc : slot < maxObjects) (hp : ListsEach p)
    {s t : Session} (reqs : List Request) {turns : List (List (Event H C))}
    (hr : ∀ r ∈ reqs, r.type = slot ∧ 0 ≤ r.messageId ∧ r.messageId < p.msgCnt)
    (h : Run srv s (reqs.map Request.recv) turns t) :
    turns.map handlers = reqs.map (fun r => (handlerOf p r.messageId).toList) ↔
      ∀ r ∈ reqs, InPlace p r.messageId := by
  rw [run_handlers hs hc reqs (fun r hmem => (hr r hmem).1) h, List.map_inj_left]
  apply forall₂_congr
  intro r hmem
  rw [inPlace_iff hp (hr r hmem).2.1 (hr r hmem).2.2]
  constructor
  · intro he
    cases hrow : (p.row r.messageId).bind Messages.func <;>
      cases hof : handlerOf p r.messageId <;> simp_all
  · exact fun he => by rw [he]

theorem listsEach_bridge : ListsEach bridge := by
  unfold ListsEach
  decide

theorem inPlace_bridge (id : BrMsgId) :
    InPlace bridge id.num ↔ id = .addBr ∨ id = .setAge := by
  unfold InPlace
  cases id <;> decide

def brRequest (id : BrMsgId) : Request where
  type := protocolBridge
  messageId := id.num
  params := List.replicate 12 0 ++ 5 :: List.replicate 11 0
  type_mem := by decide
  messageId_mem := by cases id <;> decide
  fits := by decide

theorem stubDir_bridge_slot :
    ∃ r, load appFuncs stubDir = some r ∧ (server r).protocols.slots 1 = some bridge := by
  obtain ⟨r, hr, hl⟩ := load_linked appFuncs stubDir
    (fitsHandles_of_length (by decide)) (by decide)
  exact ⟨r, hr, hl.protocols.slot_eq 1⟩

theorem handlers_addBr :
    ∃ r turns t, load appFuncs stubDir = some r ∧
      Run (server r) start [(brRequest .addBr).recv] turns t ∧
      turns.map handlers = [[.brAddBr]] := by
  obtain ⟨r, hr, hslot⟩ := stubDir_bridge_slot
  have hrun : Run (server r) start [(brRequest .addBr).recv] _ _ :=
    Reactive.Run.cons rfl (Reactive.Run.nil _)
  refine ⟨r, _, _, hr, hrun, ?_⟩
  have hin : ∀ q ∈ [brRequest .addBr], InPlace bridge q.messageId := by
    intro q hq
    rw [List.mem_singleton.mp hq]
    exact (inPlace_bridge .addBr).mpr (Or.inl rfl)
  exact (handlers_by_id hslot (by decide) listsEach_bridge [brRequest .addBr] (by decide)
    hrun).mpr hin

theorem addBrIf_runs_delBr :
    ∃ r turns t, load appFuncs stubDir = some r ∧
      (server r).protocols.slots 1 = some bridge ∧ ListsEach bridge ∧
      Run (server r) start [(brRequest .addBrIf).recv] turns t ∧
      turns.map handlers = [[.brDelBr]] ∧
      handlerOf bridge (brRequest .addBrIf).messageId = some .brAddBrIf := by
  obtain ⟨r, hr, hslot⟩ := stubDir_bridge_slot
  have hrun : Run (server r) start [(brRequest .addBrIf).recv] _ _ :=
    Reactive.Run.cons rfl (Reactive.Run.nil _)
  refine ⟨r, _, _, hr, hslot, listsEach_bridge, hrun, ?_, by decide⟩
  exact run_handlers hslot (by decide) [brRequest .addBrIf] (by decide) hrun

end LibSwitch.MessageDispatch

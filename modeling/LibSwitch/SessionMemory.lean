import LibSwitch.MessageDispatch
import LibSwitch.SwitchQuery

namespace LibSwitch.SessionMemory

open LibSwitch.PointerTable LibSwitch.ByteOrder LibSwitch.ByteBuffer LibSwitch.Common
open LibSwitch.ModuleLoad LibSwitch.SockComm LibSwitch.Requests LibSwitch.Handlers
open LibSwitch.HandlerSpecs LibSwitch.SwitchQuery LibSwitch.MessageDispatch
open LibSwitch.StubLibraries

variable {D : Type}

/-- The size of the struct a handler takes its parameters to be: `app_qry_msg`,
`br_msg_param` or `flw_msg_param`. -/
def szParam : Handler → Nat
  | .appMsgQrySw | .appMsgQryProto => 4
  | .brAddBr | .brDelBr | .brAddBrIf | .brDelBrIf | .brSetAge | .brSetMaxAge | .brDump => 24
  | .flwAddFlw | .flwDelFlw | .flwAddFlwIf | .flwDelFlwIf | .flwSetAge | .flwSetMaxAge
  | .flwDump => 24

/-- A handler run on any parameters that start as the given ones calls the same operations and
leaves the same result at the start of them. -/
def Determined (f : Param → Except Fault (Reply (DevCall D))) (k : Nat) (q : Param) : Prop :=
  ∃ (w : List UInt8) (calls : List (DevCall D)), ∀ p, AgreeTo k p q →
    ∃ p' tail, f p = .ok ⟨p', w.length, calls⟩ ∧ p'.bytes = w ++ tail

theorem bytes_firstByte {p q : Param} {k : Nat} (h : AgreeTo k p q) (hk : 1 ≤ k) :
    p.bytes = q.bytes.take 1 ++ p.bytes.drop 1 := by
  rw [← h.mono hk, List.take_append_drop]

theorem length_firstByte (q : Param) : (q.bytes.take 1).length = 1 := by
  rw [List.length_take, q.length_eq]
  decide

theorem printHandler_determined {k : Nat} (hk : 1 ≤ k) (q : Param) :
    Determined (printHandler : Param → Except Fault (Reply (DevCall D))) k q := by
  refine ⟨q.bytes.take 1, [], ?_⟩
  intro p hp
  rw [length_firstByte]
  exact ⟨p, _, rfl, bytes_firstByte hp hk⟩

theorem brHandler_determined {devs : Table D} (op : Int → Int → BrCall) {q : Param}
    (hd : (deref maxObjects devs (bridgeId q)).isSome) :
    Determined (brHandler op devs) 24 q := by
  obtain ⟨d, hd⟩ := Option.isSome_iff_exists.mp hd
  refine ⟨q.bytes.take 1, [.br d (op (bridgeId q) (intfId q))], ?_⟩
  intro p hp
  have hbridge : bridgeId p = bridgeId q := hp.intAt (by decide)
  have hintf : intfId p = intfId q := hp.intAt (by decide)
  rw [brHandler, hbridge, hintf, hd, length_firstByte]
  exact ⟨p, _, rfl, bytes_firstByte hp (by decide)⟩

theorem flwHandler_determined {devs : Table D} (op : FlowTypes.FlwOp) {q : Param}
    (hd : (deref maxObjects devs (bridgeId q)).isSome) :
    Determined (flwHandler op devs) 24 q := by
  obtain ⟨d, hd⟩ := Option.isSome_iff_exists.mp hd
  refine ⟨q.bytes.take 1, [.flw d ⟨op, bridgeId q, 0, none⟩], ?_⟩
  intro p hp
  have hflow : bridgeId p = bridgeId q := hp.intAt (by decide)
  rw [flwHandler, hflow, hd, length_firstByte]
  exact ⟨p, _, rfl, bytes_firstByte hp (by decide)⟩

theorem appMsgQrySw_determined {switches : Table (Sw D)} {ss : List (Sw D)}
    (h : Holds switches ss) (hle : ss.length ≤ 125) {q : Param}
    (hq : qryId q = maxObjects ∨ 0 ≤ qryId q ∧ qryId q < ss.length) :
    Determined (appMsgQrySw switches) 4 q := by
  refine ⟨encodeInts ((asked ss (qryId q)).map Sw.type), [], ?_⟩
  intro p hp
  have hid : qryId p = qryId q := hp.intAt (by decide)
  obtain ⟨p', hrun, hbytes⟩ := appMsgQrySw_types h hle p (by rwa [hid])
  rw [hid] at hrun hbytes
  exact ⟨p', _, hrun, hbytes⟩

theorem runHandler_determined {r : Registry Handler D} (hr : WellFormed r)
    (hcnt : r.switches.cnt ≤ 125) (slot : Nat) (h : Handler) {q : Param}
    (hp : Present r slot (entryOf q h)) : Determined (runHandler r slot h) (szParam h) q := by
  cases h with
  | appMsgQryProto | brDump | flwAddFlwIf | flwDelFlwIf | flwSetAge | flwSetMaxAge | flwDump =>
    exact printHandler_determined (by decide) q
  | brAddBr =>
    exact brHandler_determined (fun brId _ => .addBr brId)
      (((hr.devs slot).deref_isSome _).mpr hp)
  | brDelBr =>
    exact brHandler_determined (fun brId _ => .delBr brId)
      (((hr.devs slot).deref_isSome _).mpr hp)
  | brAddBrIf | brDelBrIf | brSetAge | brSetMaxAge =>
    exact brHandler_determined .addBrIf (((hr.devs slot).deref_isSome _).mpr hp)
  | flwAddFlw | flwDelFlw =>
    exact flwHandler_determined _ (((hr.devs slot).deref_isSome _).mpr hp)
  | appMsgQrySw =>
    obtain ⟨ss, hs, -⟩ := hr.switches
    rw [hs.cnt_eq] at hcnt
    apply appMsgQrySw_determined hs hcnt
    by_cases hq : qryId q = maxObjects
    · exact Or.inl hq
    · rw [entryOf, if_neg hq] at hp
      right
      rwa [Present, hs.cnt_eq] at hp

def alone (c : Chunk) : Msg := receive (zeros szBuf) c

/-- The chunk holds a request for an existing handler with all of its parameters, and the entry
the handler looks up exists. -/
structure Complete (r : Registry Handler D) (c : Chunk) (h : Handler) : Prop where
  selects : lookup (server r) (hdrType (alone c)) (hdrMessageId (alone c)) = .ok (some h)
  full : szHdr + szParam h ≤ c.bytes.length
  present : Present r (hdrType (alone c)).toNat (entryOf (param (alone c)) h)

def observed? {H C : Type} : Event H C → Option (C ⊕ List UInt8)
  | .device c => some (.inl c)
  | .send _ bytes => some (.inr bytes)
  | .call _ | .fault _ => none

def observed {H C : Type} (es : List (Event H C)) : List (C ⊕ List UInt8) :=
  es.filterMap observed?

def answer {H C : Type} (c : Call H) (cs : List C) (len : Int) (bytes : List UInt8) :
    List (Event H C) :=
  .call c :: cs.map .device ++ [.send len bytes]

theorem handlers_answer {H C : Type} (c : Call H) (cs : List C) (len : Int)
    (bytes : List UInt8) : handlers (answer c cs len bytes) = [c.func] := by
  rw [answer, handlers, ← List.singleton_append, calls_append, calls_append, calls_device]
  rfl

theorem observed_answer {H C : Type} (c : Call H) (cs : List C) (len : Int)
    (bytes : List UInt8) :
    observed (answer c cs len bytes) = cs.map .inl ++ [.inr bytes] := by
  have hdevs : (cs.map (Event.device : C → Event H C)).filterMap observed? = cs.map .inl := by
    rw [List.filterMap_map, ← List.filterMap_eq_map]
    rfl
  rw [answer, observed, List.cons_append, List.filterMap_cons_none rfl, List.filterMap_append,
    hdevs]
  rfl

theorem receive_agree (msg : Msg) (c : Chunk) :
    AgreeTo c.bytes.length (receive msg c) (alone c) :=
  agreeTo_put_start msg (zeros szBuf) _

/-- The answer to a complete request is the same on every buffer. -/
theorem serveChunk_determined {r : Registry Handler D} (hr : WellFormed r)
    (hcnt : r.switches.cnt ≤ 125) {c : Chunk} {h : Handler} (hc : Complete r c h) :
    ∃ seen, ∀ msg, ∃ es msg', serveChunk (server r) msg c = (es, some msg') ∧
      handlers es = [h] ∧ observed es = seen := by
  obtain ⟨w, calls, hrun⟩ := runHandler_determined hr hcnt (hdrType (alone c)).toNat h hc.present
  have hfull := hc.full
  rw [szHdr] at hfull
  refine ⟨calls.map .inl ++ [.inr ((alone c).bytes.take 8 ++
    (intBytes (szHdr + w.length) ++ w))], ?_⟩
  intro msg
  have hagree := receive_agree msg c
  have htype : hdrType (receive msg c) = hdrType (alone c) := hagree.intAt (by omega)
  have hid : hdrMessageId (receive msg c) = hdrMessageId (alone c) := hagree.intAt (by omega)
  have hhead : (receive msg c).bytes.take 8 = (alone c).bytes.take 8 :=
    hagree.mono (by omega)
  have hparam : AgreeTo (szParam h) (param (receive msg c)) (param (alone c)) :=
    (hagree.mono hc.full).after
  obtain ⟨p', tail, hcall, hbytes⟩ := hrun (param (receive msg c)) hparam
  obtain ⟨msg', hreply, -⟩ := reply_sends (H := Handler) (C := DevCall D) (receive msg c) hbytes
  have hsel := hc.selects
  rw [← htype, ← hid] at hsel
  rw [← htype] at hcall
  refine ⟨answer ⟨hdrType (receive msg c), hdrMessageId (receive msg c), h,
    param (receive msg c)⟩ calls (szHdr + w.length) ((receive msg c).bytes.take 8 ++
      (intBytes (szHdr + w.length) ++ w)), msg', ?_, handlers_answer _ _ _ _, ?_⟩
  · rw [serveChunk, serve_returns hsel hcall]
    simp only [hreply, answer]
  · rw [observed_answer, hhead]

theorem run_complete {r : Registry Handler D} (hr : WellFormed r)
    (hcnt : r.switches.cnt ≤ 125) {cs : List Chunk} (hcs : ∀ c ∈ cs, ∃ h, Complete r c h)
    (msg : Msg) :
    ∃ turns msg', Run (server r) (.live msg) (cs.map Recv.data) turns (.live msg') := by
  induction cs generalizing msg with
  | nil => exact ⟨[], msg, .nil _⟩
  | cons c cs ih =>
    obtain ⟨h, hc⟩ := hcs c (by simp)
    obtain ⟨seen, hserve⟩ := serveChunk_determined hr hcnt hc
    obtain ⟨es, msg₁, hes, -, -⟩ := hserve msg
    obtain ⟨turns, msg', hrun⟩ := ih (fun c' hc' => hcs c' (by simp [hc'])) msg₁
    exact ⟨es :: turns, msg', .cons (step_live hes) hrun⟩

/-- The last request of a session is answered the same after every history. -/
theorem last_determined {r : Registry Handler D} (hr : WellFormed r)
    (hcnt : r.switches.cnt ≤ 125) {c : Chunk} {h : Handler} (hc : Complete r c h) :
    ∃ seen, ∀ cs : List Chunk, (∀ c' ∈ cs, ∃ h', Complete r c' h') → ∀ msg,
      ∃ turns es msg', Run (server r) (.live msg) (cs.map Recv.data ++ [.data c])
        (turns ++ [es]) (.live msg') ∧ handlers es = [h] ∧ observed es = seen := by
  obtain ⟨seen, hserve⟩ := serveChunk_determined hr hcnt hc
  refine ⟨seen, ?_⟩
  intro cs hcs msg
  obtain ⟨turns, msg₁, hrun⟩ := run_complete hr hcnt hcs msg
  obtain ⟨es, msg₂, hes, hh, hseen⟩ := hserve msg₁
  exact ⟨turns, es, msg₂, hrun.append (.cons (step_live hes) (.nil _)), hh, hseen⟩

/-- Two sessions that end in the same request see the same answer to it, whatever their
buffers held and whatever requests came before. -/
theorem history_forgotten {r : Registry Handler D} (hr : WellFormed r)
    (hcnt : r.switches.cnt ≤ 125) {c : Chunk} (hc : ∃ h, Complete r c h) {cs₁ cs₂ : List Chunk}
    (hcs₁ : ∀ c' ∈ cs₁, ∃ h, Complete r c' h) (hcs₂ : ∀ c' ∈ cs₂, ∃ h, Complete r c' h)
    (msg₁ msg₂ : Msg) :
    ∃ turns₁ turns₂ es₁ es₂ msg₁' msg₂',
      Run (server r) (.live msg₁) (cs₁.map Recv.data ++ [.data c])
        (turns₁ ++ [es₁]) (.live msg₁') ∧
      Run (server r) (.live msg₂) (cs₂.map Recv.data ++ [.data c])
        (turns₂ ++ [es₂]) (.live msg₂') ∧
      handlers es₁ = handlers es₂ ∧ observed es₁ = observed es₂ := by
  obtain ⟨h, hc⟩ := hc
  obtain ⟨seen, hlast⟩ := last_determined hr hcnt hc
  obtain ⟨turns₁, es₁, msg₁', hrun₁, hh₁, hseen₁⟩ := hlast cs₁ hcs₁ msg₁
  obtain ⟨turns₂, es₂, msg₂', hrun₂, hh₂, hseen₂⟩ := hlast cs₂ hcs₂ msg₂
  exact ⟨turns₁, turns₂, es₁, es₂, msg₁', msg₂', hrun₁, hrun₂, hh₁.trans hh₂.symm,
    hseen₁.trans hseen₂.symm⟩

theorem complete_request {r : Registry Handler D} {q : Request} {h : Handler}
    (hl : lookup (server r) q.type q.messageId = .ok (some h))
    (hfull : szParam h ≤ q.params.length)
    (hp : Present r q.type.toNat (entryOf (param (alone q.chunk)) h)) :
    Complete r q.chunk h := by
  constructor
  · rwa [alone, hdrType_receive, hdrMessageId_receive]
  · change szHdr + szParam h ≤ q.bytes.length
    rw [q.length_bytes]
    omega
  · rwa [alone, hdrType_receive]

/-- A query for all switches is answered the same at once and after other requests. -/
theorem query_history_forgotten : ∃ r : Registry Handler StubDev, load appFuncs stubDir = some r ∧
    ∃ turns₁ turns₂ es₁ es₂ msg₁' msg₂',
      Run (server r) start ([].map Recv.data ++ [(qryRequest 256).recv])
        (turns₁ ++ [es₁]) (.live msg₁') ∧
      Run (server r) start ([(brRequest .addBr).chunk, (qryRequest 256).chunk].map Recv.data ++
        [(qryRequest 256).recv]) (turns₂ ++ [es₂]) (.live msg₂') ∧
      handlers es₁ = handlers es₂ ∧ observed es₁ = observed es₂ := by
  obtain ⟨r, hr, hl⟩ := DeviceLinking.load_linked appFuncs stubDir
    (LoadedModules.fitsHandles_of_length (by decide)) (by decide)
  have hw : WellFormed r := load_wellFormed (by decide) hr
  have happ : (server r).protocols.slots 2 = some (appMain appFuncs) := hl.protocols.slot_eq 2
  have hbr : (server r).protocols.slots 1 = some bridge := hl.protocols.slot_eq 1
  have hqry : Complete r (qryRequest 256).chunk .appMsgQrySw := by
    apply complete_request (lookup_slot happ (by decide) 0) (by decide)
    have hq : qryId (param (alone (qryRequest 256).chunk)) = maxObjects :=
      intAt_param (zeros szBuf) (qryRequest 256) 0 (by decide)
    rw [entryOf, if_pos hq]
    trivial
  have hadd : Complete r (brRequest .addBr).chunk .brAddBr := by
    apply complete_request (lookup_slot hbr (by decide) 0) (by decide)
    have hid : bridgeId (param (alone (brRequest .addBr).chunk)) = 0 :=
      intAt_param (zeros szBuf) (brRequest .addBr) 8 (by decide)
    have hdevs : (r.devs 1).cnt = 1 := (hl.devs 1 bridge hbr rfl).cnt_eq
    change 0 ≤ bridgeId _ ∧ bridgeId _ < ((r.devs 1).cnt : Int)
    rw [hid, hdevs]
    decide
  refine ⟨r, hr, history_forgotten hw (by rw [hl.switches.cnt_eq]; decide) ⟨_, hqry⟩
    (by simp) ?_ (zeros szBuf) (zeros szBuf)⟩
  intro c hc
  simp only [List.mem_cons, List.not_mem_nil, or_false] at hc
  obtain rfl | rfl := hc
  · exact ⟨_, hadd⟩
  · exact ⟨_, hqry⟩

end LibSwitch.SessionMemory

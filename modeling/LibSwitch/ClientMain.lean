import Mathlib.Data.List.Nodup
import Mathlib.Data.List.Perm.Subperm
import LibSwitch.ListRuns
import LibSwitch.LoadedModules
import LibSwitch.StubLibraries

namespace LibSwitch.ClientMain

open LibSwitch.PointerTable LibSwitch.ByteBuffer LibSwitch.ListRuns LibSwitch.Common
open LibSwitch.ModuleLoad LibSwitch.LoadedModules LibSwitch.SockComm LibSwitch.Handlers
open LibSwitch.StubLibraries

variable {H C D : Type}

/-- `protocols[proto_var->id]=proto_var; proto_cnt ++;` -/
def registerProto (r : Registry H D) (p : Protocol H) : Option (Registry H D) :=
  if 0 ≤ p.id ∧ p.id < maxObjects then
    some { r with
      protocols := ⟨Function.update r.protocols.slots p.id.toNat (some p), r.protocols.cnt + 1⟩ }
  else none

/-- The client registers protocols and switches only. -/
def registerMod (r : Registry H D) : Module H D → Option (Registry H D)
  | .protocol p => registerProto r p
  | .sw s => registerSw r s
  | .comm _ | .cli _ | .unknown _ => some r

def initLib (r : Registry H D) (loop : Nat) : Option (Registry H D) :=
  match (r.hndl.slots loop).bind Lib.init with
  | some m => registerMod r m
  | none => some r

def loadLibs (r : Registry H D) : Option (Registry H D) :=
  (List.range r.hndl.cnt).foldlM initLib r

/-- Unlike the server, the client reads `protocols[proto_loop]` without a check. -/
def linkSwitch (protoLoop : Nat) (r : Registry H D) (loop : Nat) : Option (Registry H D) := do
  let p ← deref maxObjects r.protocols protoLoop
  ModuleLoad.linkSwitch p protoLoop r loop

def linkProto (r : Registry H D) (protoLoop : Nat) : Option (Registry H D) :=
  (List.range r.switches.cnt).foldlM (linkSwitch protoLoop) r

def linkAll (r : Registry H D) : Option (Registry H D) :=
  (List.range r.protocols.cnt).foldlM linkProto r

/-- `main` of the client up to the listing of the modules. The directory is read as in the
server. -/
def load (ents : List (DirEnt H D)) : Option (Registry H D) := do
  let r ← readLibs ents initial
  let r ← loadLibs r
  linkAll r

/-- The size of `msg`. -/
def szMsg : Nat := 256

/-- What a handler makes of the message, and the device operations that it calls, where it
returns: it sees the device table of its library. -/
abbrev Handling (H C D : Type) := Table D → H → Buffer szMsg → Option (Buffer szMsg × List C)

variable (call : Handling H C D)

/-- The loop over a message table. The handlers get the message as the rows before left it. -/
def callRows (devs : Table D) : List (Messages H) → Buffer szMsg → Option (List (H × List C))
  | [], _ => some []
  | row :: rows, msg => do
    let h ← row.func
    let (msg', cs) ← call devs h msg
    let hs ← callRows devs rows msg'
    some ((h, cs) :: hs)

def showSwitch (r : Registry H D) (loop : Nat) : Option (Sw D) := deref maxObjects r.switches loop

def callProto (r : Registry H D) (loop : Nat) : Option (List (H × List C)) := do
  let p ← deref maxObjects r.protocols loop
  callRows call (r.devs loop) p.message (zeros szMsg)

/-- `main` of the client. The result is absent where it leaves defined behaviour, and lists the
handlers called, with the device operations of each. -/
def clientMain (ents : List (DirEnt H D)) : Option (List (H × List C)) := do
  let r ← load ents
  let _ ← (List.range r.switches.cnt).mapM (showSwitch r)
  let hss ← (List.range r.protocols.cnt).mapM (callProto call r)
  some hss.flatten

/-- The handlers of a message table return one after the other, the first on the given
message. -/
inductive Goes (devs : Table D) :
    Buffer szMsg → List (Messages H) → List (H × List C) → Prop
  | nil {msg : Buffer szMsg} : Goes devs msg [] []
  | cons {msg msg' : Buffer szMsg} {row : Messages H} {rows : List (Messages H)} {h : H}
      {cs : List C} {hs : List (H × List C)} (hrow : row.func = some h)
      (hcall : call devs h msg = some (msg', cs)) (hrest : Goes devs msg' rows hs) :
      Goes devs msg (row :: rows) ((h, cs) :: hs)

/-- The handlers of a protocol return, with the devices that the switches have for it. -/
def Returns (ss : List (Sw D)) (p : Protocol H) (hs : List (H × List C)) : Prop :=
  Goes call (ofList (linked p ss)) (zeros szMsg) p.message hs

/-- The protocols in the order of their ids, which count them from 0. -/
structure ById (ps qs : List (Protocol H)) : Prop where
  perm : ps.Perm qs
  ids : ps.map Protocol.id = (List.range ps.length).map Int.ofNat

/-- The registry holds what the modules registered. Of two protocols with one id, the later one
is left in the slot. -/
structure Stores (r₀ : Registry H D) (ms : List (Module H D)) (r : Registry H D) : Prop where
  rest : r = { r₀ with switches := r.switches, protocols := r.protocols }
  switches : Holds r.switches (swsOf ms)
  cnt : r.protocols.cnt = (protosOf ms).length
  inside : ∀ p ∈ protosOf ms, 0 ≤ p.id ∧ p.id < maxObjects
  slot : ∀ i : Nat, ∀ p, r.protocols.slots i = some p → p ∈ protosOf ms ∧ p.id = i
  filled : ∀ p ∈ protosOf ms, (r.protocols.slots p.id.toNat).isSome

variable {call} {r r₀ r' : Registry H D} {m : Module H D} {ms : List (Module H D)}
variable {ents : List (DirEnt H D)} {p : Protocol H} {ps qs : List (Protocol H)}

theorem Stores.other {t : Table (Sw D)} (h : Stores r₀ ms r) (hm : m.protocol? = none)
    (ht : Holds t (swsOf (ms ++ [m]))) : Stores r₀ (ms ++ [m]) { r with switches := t } := by
  have hprotos : protosOf (ms ++ [m]) = protosOf ms := by
    rw [protosOf_concat, hm]
    exact List.append_nil _
  constructor
  · rw [h.rest]
  · exact ht
  · rw [hprotos]
    exact h.cnt
  · rw [hprotos]
    exact h.inside
  · rw [hprotos]
    exact h.slot
  · rw [hprotos]
    exact h.filled

theorem registerProto_stores (h : Stores r₀ ms r) (hp : registerProto r p = some r') :
    Stores r₀ (ms ++ [.protocol p]) r' := by
  have hprotos : protosOf (ms ++ [.protocol p]) = protosOf ms ++ [p] := protosOf_concat ms _
  have hsws : swsOf (ms ++ [.protocol p]) = swsOf ms := by
    rw [swsOf_concat]
    exact List.append_nil _
  rw [registerProto] at hp
  split at hp
  · next hid =>
    cases hp
    constructor
    · rw [h.rest]
    · rw [hsws]
      exact h.switches
    · rw [hprotos, List.length_append, ← h.cnt]
      rfl
    · rw [hprotos, List.forall_mem_append, List.forall_mem_singleton]
      exact ⟨h.inside, hid⟩
    · intro i q hq
      rw [hprotos, List.mem_append, List.mem_singleton]
      dsimp only at hq
      rw [Function.update_apply] at hq
      split at hq
      · next hi =>
        cases hq
        exact ⟨Or.inr rfl, by omega⟩
      · obtain ⟨hmem, hidq⟩ := h.slot i q hq
        exact ⟨Or.inl hmem, hidq⟩
    · intro q hq
      dsimp only
      rw [Function.update_apply]
      split
      · rfl
      · next hne =>
        rw [hprotos, List.mem_append, List.mem_singleton] at hq
        obtain hq | rfl := hq
        · exact h.filled q hq
        · exact absurd rfl hne
  · cases hp

theorem registerSw_stores (h : Stores r₀ ms r) {s : Sw D} (hs : registerSw r s = some r') :
    Stores r₀ (ms ++ [.sw s]) r' := by
  obtain ⟨t, ht, rfl⟩ := Option.map_eq_some_iff.mp hs
  have hlt : (swsOf ms).length < maxObjects := by
    rw [← h.switches.cnt_eq]
    by_contra hge
    rw [push, store, if_neg hge] at ht
    cases ht
  obtain ⟨t', ht', hholds⟩ := h.switches.push hlt s
  cases ht.symm.trans ht'
  refine h.other rfl ?_
  rw [swsOf_concat]
  exact hholds

theorem registerMod_stores (h : Stores r₀ ms r) (hm : registerMod r m = some r') :
    Stores r₀ (ms ++ [m]) r' := by
  cases m with
  | protocol p => exact registerProto_stores h hm
  | sw s => exact registerSw_stores h hm
  | comm _ | cli _ | unknown _ =>
    cases hm
    refine h.other rfl ?_
    rw [swsOf_concat]
    exact (List.append_nil (swsOf ms)).symm ▸ h.switches

theorem foldlM_concat (ms : List (Module H D)) (m : Module H D) (r : Registry H D) :
    (ms ++ [m]).foldlM registerMod r =
      (ms.foldlM registerMod r).bind fun r' => registerMod r' m := by
  simp [List.foldlM_append]

theorem stores_init (hs : Holds r₀.switches []) (hp : Holds r₀.protocols []) : Stores r₀ [] r₀ := by
  refine ⟨rfl, hs, hp.cnt_eq, List.forall_mem_nil _, ?_, List.forall_mem_nil _⟩
  intro i p hi
  rw [hp.slot_eq] at hi
  cases hi

theorem registered_stores (h₀ : Stores r₀ [] r₀) (h : ms.foldlM registerMod r₀ = some r) :
    Stores r₀ ms r := by
  induction ms using List.reverseRecOn generalizing r with
  | nil =>
    cases h
    exact h₀
  | append_singleton ms m ih =>
    rw [foldlM_concat] at h
    obtain ⟨r₁, hr₁, hm⟩ := Option.bind_eq_some_iff.mp h
    exact registerMod_stores (ih hr₁) hm

theorem exists_registered (h₀ : Stores r₀ [] r₀) (hlen : ms.length ≤ maxObjects)
    (hids : ∀ p ∈ protosOf ms, 0 ≤ p.id ∧ p.id < maxObjects) :
    ∃ r, ms.foldlM registerMod r₀ = some r := by
  induction ms using List.reverseRecOn with
  | nil => exact ⟨r₀, rfl⟩
  | append_singleton ms m ih =>
    rw [List.length_append, List.length_singleton] at hlen
    rw [protosOf, List.filterMap_append, List.forall_mem_append] at hids
    obtain ⟨r, hr⟩ := ih (by omega) hids.1
    have hstores := registered_stores h₀ hr
    have hm : ∃ r', registerMod r m = some r' := by
      cases m with
      | protocol p => exact ⟨_, if_pos (hids.2 p (List.mem_singleton_self p))⟩
      | sw s =>
        have hle : (swsOf ms).length ≤ ms.length := List.length_filterMap_le _ _
        have hlt : (swsOf ms).length < maxObjects := by omega
        obtain ⟨t, ht, -⟩ := hstores.switches.push hlt s
        exact ⟨_, by rw [registerMod, registerSw, ht]; rfl⟩
      | comm _ | cli _ | unknown _ => exact ⟨r, rfl⟩
    obtain ⟨r', hr'⟩ := hm
    exact ⟨r', by rw [foldlM_concat, hr, Option.bind_some, hr']⟩

theorem initLibs_eq {libs : List (Lib H D)} (hh : Holds r₀.hndl libs) (h₀ : Stores r₀ [] r₀)
    (k : Nat) (hk : k ≤ libs.length) :
    (List.range k).foldlM initLib r₀ =
      ((libs.take k).filterMap Lib.init).foldlM registerMod r₀ := by
  induction k with
  | zero => rfl
  | succ k ih =>
    have htake : libs.take (k + 1) = libs.take k ++ [libs[k]] := (List.take_append_getElem hk).symm
    rw [List.range_succ, List.foldlM_append, ih (by omega), htake, List.filterMap_append]
    cases hr : ((libs.take k).filterMap Lib.init).foldlM registerMod r₀ with
    | none => simp [List.foldlM_append, hr]
    | some r =>
      have hlib : r.hndl.slots k = some libs[k] := by
        rw [(registered_stores h₀ hr).rest, hh.slot_eq, List.getElem?_eq_getElem hk]
      cases hi : libs[k].init <;> simp [List.foldlM_append, hr, initLib, hlib, hi]

theorem loadLibs_eq (hm : Mirrors r₀ (opened ents) [] fun _ => []) :
    loadLibs r₀ = (modules ents).foldlM registerMod r₀ := by
  have h₀ : Stores r₀ [] r₀ := stores_init hm.switches hm.protocols
  rw [loadLibs, hm.hndl.cnt_eq, initLibs_eq hm.hndl h₀ _ (Nat.le_refl _), List.take_length,
    modules]

/-- As many ids as there are protocols, each of them met: none is met twice. -/
theorem byId_of_forall (h : ∀ i < qs.length, ∃ p ∈ qs, p.id = (i : Int)) : ∃ ps, ById ps qs := by
  have hnodup : ((List.range qs.length).map Int.ofNat).Nodup :=
    List.Nodup.map (fun _ _ he => Int.ofNat.inj he) List.nodup_range
  have hsubset : (List.range qs.length).map Int.ofNat ⊆ qs.map Protocol.id := by
    intro v hv
    obtain ⟨i, hi, rfl⟩ := List.mem_map.mp hv
    obtain ⟨p, hp, hid⟩ := h i (List.mem_range.mp hi)
    exact List.mem_map.mpr ⟨p, hp, hid⟩
  have hlen : (qs.map Protocol.id).length ≤ ((List.range qs.length).map Int.ofNat).length := by
    simp
  have hperm := (List.subperm_of_subset hnodup hsubset).perm_of_length_le hlen
  have hcomp := List.eq_map_comp_perm (Protocol.id (H := H))
  obtain ⟨ps, hids, hps⟩ := (iff_of_eq (congrFun (congrFun hcomp _) _)).mpr hperm
  rw [← hps.length_eq] at hids
  exact ⟨ps, hps, hids.symm⟩

theorem ById.id_eq (h : ById ps qs) {i : Nat} (hi : i < ps.length) : ps[i].id = (i : Int) := by
  have hget := congrArg (fun l => l[i]?) h.ids
  simpa [hi] using hget

theorem ById.inside (h : ById ps qs) (hps : ps.length ≤ maxObjects) :
    ∀ p ∈ qs, 0 ≤ p.id ∧ p.id < maxObjects := by
  intro p hp
  obtain ⟨i, hi, rfl⟩ := List.mem_iff_getElem.mp (h.perm.mem_iff.mpr hp)
  rw [h.id_eq hi]
  omega

theorem ById.inj (h : ById ps qs) {p q : Protocol H} (hp : p ∈ qs) (hq : q ∈ qs)
    (hid : p.id = q.id) : p = q := by
  have hnodup : (ps.map Protocol.id).Nodup := by
    rw [h.ids]
    exact List.Nodup.map (fun _ _ he => Int.ofNat.inj he) List.nodup_range
  exact List.inj_on_of_nodup_map hnodup (h.perm.mem_iff.mpr hp) (h.perm.mem_iff.mpr hq) hid

/-- With dense ids, `protocols[]` holds the protocols in the order of their ids. -/
theorem Stores.holds (h : Stores r₀ ms r) (hps : ById ps (protosOf ms)) :
    Holds r.protocols ps := by
  refine ⟨h.cnt.trans hps.perm.length_eq.symm, ?_⟩
  intro i
  by_cases hi : i < ps.length
  · have hmem := hps.perm.mem_iff.mp (List.getElem_mem hi)
    have hfilled := h.filled ps[i] hmem
    rw [hps.id_eq hi, Int.toNat_natCast] at hfilled
    obtain ⟨q, hq⟩ := Option.isSome_iff_exists.mp hfilled
    obtain ⟨hqmem, hqid⟩ := h.slot i q hq
    rw [hq, List.getElem?_eq_getElem hi, hps.inj hqmem hmem (hqid.trans (hps.id_eq hi).symm)]
  · rw [List.getElem?_eq_none (by omega), Option.eq_none_iff_forall_ne_some]
    intro p hp
    obtain ⟨hmem, hid⟩ := h.slot i p hp
    obtain ⟨j, hj, rfl⟩ := List.mem_iff_getElem.mp (hps.perm.mem_iff.mpr hmem)
    rw [hps.id_eq hj] at hid
    omega

def registries (r : Registry H D) : Table (Sw D) × Table (Protocol H) := (r.switches, r.protocols)

theorem linkSwitch_keeps {slot loop : Nat} (h : ModuleLoad.linkSwitch p slot r loop = some r') :
    registries r' = registries r := by
  rw [ModuleLoad.linkSwitch] at h
  split at h
  · cases h
  · split at h
    · cases h
      rfl
    · next d _ =>
      cases hreg : p.registerProto with
      | ignore =>
        rw [hreg] at h
        cases h
        rfl
      | append =>
        rw [hreg] at h
        obtain ⟨t, -, rfl⟩ := Option.map_eq_some_iff.mp h
        rfl

theorem linkProto_keeps {protoLoop : Nat} (h : linkProto r protoLoop = some r') :
    registries r' = registries r := by
  have hswitch : ∀ (r : Registry H D) (loop : Nat) (r' : Registry H D),
      linkSwitch protoLoop r loop = some r' → registries r' = registries r := by
    intro r loop r' hstep
    rw [linkSwitch, Option.bind_eq_bind] at hstep
    obtain ⟨p, -, hp⟩ := Option.bind_eq_some_iff.mp hstep
    exact linkSwitch_keeps hp
  rw [linkProto] at h
  exact foldlM_keeps hswitch h

theorem linkAll_keeps (h : linkAll r = some r') : registries r' = registries r := by
  rw [linkAll] at h
  exact foldlM_keeps (fun _ _ _ => linkProto_keeps) h

/-- Where there is a protocol in the slot, the client links it as the server does. -/
theorem linkProto_eq {protoLoop : Nat} (hp : deref maxObjects r.protocols protoLoop = some p) :
    linkProto r protoLoop = ModuleLoad.linkProto r protoLoop := by
  have hkeeps : ∀ (r : Registry H D) (loop : Nat) (r' : Registry H D),
      ModuleLoad.linkSwitch p protoLoop r loop = some r' → registries r' = registries r :=
    fun _ _ _ => linkSwitch_keeps
  rw [linkProto, ModuleLoad.linkProto, slot_of_deref hp]
  refine foldlM_congr hkeeps ?_ (Eq.refl (registries r))
  intro r₁ loop _ hr₁
  have hprotos : r₁.protocols = r.protocols := congrArg Prod.snd hr₁
  rw [linkSwitch, hprotos, hp, Option.bind_eq_bind, Option.bind_some]

theorem linkAll_eq (hp : Holds r.protocols ps) (hle : ps.length ≤ maxObjects) :
    linkAll r = (List.range ps.length).foldlM ModuleLoad.linkProto r := by
  have hkeeps : ∀ (r : Registry H D) (protoLoop : Nat) (r' : Registry H D),
      ModuleLoad.linkProto r protoLoop = some r' → registries r' = registries r := by
    intro r protoLoop r' h
    rw [ModuleLoad.linkProto] at h
    split at h
    · cases h
      rfl
    · exact foldlM_keeps (fun _ _ _ => linkSwitch_keeps) h
  rw [linkAll, hp.cnt_eq]
  refine foldlM_congr hkeeps ?_ (Eq.refl (registries r))
  intro r₁ protoLoop hmem hr₁
  have hlt : protoLoop < ps.length := List.mem_range.mp hmem
  have hprotos : r₁.protocols = r.protocols := congrArg Prod.snd hr₁
  apply linkProto_eq (p := ps[protoLoop])
  rw [hprotos, deref_slot r.protocols (Nat.lt_of_lt_of_le hlt hle), hp.slot_eq,
    List.getElem?_eq_getElem hlt]

def modulesOf (ss : List (Sw D)) (ps : List (Protocol H)) : List (Module H D) :=
  ss.map .sw ++ ps.map .protocol

theorem swsOf_modulesOf (ss : List (Sw D)) (ps : List (Protocol H)) :
    swsOf (modulesOf ss ps) = ss := by
  simp [modulesOf, swsOf, List.filterMap_append, List.filterMap_map, Function.comp_def]

theorem protosOf_modulesOf (ss : List (Sw D)) (ps : List (Protocol H)) :
    protosOf (modulesOf ss ps) = ps := by
  simp [modulesOf, protosOf, List.filterMap_append, List.filterMap_map, Function.comp_def]

theorem Stores.mirrors (h : Stores r₀ ms r) (hm : Mirrors r₀ (opened ents) [] fun _ => [])
    (hps : ById ps (protosOf ms)) :
    Mirrors r (opened ents) (modulesOf (swsOf ms) ps) fun _ => [] := by
  have hcomms : commsOf (modulesOf (swsOf ms) ps) = [] := by simp [modulesOf, commsOf]
  have hclis : clisOf (modulesOf (swsOf ms) ps) = [] := by simp [modulesOf, clisOf]
  constructor
  · rw [h.rest]
    exact hm.hndl
  · rw [swsOf_modulesOf]
    exact h.switches
  · rw [protosOf_modulesOf]
    exact h.holds hps
  · rw [h.rest, hcomms]
    exact hm.comms
  · rw [h.rest, hclis]
    exact hm.clis
  · rw [h.rest]
    exact hm.devs

/-- Behind the loading, the tables hold the protocols by id, the switches, and for each protocol
the devices that the switches have for it. -/
structure Linked (ss : List (Sw D)) (ps : List (Protocol H)) (r : Registry H D) : Prop where
  switches : Holds r.switches ss
  protocols : Holds r.protocols ps
  devs : ∀ i, ∀ hi : i < ps.length, r.devs i = ofList (linked ps[i] ss)

theorem modules_length (hf : FitsHandles ents) : (modules ents).length ≤ maxObjects :=
  Nat.le_trans (List.length_filterMap_le _ _) (opened_length ents hf)

theorem ById.length_le (h : ById ps (protosOf ms)) (hlen : ms.length ≤ maxObjects) :
    ps.length ≤ maxObjects := by
  rw [h.perm.length_eq]
  exact Nat.le_trans (List.length_filterMap_le _ _) hlen

theorem load_byId (hf : FitsHandles ents) (hps : ById ps (protosOf (modules ents))) :
    ∃ r, load ents = some r ∧ Linked (swsOf (modules ents)) ps r := by
  have hlen := modules_length hf
  have hle := hps.length_le hlen
  obtain ⟨r₀, hr₀, hm⟩ := readLibs_mirrors ents hf
  have h₀ : Stores r₀ [] r₀ := stores_init hm.switches hm.protocols
  obtain ⟨r₁, hr₁⟩ := exists_registered h₀ hlen (hps.inside hle)
  have hstores := registered_stores h₀ hr₁
  have hm₁ := hstores.mirrors hm hps
  have hsws : (swsOf (modulesOf (swsOf (modules ents)) ps)).length ≤ maxObjects := by
    rw [swsOf_modulesOf]
    exact Nat.le_trans (List.length_filterMap_le _ _) hlen
  obtain ⟨r₂, hr₂, hm₂⟩ := linkProtos_mirrors hm₁ hsws _ (Nat.le_refl _)
  rw [protosOf_modulesOf] at hr₂ hm₂
  have hlinked := linkAll_eq (hstores.holds hps) hle
  refine ⟨r₂, ?_, ?_, ?_, ?_⟩
  · simp only [load, hr₀, loadLibs_eq hm, hr₁, hlinked, hr₂, Option.bind_eq_bind,
      Option.bind_some]
  · have h := hm₂.switches
    rwa [swsOf_modulesOf] at h
  · have h := hm₂.protocols
    rwa [protosOf_modulesOf] at h
  · intro i hi
    have h := hm₂.devs i
    rw [swsOf_modulesOf, linkedDevs, if_pos hi, List.getElem?_eq_getElem hi] at h
    exact h.slots_congr ⟨rfl, fun _ => rfl⟩

/-- The loops behind the loading reach a null slot unless the ids are dense. -/
theorem byId_of_load (h : load ents = some r)
    (hall : ∀ i < r.protocols.cnt, ∃ p, deref maxObjects r.protocols i = some p) :
    FitsHandles ents ∧ ∃ ps, ById ps (protosOf (modules ents)) := by
  obtain ⟨r₀, hr₀, h⟩ := Option.bind_eq_some_iff.mp h
  obtain ⟨r₁, hr₁, hlink⟩ := Option.bind_eq_some_iff.mp h
  have hf : FitsHandles ents := by
    by_contra hf
    rw [readLibs_none hf] at hr₀
    cases hr₀
  refine ⟨hf, byId_of_forall ?_⟩
  obtain ⟨r₀', hr₀', hm⟩ := readLibs_mirrors ents hf
  cases hr₀.symm.trans hr₀'
  rw [loadLibs_eq hm] at hr₁
  have hstores := registered_stores (stores_init hm.switches hm.protocols) hr₁
  have hprotos : r.protocols = r₁.protocols := congrArg Prod.snd (linkAll_keeps hlink)
  intro i hi
  rw [hprotos, hstores.cnt] at hall
  obtain ⟨p, hp⟩ := hall i hi
  exact ⟨p, hstores.slot i p (slot_of_deref hp)⟩

theorem callRows_iff {devs : Table D} {rows : List (Messages H)} {msg : Buffer szMsg}
    {hs : List (H × List C)} :
    callRows call devs rows msg = some hs ↔ Goes call devs msg rows hs := by
  induction rows generalizing msg hs with
  | nil =>
    rw [callRows, Option.some.injEq]
    constructor
    · rintro rfl
      exact .nil
    · intro h
      cases h
      rfl
  | cons row rows ih =>
    rw [callRows, Option.bind_eq_bind]
    constructor
    · intro h
      obtain ⟨f, hrow, h⟩ := Option.bind_eq_some_iff.mp h
      obtain ⟨⟨msg', cs⟩, hcall, h⟩ := Option.bind_eq_some_iff.mp h
      obtain ⟨hs', hrest, heq⟩ := Option.bind_eq_some_iff.mp h
      cases heq
      exact .cons hrow hcall (ih.mp hrest)
    · intro h
      cases h with
      | cons hrow hcall hrest =>
        rw [hrow, Option.bind_some, hcall]
        simp only [Option.bind_eq_bind, Option.bind_some, ih.mpr hrest]

theorem Linked.callProto_iff {ss : List (Sw D)} (h : Linked ss ps r) (hle : ps.length ≤ maxObjects)
    {i : Nat} (hi : i < ps.length) {hs : List (H × List C)} :
    callProto call r i = some hs ↔ Returns call ss ps[i] hs := by
  have hp : deref maxObjects r.protocols i = some ps[i] := by
    rw [deref_slot r.protocols (Nat.lt_of_lt_of_le hi hle), h.protocols.slot_eq,
      List.getElem?_eq_getElem hi]
  rw [callProto, hp, Option.bind_eq_bind, Option.bind_some, h.devs i hi, callRows_iff, Returns]

theorem Linked.calls_iff {ss : List (Sw D)} (h : Linked ss ps r) (hle : ps.length ≤ maxObjects)
    {hss : List (List (H × List C))} :
    (List.range r.protocols.cnt).mapM (callProto call r) = some hss ↔
      List.Forall₂ (Returns call ss) ps hss := by
  rw [mapM_range_iff, List.forall₂_iff_get, h.protocols.cnt_eq, eq_comm]
  refine and_congr_right fun hlen => ?_
  constructor
  · intro hall i hi hi'
    exact (h.callProto_iff hle hi).mp (hall i hi')
  · intro hall i hi'
    rw [← hlen] at hi'
    exact (h.callProto_iff hle hi').mpr (hall i hi' (hlen ▸ hi'))

theorem Linked.shows {ss : List (Sw D)} (h : Linked ss ps r) (hle : ss.length ≤ maxObjects) :
    (List.range r.switches.cnt).mapM (showSwitch r) = some ss := by
  rw [mapM_range_iff, h.switches.cnt_eq]
  refine ⟨rfl, fun i hi => ?_⟩
  rw [showSwitch, deref_slot r.switches (Nat.lt_of_lt_of_le hi hle), h.switches.slot_eq,
    List.getElem?_eq_getElem hi]

theorem clientMain_eq_some {es : List (H × List C)} :
    clientMain call ents = some es ↔ ∃ r ss hss, load ents = some r ∧
      (List.range r.switches.cnt).mapM (showSwitch r) = some ss ∧
      (List.range r.protocols.cnt).mapM (callProto call r) = some hss ∧ hss.flatten = es := by
  simp only [clientMain, Option.bind_eq_bind, Option.bind_eq_some_iff, Option.some.injEq]
  constructor
  · rintro ⟨r, hload, ss, hss, hs, hcalls, heq⟩
    exact ⟨r, ss, hs, hload, hss, hcalls, heq⟩
  · rintro ⟨r, ss, hs, hload, hss, hcalls, heq⟩
    exact ⟨r, hload, ss, hss, hs, hcalls, heq⟩

/-- `main` of the client comes to its end exactly when the handles fit, the ids of the protocols
are those below their number, each once, and all handlers return: it counts the protocols, but
stores them by id. The handlers have then been called in the order of the ids and of the message
tables. -/
theorem clientMain_iff (call : Handling H C D) (ents : List (DirEnt H D))
    (es : List (H × List C)) :
    clientMain call ents = some es ↔
      FitsHandles ents ∧ ∃ ps hss, ById ps (protosOf (modules ents)) ∧
        List.Forall₂ (Returns call (swsOf (modules ents))) ps hss ∧ hss.flatten = es := by
  rw [clientMain_eq_some]
  constructor
  · rintro ⟨r, ss, hss, hload, -, hcalls, rfl⟩
    have hall : ∀ i < r.protocols.cnt, ∃ p, deref maxObjects r.protocols i = some p := by
      intro i hi
      obtain ⟨hlen, hall⟩ := mapM_range_iff.mp hcalls
      have hcall := hall i (by omega)
      rw [callProto, Option.bind_eq_bind] at hcall
      obtain ⟨p, hp, -⟩ := Option.bind_eq_some_iff.mp hcall
      exact ⟨p, hp⟩
    obtain ⟨hf, ps, hps⟩ := byId_of_load hload hall
    obtain ⟨r', hload', hlinked⟩ := load_byId hf hps
    cases hload.symm.trans hload'
    exact ⟨hf, ps, hss, hps, (hlinked.calls_iff (hps.length_le (modules_length hf))).mp hcalls,
      rfl⟩
  · rintro ⟨hf, ps, hss, hps, hall, rfl⟩
    have hlen := modules_length hf
    obtain ⟨r, hload, hlinked⟩ := load_byId hf hps
    have hle : (swsOf (modules ents)).length ≤ maxObjects :=
      Nat.le_trans (List.length_filterMap_le _ _) hlen
    exact ⟨r, _, hss, hload, hlinked.shows hle, (hlinked.calls_iff (hps.length_le hlen)).mpr hall,
      rfl⟩

/-- The handlers of the libraries look at no byte behind `msg`, and write none. -/
def paramOf (msg : Buffer szMsg) : Param :=
  put (zeros (szBuf - szHdr)) 0 msg.bytes (by rw [msg.length_eq]; decide)

def libHandling (devs : Table D) (h : Handler) (msg : Buffer szMsg) :
    Option (Buffer szMsg × List (DevCall D)) :=
  match runHandler { initial with devs := fun _ => devs } 0 h (paramOf msg) with
  | .ok reply => some (msg, reply.calls)
  | .error _ => none

/-- The libraries of the repository, the flow protocol under the id 0. -/
def renumbered : List (DirEnt Handler StubDev) :=
  [⟨"lib_bridge.so".toList, some libBridge⟩, ⟨"lib_asic.so".toList, some libAsic⟩,
    ⟨"lib_flow.so".toList, some ⟨some (.protocol { flow with id := 0 })⟩⟩,
    ⟨"lib_flow_stub.so".toList, some libFlowStub⟩]

theorem renumbered_main : ∃ es, clientMain libHandling renumbered = some es ∧
    FitsHandles renumbered ∧ ∃ ps hss, ById ps (protosOf (modules renumbered)) ∧
      List.Forall₂ (Returns libHandling (swsOf (modules renumbered))) ps hss ∧ hss.flatten = es :=
  ⟨_, rfl, (clientMain_iff libHandling renumbered _).mp rfl⟩

-- Without its switch, a handler of the flow module follows a null pointer.
example : clientMain libHandling (renumbered.take 3) = none := rfl

-- The ids that the repository's protocols really have begin with 1.
example : clientMain libHandling stubDirBridgeFirst = none := rfl

end LibSwitch.ClientMain

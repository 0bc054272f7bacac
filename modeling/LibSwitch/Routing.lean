import LibSwitch.LoadedModules
import LibSwitch.StubLibraries

namespace LibSwitch.Routing

open LibSwitch.PointerTable LibSwitch.ByteOrder LibSwitch.ByteBuffer LibSwitch.Common
open LibSwitch.ModuleLoad LibSwitch.LoadedModules LibSwitch.SockComm LibSwitch.Handlers
open LibSwitch.StubLibraries

variable {H D : Type}

/-- Once the program is loaded, the session hands the message to a registered protocol of the
type in its header, and to no protocol only if none has that type. -/
def Routed (f : AppFuncs H) (ents : List (DirEnt H D)) (msg : Msg) : Prop :=
  ∃ r, load f ents = some r ∧ ∃ target, dispatch r.protocols (hdrType msg) = .ok target ∧
    match target with
    | some p => p ∈ registered f ents ∧ p.type = hdrType msg
    | none => ∀ p ∈ registered f ents, p.type ≠ hdrType msg

/-- The position of registration at the message type agrees with the type itself. -/
def AgreesAt (ps : List (Protocol H)) (type : Int) : Prop :=
  (∀ p, ps[type.toNat]? = some p → p.type = type) ∧
    (ps.length ≤ type.toNat → ∀ p ∈ ps, p.type ≠ type)

theorem load_protocols (f : AppFuncs H) {ents : List (DirEnt H D)} (hf : FitsHandles ents)
    (hp : (protosOf (modules ents)).length < maxObjects) :
    ∃ r, load f ents = some r ∧ Holds r.protocols (registered f ents) := by
  obtain ⟨r, hr, hm⟩ := load_mirrors f ents hf hp
  exact ⟨r, hr, by simpa [registered] using hm.protocols⟩

theorem routed_msg_iff (f : AppFuncs H) (ents : List (DirEnt H D))
    (hp : (protosOf (modules ents)).length < maxObjects) (msg : Msg) :
    Routed f ents msg ↔ FitsHandles ents ∧ 0 ≤ hdrType msg ∧ hdrType msg < maxObjects ∧
      AgreesAt (registered f ents) (hdrType msg) := by
  by_cases hf : FitsHandles ents
  · obtain ⟨r, hr, hh⟩ := load_protocols f hf hp
    by_cases ht : 0 ≤ hdrType msg ∧ hdrType msg < maxObjects
    · have hd := dispatch_holds hh ht.1 ht.2
      constructor
      · rintro ⟨r', hr', target, htarget, hroute⟩
        obtain rfl : r = r' := Option.some.inj (hr.symm.trans hr')
        rw [hd] at htarget
        cases htarget
        refine ⟨hf, ht.1, ht.2, ?_, ?_⟩
        · intro p hpos
          rw [hpos] at hroute
          exact hroute.2
        · intro hlen
          rwa [List.getElem?_eq_none hlen] at hroute
      · rintro ⟨-, -, -, hpos, hfree⟩
        refine ⟨r, hr, _, hd, ?_⟩
        cases hs : (registered f ents)[(hdrType msg).toNat]? with
        | some p => exact ⟨List.mem_of_getElem? hs, hpos p hs⟩
        | none => exact hfree (List.getElem?_eq_none_iff.mp hs)
    · constructor
      · rintro ⟨r', -, target, htarget, -⟩
        rw [dispatch_outside r'.protocols ht] at htarget
        cases htarget
      · rintro ⟨-, h0, hc, -⟩
        exact absurd ⟨h0, hc⟩ ht
  · constructor
    · rintro ⟨r, hr, -⟩
      rw [load_none f hf] at hr
      cases hr
    · exact fun h => absurd h.1 hf

theorem exists_hdrType {t : Int} (h0 : 0 ≤ t) (hc : t < maxObjects) :
    ∃ msg, hdrType msg = t := by
  rw [maxObjects] at hc
  refine ⟨put (zeros szBuf) 0 (intBytes t) (by rw [length_intBytes]; decide), ?_⟩
  rw [hdrType]
  apply intAt_put_self
  · omega
  · omega

/-- Only without protocol modules is the main application, of type 0, at position 0. -/
theorem agreesAt_all_iff (f : AppFuncs H) (ents : List (DirEnt H D))
    (hp : (protosOf (modules ents)).length < maxObjects) :
    (∀ t : Int, 0 ≤ t → t < maxObjects → AgreesAt (registered f ents) t) ↔
      protosOf (modules ents) = [] := by
  constructor
  · intro h
    have happ : (registered f ents)[(protosOf (modules ents)).length]? = some (appMain f) := by
      simp [registered]
    have htype := (h (protosOf (modules ents)).length (by omega) (by omega)).1 (appMain f) happ
    change (0 : Int) = _ at htype
    exact List.length_eq_zero_iff.mp (by omega)
  · intro hnil t h0 _
    rw [registered, hnil, List.nil_append]
    constructor
    · intro p hpos
      obtain ⟨hlt, rfl⟩ := List.getElem?_eq_some_iff.mp hpos
      rw [List.length_singleton] at hlt
      rw [List.getElem_singleton]
      change (0 : Int) = t
      omega
    · intro hlen p hmem
      rw [List.length_singleton] at hlen
      rw [List.mem_singleton.mp hmem]
      change (0 : Int) ≠ t
      omega

/-- A message is routed by its type exactly when the load order put the protocol of that type
at that position. The main application is registered last, so this holds of all message types
exactly when no protocol module is loaded. -/
theorem routed_iff (f : AppFuncs H) (ents : List (DirEnt H D))
    (hp : (protosOf (modules ents)).length < maxObjects) :
    (∀ msg, Routed f ents msg ↔
      FitsHandles ents ∧ 0 ≤ hdrType msg ∧ hdrType msg < maxObjects ∧
        AgreesAt (registered f ents) (hdrType msg)) ∧
    ((∀ msg, 0 ≤ hdrType msg → hdrType msg < maxObjects → Routed f ents msg) ↔
      FitsHandles ents ∧ protosOf (modules ents) = []) := by
  refine ⟨routed_msg_iff f ents hp, ?_⟩
  rw [← agreesAt_all_iff f ents hp]
  constructor
  · intro h
    have hmsg {t : Int} (h0 : 0 ≤ t) (hc : t < maxObjects) :
        FitsHandles ents ∧ AgreesAt (registered f ents) t := by
      obtain ⟨msg, rfl⟩ := exists_hdrType h0 hc
      obtain ⟨hf, -, -, ha⟩ := (routed_msg_iff f ents hp msg).mp (h msg h0 hc)
      exact ⟨hf, ha⟩
    exact ⟨(hmsg (Int.le_refl 0) (by decide)).1, fun t h0 hc => (hmsg h0 hc).2⟩
  · rintro ⟨hf, ha⟩ msg h0 hc
    exact (routed_msg_iff f ents hp msg).mpr ⟨hf, h0, hc, ha _ h0 hc⟩

theorem hdrType_zeros : hdrType (zeros szBuf) = protocolApp := by decide +kernel

theorem routed_bareDir : Routed appFuncs bareDir (zeros szBuf) :=
  (routed_iff appFuncs bareDir (by decide)).2.mpr
    ⟨fitsHandles_of_length (by decide), by rfl⟩ (zeros szBuf)
    (by rw [hdrType_zeros]; decide) (by rw [hdrType_zeros]; decide)

theorem app_message_misrouted :
    ((registered appFuncs stubDir).map Protocol.type).Nodup ∧
      (protosOf (modules stubDir)).length < maxObjects ∧
      hdrType (zeros szBuf) = protocolApp ∧ ¬ Routed appFuncs stubDir (zeros szBuf) := by
  have hp : (protosOf (modules stubDir)).length < maxObjects := by decide
  refine ⟨by decide, hp, hdrType_zeros, ?_⟩
  intro h
  obtain ⟨-, -, -, hpos, -⟩ := (routed_msg_iff appFuncs stubDir hp _).mp h
  rw [hdrType_zeros] at hpos
  have htype := hpos flow rfl
  exact absurd htype (by decide)

end LibSwitch.Routing

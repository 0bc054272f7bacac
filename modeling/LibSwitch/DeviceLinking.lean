import LibSwitch.LoadedModules
import LibSwitch.StubLibraries

namespace LibSwitch.DeviceLinking

open LibSwitch.PointerTable LibSwitch.Common LibSwitch.ModuleLoad LibSwitch.LoadedModules
open LibSwitch.Handlers LibSwitch.StubLibraries

variable {H D : Type}

/-- The program has loaded and linked the directory: the handles are the opened libraries, each
registry stores the modules of its kind in load order, and every protocol with a device table
was given the devices of the switches that support it. -/
structure Linked (f : AppFuncs H) (ents : List (DirEnt H D)) (r : Registry H D) : Prop where
  hndl : Holds r.hndl (opened ents)
  switches : Holds r.switches (swsOf (modules ents))
  protocols : Holds r.protocols (protosOf (modules ents) ++ [appMain f])
  comms : Holds r.commMods (commsOf (modules ents))
  clis : Holds r.cliMods (clisOf (modules ents))
  devs : ∀ slot p, r.protocols.slots slot = some p → p.registerProto = .append →
    Holds (r.devs slot) ((swsOf (modules ents)).filterMap fun s => s.protoRegFunc p.type)

theorem protosOf_length_lt {ents : List (DirEnt H D)}
    (h : (ents.filter fun e => soName e.name).length < maxObjects) :
    (protosOf (modules ents)).length < maxObjects := by
  have hp : (protosOf (modules ents)).length ≤ (modules ents).length :=
    List.length_filterMap_le _ _
  have hm : (modules ents).length ≤ (opened ents).length := List.length_filterMap_le _ _
  have ho := opened_length_le ents
  omega

theorem load_linked (f : AppFuncs H) (ents : List (DirEnt H D)) (hf : FitsHandles ents)
    (hp : (protosOf (modules ents)).length < maxObjects) :
    ∃ r, load f ents = some r ∧ Linked f ents r := by
  obtain ⟨r, hr, hm⟩ := load_mirrors f ents hf hp
  refine ⟨r, hr, hm.hndl, by simpa using hm.switches, by simpa using hm.protocols,
    by simpa using hm.comms, by simpa using hm.clis, ?_⟩
  intro slot p hslot hreg
  have hps : (registered f ents)[slot]? = some p := by
    rw [← hslot, hm.protocols.slot_eq]
    simp [registered]
  simpa [hps, linked, hreg] using hm.devs slot

theorem Linked.devs_eq {f : AppFuncs H} {ents ents' : List (DirEnt H D)} {r r' : Registry H D}
    (h : Linked f ents r) (h' : Linked f ents' r')
    (hsw : swsOf (modules ents) = swsOf (modules ents')) {slot slot' : Nat}
    {p p' : Protocol H} (hs : r.protocols.slots slot = some p)
    (hs' : r'.protocols.slots slot' = some p') (hreg : p.registerProto = .append)
    (hreg' : p'.registerProto = .append) (htype : p.type = p'.type) :
    r.devs slot = r'.devs slot' := by
  have hd := h.devs slot p hs hreg
  rw [hsw, htype] at hd
  exact hd.slots_congr (h'.devs slot' p' hs' hreg')

end LibSwitch.DeviceLinking

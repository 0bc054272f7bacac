import Mathlib.Data.List.Induction
import LibSwitch.ModuleLoad

namespace LibSwitch.LoadedModules

open LibSwitch.PointerTable LibSwitch.Common LibSwitch.ModuleLoad

variable {H D : Type}

def opened (ents : List (DirEnt H D)) : List (Lib H D) :=
  ents.filterMap fun e => if soName e.name then e.dlopen else none

/-- The modules in load order: one for each opened library that has an `init` symbol. -/
def modules (ents : List (DirEnt H D)) : List (Module H D) := (opened ents).filterMap Lib.init

def swsOf (ms : List (Module H D)) : List (Sw D) := ms.filterMap Module.sw?

def protosOf (ms : List (Module H D)) : List (Protocol H) := ms.filterMap Module.protocol?

def commsOf (ms : List (Module H D)) : List Comm := ms.filterMap Module.comm?

def clisOf (ms : List (Module H D)) : List Cli := ms.filterMap Module.cli?

def linked (p : Protocol H) (ss : List (Sw D)) : List D :=
  match p.registerProto with
  | .append => ss.filterMap fun s => s.protoRegFunc p.type
  | .ignore => []

/-- The tables of the program store the opened libraries, the modules registered so far, each
in the registry of its kind, and the devices linked so far. -/
structure Mirrors (r : Registry H D) (libs : List (Lib H D)) (ms : List (Module H D))
    (devs : Nat → List D) : Prop where
  hndl : Holds r.hndl libs
  switches : Holds r.switches (swsOf ms)
  protocols : Holds r.protocols (protosOf ms)
  comms : Holds r.commMods (commsOf ms)
  clis : Holds r.cliMods (clisOf ms)
  devs : ∀ slot, Holds (r.devs slot) (devs slot)

theorem mirrors_initial : Mirrors (initial : Registry H D) [] [] fun _ => [] :=
  ⟨holds_empty, holds_empty, holds_empty, holds_empty, holds_empty, fun _ => holds_empty⟩

theorem opened_append (es : List (DirEnt H D)) (e : DirEnt H D) :
    opened (es ++ [e]) = opened es ++ opened [e] := List.filterMap_append

theorem opened_of_not_so {e : DirEnt H D} (h : soName e.name = false) : opened [e] = [] := by
  simp [opened, h]

theorem opened_of_so {e : DirEnt H D} (h : soName e.name = true) :
    opened [e] = e.dlopen.toList := by
  cases hd : e.dlopen <;> simp [opened, h, hd]

/-- No entry named like a library is met once all the handles are in use. -/
def FitsHandles (ents : List (DirEnt H D)) : Prop :=
  ∀ es e rest, ents = es ++ e :: rest → soName e.name = true → (opened es).length < maxObjects

theorem fitsHandles_append {es : List (DirEnt H D)} {e : DirEnt H D} :
    FitsHandles (es ++ [e]) ↔
      FitsHandles es ∧ (soName e.name = true → (opened es).length < maxObjects) := by
  constructor
  · intro h
    refine ⟨fun l a rest he => h l a (rest ++ [e]) (by rw [he]; simp), h es e [] rfl⟩
  · rintro ⟨hes, he⟩ l a rest heq hso
    obtain rfl | ⟨rest', b, rfl⟩ := List.eq_nil_or_concat rest
    · obtain ⟨rfl, hb⟩ := List.append_inj' heq rfl
      cases hb
      exact he hso
    · have hcat : es ++ [e] = (l ++ a :: rest') ++ [b] := by rw [heq]; simp
      exact hes l a rest' (List.append_inj' hcat rfl).1 hso

theorem opened_length_le (ents : List (DirEnt H D)) :
    (opened ents).length ≤ (ents.filter fun e => soName e.name).length := by
  induction ents using List.reverseRecOn with
  | nil => exact Nat.le_refl 0
  | append_singleton es e ih =>
    rw [opened_append, List.filter_append, List.length_append, List.length_append]
    cases hso : soName e.name with
    | false => simpa [opened_of_not_so hso, hso] using ih
    | true =>
      rw [opened_of_so hso]
      cases e.dlopen <;> simp [hso] <;> omega

theorem fitsHandles_of_length {ents : List (DirEnt H D)}
    (h : (ents.filter fun e => soName e.name).length ≤ maxObjects) : FitsHandles ents := by
  rintro es e rest rfl hso
  have hle := opened_length_le es
  rw [List.filter_append, List.length_append, List.filter_cons, hso, if_pos rfl,
    List.length_cons] at h
  omega

theorem readEnt_mirrors {r : Registry H D} {libs : List (Lib H D)} {ms : List (Module H D)}
    {devs : Nat → List D} (h : Mirrors r libs ms devs) (e : DirEnt H D)
    (hc : soName e.name = true → libs.length < maxObjects) :
    ∃ r', readEnt r e = some r' ∧ Mirrors r' (libs ++ opened [e]) ms devs := by
  cases hso : soName e.name with
  | false =>
    refine ⟨r, by rw [readEnt, hso]; rfl, ?_⟩
    rwa [opened_of_not_so hso, List.append_nil]
  | true =>
    rw [opened_of_so hso]
    cases hd : e.dlopen with
    | none =>
      refine ⟨r, ?_, by simpa using h⟩
      rw [readEnt, hso, hd, if_pos rfl, h.hndl.store_none (hc hso)]
      rfl
    | some lib =>
      obtain ⟨t, ht, hh⟩ := h.hndl.push (hc hso) lib
      refine ⟨{ r with hndl := t }, ?_, ⟨hh, h.switches, h.protocols, h.comms, h.clis, h.devs⟩⟩
      rw [PointerTable.push, Option.map_eq_some_iff] at ht
      obtain ⟨u, hu, rfl⟩ := ht
      rw [readEnt, hso, hd, if_pos rfl, hu]
      rfl

theorem readEnt_full {r : Registry H D} {libs : List (Lib H D)} (h : Holds r.hndl libs)
    {e : DirEnt H D} (hso : soName e.name = true) (hc : maxObjects ≤ libs.length) :
    readEnt r e = none := by
  rw [readEnt, hso, if_pos rfl, store_eq_none.mpr (by rw [h.cnt_eq]; exact hc), Option.map_none]

theorem readLibs_append (es : List (DirEnt H D)) (e : DirEnt H D) (r : Registry H D) :
    readLibs (es ++ [e]) r = (readLibs es r).bind fun r' => readEnt r' e := by
  rw [readLibs, List.foldlM_append]
  cases h : es.foldlM readEnt r <;> simp [readLibs, h]

theorem readLibs_mirrors (ents : List (DirEnt H D)) (h : FitsHandles ents) :
    ∃ r, readLibs ents initial = some r ∧ Mirrors r (opened ents) [] fun _ => [] := by
  induction ents using List.reverseRecOn with
  | nil => exact ⟨initial, rfl, mirrors_initial⟩
  | append_singleton es e ih =>
    obtain ⟨hes, he⟩ := fitsHandles_append.mp h
    obtain ⟨r, hr, hm⟩ := ih hes
    obtain ⟨r', hr', hm'⟩ := readEnt_mirrors hm e he
    exact ⟨r', by rw [readLibs_append, hr, Option.bind_some, hr'], by rwa [opened_append]⟩

theorem readLibs_none {ents : List (DirEnt H D)} (h : ¬ FitsHandles ents) :
    readLibs ents (initial : Registry H D) = none := by
  induction ents using List.reverseRecOn with
  | nil => exact absurd (fun es e rest he => by simp at he) h
  | append_singleton es e ih =>
    rw [readLibs_append]
    by_cases hes : FitsHandles es
    · have he : ¬ (soName e.name = true → (opened es).length < maxObjects) :=
        fun he => h (fitsHandles_append.mpr ⟨hes, he⟩)
      obtain ⟨r, hr, hm⟩ := readLibs_mirrors es hes
      rw [hr, Option.bind_some]
      exact readEnt_full hm.hndl (by grind) (by grind)
    · rw [ih hes, Option.bind_none]

def Room (ms : List (Module H D)) : Module H D → Prop
  | .sw _ => (swsOf ms).length < maxObjects
  | .protocol _ => (protosOf ms).length < maxObjects
  | .comm _ => (commsOf ms).length < maxObjects
  | .cli _ => (clisOf ms).length < maxObjects
  | .unknown _ => True

theorem room_of_length {ms : List (Module H D)} (h : ms.length < maxObjects)
    (m : Module H D) : Room ms m := by
  have hk {α : Type} (k : Module H D → Option α) : (ms.filterMap k).length < maxObjects :=
    Nat.lt_of_le_of_lt (List.length_filterMap_le k ms) h
  cases m with
  | unknown t => trivial
  | _ => exact hk _

theorem filterMap_concat {α : Type} (k : Module H D → Option α) (ms : List (Module H D))
    (m : Module H D) : (ms ++ [m]).filterMap k = ms.filterMap k ++ (k m).toList := by
  cases hm : k m <;> simp [List.filterMap_append, hm]

@[simp] theorem swsOf_concat (ms : List (Module H D)) (m : Module H D) :
    swsOf (ms ++ [m]) = swsOf ms ++ m.sw?.toList := filterMap_concat _ ms m

@[simp] theorem protosOf_concat (ms : List (Module H D)) (m : Module H D) :
    protosOf (ms ++ [m]) = protosOf ms ++ m.protocol?.toList := filterMap_concat _ ms m

@[simp] theorem commsOf_concat (ms : List (Module H D)) (m : Module H D) :
    commsOf (ms ++ [m]) = commsOf ms ++ m.comm?.toList := filterMap_concat _ ms m

@[simp] theorem clisOf_concat (ms : List (Module H D)) (m : Module H D) :
    clisOf (ms ++ [m]) = clisOf ms ++ m.cli?.toList := filterMap_concat _ ms m

theorem registerMod_mirrors {r : Registry H D} {libs : List (Lib H D)} {ms : List (Module H D)}
    {devs : Nat → List D} (h : Mirrors r libs ms devs) (m : Module H D) (hr : Room ms m) :
    ∃ r', registerMod r m = some r' ∧ Mirrors r' libs (ms ++ [m]) devs := by
  cases m with
  | sw s =>
    obtain ⟨t, ht, hh⟩ := h.switches.push hr s
    exact ⟨{ r with switches := t }, by simp [registerMod, registerSw, ht], h.hndl,
      by simpa using hh, by simpa using h.protocols, by simpa using h.comms,
      by simpa using h.clis, h.devs⟩
  | protocol p =>
    obtain ⟨t, ht, hh⟩ := h.protocols.push hr p
    exact ⟨{ r with protocols := t }, by simp [registerMod, registerProto, ht], h.hndl,
      by simpa using h.switches, by simpa using hh, by simpa using h.comms,
      by simpa using h.clis, h.devs⟩
  | comm c =>
    obtain ⟨t, ht, hh⟩ := h.comms.push hr c
    exact ⟨{ r with commMods := t }, by simp [registerMod, registerComm, ht], h.hndl,
      by simpa using h.switches, by simpa using h.protocols, by simpa using hh,
      by simpa using h.clis, h.devs⟩
  | cli c =>
    obtain ⟨t, ht, hh⟩ := h.clis.push hr c
    exact ⟨{ r with cliMods := t }, by simp [registerMod, registerCli, ht], h.hndl,
      by simpa using h.switches, by simpa using h.protocols, by simpa using h.comms,
      by simpa using hh, h.devs⟩
  | unknown type =>
    exact ⟨r, rfl, h.hndl, by simpa using h.switches, by simpa using h.protocols,
      by simpa using h.comms, by simpa using h.clis, h.devs⟩

theorem initLibs_mirrors {r : Registry H D} {libs : List (Lib H D)}
    (h : Mirrors r libs [] fun _ => []) (hl : libs.length ≤ maxObjects) (k : Nat)
    (hk : k ≤ libs.length) :
    ∃ r', (List.range k).foldlM initLib r = some r' ∧
      Mirrors r' libs ((libs.take k).filterMap Lib.init) fun _ => [] := by
  induction k with
  | zero => exact ⟨r, rfl, h⟩
  | succ k ih =>
    obtain ⟨r', hr', hm⟩ := ih (by omega)
    have hlib : r'.hndl.slots k = some libs[k] := by
      rw [hm.hndl.slot_eq, List.getElem?_eq_getElem hk]
    have htake : libs.take (k + 1) = libs.take k ++ [libs[k]] := (List.take_append_getElem hk).symm
    rw [List.range_succ, List.foldlM_append, hr', htake, List.filterMap_append]
    cases hi : libs[k].init with
    | none =>
      refine ⟨r', ?_, by simpa [hi] using hm⟩
      simp [initLib, hlib, hi]
    | some m =>
      have hlen : ((libs.take k).filterMap Lib.init).length < maxObjects := by
        have := List.length_filterMap_le Lib.init (libs.take k)
        rw [List.length_take] at this
        omega
      obtain ⟨r'', hr'', hm''⟩ := registerMod_mirrors hm m (room_of_length hlen m)
      refine ⟨r'', ?_, by simpa [hi] using hm''⟩
      simp [initLib, hlib, hi, hr'']

theorem loadLibs_mirrors {r : Registry H D} {libs : List (Lib H D)}
    (h : Mirrors r libs [] fun _ => []) (hl : libs.length ≤ maxObjects) :
    ∃ r', loadLibs r = some r' ∧ Mirrors r' libs (libs.filterMap Lib.init) fun _ => [] := by
  obtain ⟨r', hr', hm⟩ := initLibs_mirrors h hl libs.length (Nat.le_refl _)
  exact ⟨r', by rw [loadLibs, h.hndl.cnt_eq, hr'], by rwa [List.take_length] at hm⟩

theorem linked_ignore {p : Protocol H} (h : p.registerProto = .ignore) (ss : List (Sw D)) :
    linked p ss = [] := by
  rw [linked, h]

theorem linked_concat {p : Protocol H} (h : p.registerProto = .append) (ss : List (Sw D))
    (s : Sw D) : linked p (ss ++ [s]) = linked p ss ++ (s.protoRegFunc p.type).toList := by
  rw [linked, linked, h]
  cases hp : s.protoRegFunc p.type <;> simp [List.filterMap_append, hp]

theorem linked_length (p : Protocol H) (ss : List (Sw D)) : (linked p ss).length ≤ ss.length := by
  cases h : p.registerProto with
  | ignore => simp [linked_ignore h]
  | append => simpa only [linked, h] using List.length_filterMap_le _ ss

theorem linkSwitch_mirrors {r : Registry H D} {libs : List (Lib H D)} {ms : List (Module H D)}
    {devs : Nat → List D} {p : Protocol H} {slot k : Nat} {ss : List (Sw D)} {sw : Sw D}
    (h : Mirrors r libs ms (Function.update devs slot (linked p ss)))
    (hsw : r.switches.slots k = some sw) (hs : ss.length < maxObjects) :
    ∃ r', linkSwitch p slot r k = some r' ∧
      Mirrors r' libs ms (Function.update devs slot (linked p (ss ++ [sw]))) := by
  cases hreg : p.registerProto with
  | ignore =>
    rw [linked_ignore hreg] at h ⊢
    refine ⟨r, ?_, h⟩
    cases hp : sw.protoRegFunc p.type <;> simp [linkSwitch, hsw, hp, hreg, registerDev]
  | append =>
    rw [linked_concat hreg]
    cases hp : sw.protoRegFunc p.type with
    | none =>
      refine ⟨r, by simp [linkSwitch, hsw, hp], ?_⟩
      rwa [Option.toList_none, List.append_nil]
    | some d =>
      have hdev := h.devs slot
      rw [Function.update_self] at hdev
      have hroom : (linked p ss).length < maxObjects := Nat.lt_of_le_of_lt (linked_length p ss) hs
      obtain ⟨t, ht, hh⟩ := hdev.push hroom d
      refine ⟨{ r with devs := Function.update r.devs slot t },
        by simp [linkSwitch, hsw, hp, hreg, registerDev, ht], h.hndl, h.switches,
        h.protocols, h.comms, h.clis, ?_⟩
      intro i
      dsimp only
      by_cases hi : i = slot
      · subst hi
        rw [Function.update_self, Function.update_self]
        exact hh
      · rw [Function.update_of_ne hi, Function.update_of_ne hi]
        simpa only [Function.update_of_ne hi] using h.devs i

theorem linkSwitches_mirrors {r : Registry H D} {libs : List (Lib H D)}
    {ms : List (Module H D)} {devs : Nat → List D} (h : Mirrors r libs ms devs)
    (p : Protocol H) (slot : Nat) (hd : devs slot = [])
    (hs : (swsOf ms).length ≤ maxObjects) (k : Nat) (hk : k ≤ (swsOf ms).length) :
    ∃ r', (List.range k).foldlM (linkSwitch p slot) r = some r' ∧
      Mirrors r' libs ms (Function.update devs slot (linked p ((swsOf ms).take k))) := by
  induction k with
  | zero =>
    refine ⟨r, rfl, ?_⟩
    have hnil : linked p ((swsOf ms).take 0) = devs slot := by
      rw [hd, List.take_zero, linked]
      cases p.registerProto <;> rfl
    rwa [hnil, Function.update_eq_self]
  | succ k ih =>
    obtain ⟨r', hr', hm⟩ := ih (by omega)
    have hsw : r'.switches.slots k = some (swsOf ms)[k] := by
      rw [hm.switches.slot_eq, List.getElem?_eq_getElem hk]
    have hroom : ((swsOf ms).take k).length < maxObjects := by
      rw [List.length_take]
      omega
    obtain ⟨r'', hr'', hm'⟩ := linkSwitch_mirrors hm hsw hroom
    rw [List.take_append_getElem hk] at hm'
    refine ⟨r'', ?_, hm'⟩
    rw [List.range_succ, List.foldlM_append, hr']
    simp [hr'']

/-- The device lists once the first `k` protocols are linked. -/
def linkedDevs (ps : List (Protocol H)) (ss : List (Sw D)) (k slot : Nat) : List D :=
  if slot < k then (ps[slot]?.map fun p => linked p ss).getD [] else []

theorem linkProtos_mirrors {r : Registry H D} {libs : List (Lib H D)} {ms : List (Module H D)}
    (h : Mirrors r libs ms fun _ => []) (hs : (swsOf ms).length ≤ maxObjects) (k : Nat)
    (hk : k ≤ (protosOf ms).length) :
    ∃ r', (List.range k).foldlM linkProto r = some r' ∧
      Mirrors r' libs ms (linkedDevs (protosOf ms) (swsOf ms) k) := by
  induction k with
  | zero =>
    refine ⟨r, rfl, ?_⟩
    have hnil : linkedDevs (protosOf ms) (swsOf ms) 0 = fun _ => [] := by
      funext slot
      rw [linkedDevs, if_neg (Nat.not_lt_zero slot)]
    rwa [hnil]
  | succ k ih =>
    obtain ⟨r', hr', hm⟩ := ih (by omega)
    have hp : r'.protocols.slots k = some (protosOf ms)[k] := by
      rw [hm.protocols.slot_eq, List.getElem?_eq_getElem hk]
    obtain ⟨r'', hr'', hm''⟩ := linkSwitches_mirrors hm (protosOf ms)[k] k
      (by rw [linkedDevs, if_neg (Nat.lt_irrefl k)]) hs _ (Nat.le_refl _)
    refine ⟨r'', ?_, ?_⟩
    · rw [List.range_succ, List.foldlM_append, hr']
      simp [linkProto, hp, hm.switches.cnt_eq, hr'']
    · rw [List.take_length] at hm''
      have hdev : Function.update (linkedDevs (protosOf ms) (swsOf ms) k) k
          (linked (protosOf ms)[k] (swsOf ms)) = linkedDevs (protosOf ms) (swsOf ms) (k + 1) := by
        funext slot
        by_cases hslot : slot = k
        · subst hslot
          simp [linkedDevs, List.getElem?_eq_getElem hk]
        · rw [Function.update_of_ne hslot, linkedDevs, linkedDevs]
          congr 1
          exact propext ⟨by omega, by omega⟩
      rwa [hdev] at hm''

theorem opened_length (ents : List (DirEnt H D)) (h : FitsHandles ents) :
    (opened ents).length ≤ maxObjects := by
  induction ents using List.reverseRecOn with
  | nil => exact Nat.zero_le _
  | append_singleton es e ih =>
    obtain ⟨hes, he⟩ := fitsHandles_append.mp h
    rw [opened_append, List.length_append]
    cases hso : soName e.name with
    | false => simpa [opened_of_not_so hso] using ih hes
    | true =>
      have hlt := he hso
      rw [opened_of_so hso]
      cases e.dlopen <;> simp <;> omega

def registered (f : AppFuncs H) (ents : List (DirEnt H D)) : List (Protocol H) :=
  protosOf (modules ents) ++ [appMain f]

/-- Loading, registering and linking fill every table with its list. -/
theorem load_mirrors (f : AppFuncs H) (ents : List (DirEnt H D)) (hf : FitsHandles ents)
    (hp : (protosOf (modules ents)).length < maxObjects) :
    ∃ r, load f ents = some r ∧
      Mirrors r (opened ents) (modules ents ++ [.protocol (appMain f)]) fun slot =>
        ((registered f ents)[slot]?.map fun p => linked p (swsOf (modules ents))).getD [] := by
  have hl := opened_length ents hf
  have hs : (swsOf (modules ents)).length ≤ maxObjects :=
    Nat.le_trans (List.length_filterMap_le _ _) (Nat.le_trans (List.length_filterMap_le _ _) hl)
  obtain ⟨r₁, h₁, hm₁⟩ := readLibs_mirrors ents hf
  obtain ⟨r₂, h₂, hm₂⟩ := loadLibs_mirrors hm₁ hl
  change Mirrors r₂ (opened ents) (modules ents) _ at hm₂
  obtain ⟨r₃, h₃, hm₃⟩ := registerMod_mirrors hm₂ (.protocol (appMain f)) hp
  obtain ⟨r₄, h₄, hm₄⟩ := linkProtos_mirrors hm₃ (by simpa using hs) _ (Nat.le_refl _)
  refine ⟨r₄, ?_, ?_⟩
  · simp only [load, h₁, h₂, appInit, h₃, linkAll, hm₃.protocols.cnt_eq, h₄,
      Option.bind_eq_bind, Option.bind_some]
  · have hdev : linkedDevs (protosOf (modules ents ++ [.protocol (appMain f)]))
        (swsOf (modules ents ++ [.protocol (appMain f)]))
        (protosOf (modules ents ++ [.protocol (appMain f)])).length = fun slot =>
          ((registered f ents)[slot]?.map fun p => linked p (swsOf (modules ents))).getD [] := by
      funext slot
      have hps : protosOf (modules ents ++ [.protocol (appMain f)]) = registered f ents := by
        simp [registered]
      have hss : swsOf (modules ents ++ [.protocol (appMain f)]) =
          swsOf (modules ents) := by simp
      rw [hps, hss, linkedDevs]
      split
      · rfl
      · next hn => rw [List.getElem?_eq_none (by omega)]; rfl
    exact hdev ▸ hm₄

theorem load_none (f : AppFuncs H) {ents : List (DirEnt H D)} (h : ¬ FitsHandles ents) :
    load f ents = none := by
  rw [load, readLibs_none h]
  rfl

end LibSwitch.LoadedModules

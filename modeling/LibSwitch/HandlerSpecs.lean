import LibSwitch.DeviceLinking

namespace LibSwitch.HandlerSpecs

open LibSwitch.PointerTable LibSwitch.ByteOrder LibSwitch.ByteBuffer LibSwitch.Common
open LibSwitch.ModuleLoad LibSwitch.LoadedModules LibSwitch.SockComm LibSwitch.Handlers

variable {H D : Type}

/-- What every loaded registry has in common: its tables have no gaps and no overflow. -/
structure WellFormed (r : Registry H D) : Prop where
  switches : Filled maxObjects r.switches
  protocols : Filled maxObjects r.protocols
  devs : ∀ slot, Filled maxObjects (r.devs slot)

theorem load_wellFormed {f : AppFuncs H} {ents : List (DirEnt H D)} {r : Registry H D}
    (hp : (protosOf (modules ents)).length < maxObjects) (h : load f ents = some r) :
    WellFormed r := by
  have hf : FitsHandles ents := by
    by_contra hn
    rw [load_none f hn] at h
    cases h
  obtain ⟨r', hr', hm⟩ := load_mirrors f ents hf hp
  obtain rfl : r = r' := Option.some.inj (h.symm.trans hr')
  have hs : (swsOf (modules ents)).length ≤ maxObjects :=
    Nat.le_trans (List.length_filterMap_le _ _)
      (Nat.le_trans (List.length_filterMap_le _ _) (opened_length ents hf))
  refine ⟨⟨_, hm.switches, by simpa using hs⟩,
    ⟨_, hm.protocols, by simpa using Nat.succ_le_of_lt hp⟩, ?_⟩
  intro slot
  refine ⟨_, hm.devs slot, ?_⟩
  cases (registered f ents)[slot]? with
  | none => exact Nat.zero_le _
  | some p => exact Nat.le_trans (linked_length p _) hs

theorem szParam_eq : szBuf - szHdr = 500 := rfl

theorem storeType_cases {switches : Table (Sw D)} (hs : Filled maxObjects switches) {loop : Nat}
    (hloop : loop < switches.cnt) (p : Param) :
    ((∃ p', storeType switches loop p = .ok p') ∧ 4 * (loop + 1) ≤ 500) ∨
      (storeType switches loop p = .error .bufferOverrun ∧ 500 < 4 * (loop + 1)) := by
  have hsome := (hs.deref_isSome loop).mpr ⟨by omega, by omega⟩
  obtain ⟨s, hsw⟩ := Option.isSome_iff_exists.mp hsome
  unfold storeType
  rw [hsw]
  dsimp only
  by_cases hfit : 4 * loop + 4 ≤ 500
  · have hw : 4 * loop + (intBytes s.type).length ≤ szBuf - szHdr := by
      rw [length_intBytes, szParam_eq]
      exact hfit
    rw [write_of_le p hw]
    exact Or.inl ⟨⟨_, rfl⟩, by omega⟩
  · have hw : szBuf - szHdr < 4 * loop + (intBytes s.type).length := by
      rw [length_intBytes, szParam_eq]
      omega
    rw [write_of_lt p hw]
    exact Or.inr ⟨rfl, by omega⟩

theorem forLoop_storeType_cases {switches : Table (Sw D)} (hs : Filled maxObjects switches)
    (k loop : Nat) (p : Param) (hk : loop + k ≤ switches.cnt) :
    ((∃ p', forLoop (storeType switches) k loop p = .ok p') ∧
        (k = 0 ∨ 4 * (loop + k) ≤ 500)) ∨
      (forLoop (storeType switches) k loop p = .error .bufferOverrun ∧ k ≠ 0 ∧
        500 < 4 * (loop + k)) := by
  induction k generalizing loop p with
  | zero => exact Or.inl ⟨⟨p, by rw [forLoop]⟩, Or.inl rfl⟩
  | succ k ih =>
    rw [forLoop]
    obtain ⟨⟨p', hp'⟩, hle⟩ | ⟨he, hlt⟩ := storeType_cases hs (by omega : loop < switches.cnt) p
    · rw [hp']
      obtain h | h := ih (loop + 1) p' (by omega)
      · exact Or.inl ⟨h.1, by omega⟩
      · exact Or.inr ⟨h.1, by omega, by omega⟩
    · rw [he]
      exact Or.inr ⟨rfl, by omega, by omega⟩

theorem appMsgQrySw_cases {switches : Table (Sw D)} (hs : Filled maxObjects switches) (p : Param) :
    (qryId p = maxObjects ∧ switches.cnt ≤ 125 ∧
      ∃ p', appMsgQrySw switches p = .ok ⟨p', switches.cnt * 4, []⟩) ∨
    (qryId p = maxObjects ∧ 125 < switches.cnt ∧
      appMsgQrySw switches p = .error .bufferOverrun) ∨
    (0 ≤ qryId p ∧ qryId p < switches.cnt ∧ qryId p ≠ maxObjects ∧
      ∃ p', appMsgQrySw switches p = .ok ⟨p', 4, []⟩) ∨
    (¬ (0 ≤ qryId p ∧ qryId p < switches.cnt) ∧ qryId p ≠ maxObjects ∧
      appMsgQrySw switches p = .error .absentSwitch) := by
  rw [appMsgQrySw]
  by_cases hq : qryId p = maxObjects
  · rw [if_pos hq]
    obtain ⟨⟨p', hp'⟩, hb⟩ | ⟨hp', -, hb⟩ :=
      forLoop_storeType_cases hs switches.cnt 0 p (by omega)
    · exact Or.inl ⟨hq, by omega, p', by rw [hp']⟩
    · exact Or.inr (Or.inl ⟨hq, by omega, by rw [hp']⟩)
  · rw [if_neg hq]
    cases hd : deref maxObjects switches (qryId p) with
    | none => exact Or.inr (Or.inr (Or.inr ⟨(hs.deref_eq_none _).mp hd, hq, rfl⟩))
    | some s =>
      have hi := (hs.deref_isSome (qryId p)).mp (by rw [hd]; rfl)
      exact Or.inr (Or.inr (Or.inl ⟨hi.1, hi.2, hq, _, rfl⟩))

/-- The table entry a handler dereferences for its parameters. -/
inductive Entry
  | switch (id : Int)
  | brDev (id : Int)
  | flwDev (id : Int)
  | none

def entryOf (p : Param) : Handler → Entry
  | .appMsgQrySw => if qryId p = maxObjects then .none else .switch (qryId p)
  | .brAddBr | .brDelBr | .brAddBrIf | .brDelBrIf | .brSetAge | .brSetMaxAge =>
    .brDev (bridgeId p)
  | .flwAddFlw | .flwDelFlw => .flwDev (bridgeId p)
  | .appMsgQryProto | .brDump | .flwAddFlwIf | .flwDelFlwIf | .flwSetAge | .flwSetMaxAge
  | .flwDump => .none

def Present (r : Registry Handler D) (slot : Nat) : Entry → Prop
  | .switch id => 0 ≤ id ∧ id < r.switches.cnt
  | .brDev id | .flwDev id => 0 ≤ id ∧ id < (r.devs slot).cnt
  | .none => True

def Fault.isIndex : Fault → Bool
  | .protocolsIndex | .messageIndex | .absentSwitch | .absentBrDev | .absentFlwDev => true
  | .bufferOverrun | .sendOverrun => false

theorem brHandler_cases {devs : Table D} (hd : Filled maxObjects devs) (op : Int → Int → BrCall)
    (p : Param) :
    ((0 ≤ bridgeId p ∧ bridgeId p < devs.cnt) ∧
      ∃ d, brHandler op devs p = .ok ⟨p, 1, [.br d (op (bridgeId p) (intfId p))]⟩) ∨
    (¬ (0 ≤ bridgeId p ∧ bridgeId p < devs.cnt) ∧
      brHandler op devs p = .error .absentBrDev) := by
  rw [brHandler]
  cases h : deref maxObjects devs (bridgeId p) with
  | none => exact Or.inr ⟨(hd.deref_eq_none _).mp h, rfl⟩
  | some d => exact Or.inl ⟨(hd.deref_isSome _).mp (by rw [h]; rfl), d, rfl⟩

theorem flwHandler_cases {devs : Table D} (hd : Filled maxObjects devs) (op : FlowTypes.FlwOp)
    (p : Param) :
    ((0 ≤ bridgeId p ∧ bridgeId p < devs.cnt) ∧
      ∃ d, flwHandler op devs p = .ok ⟨p, 1, [.flw d ⟨op, bridgeId p, 0, none⟩]⟩) ∨
    (¬ (0 ≤ bridgeId p ∧ bridgeId p < devs.cnt) ∧
      flwHandler op devs p = .error .absentFlwDev) := by
  rw [flwHandler]
  cases h : deref maxObjects devs (bridgeId p) with
  | none => exact Or.inr ⟨(hd.deref_eq_none _).mp h, rfl⟩
  | some d => exact Or.inl ⟨(hd.deref_isSome _).mp (by rw [h]; rfl), d, rfl⟩

/-- A query for all switches writes past the parameter area when there are too many. -/
def Overruns (r : Registry Handler D) (h : Handler) (p : Param) : Prop :=
  h = .appMsgQrySw ∧ qryId p = maxObjects ∧ 125 < r.switches.cnt

/-- The ways a handler ends: it returns at most the size of the parameter area, reaches an
absent entry, or overruns the area. -/
inductive Ends (r : Registry Handler D) (slot : Nat) (h : Handler) (p : Param) : Prop
  | returns (rep : Reply (DevCall D)) (hrun : runHandler r slot h p = .ok rep)
      (hret : 0 ≤ rep.ret ∧ rep.ret ≤ 500) (hp : Present r slot (entryOf p h))
      (ho : ¬ Overruns r h p)
  | absent (f : Fault) (hrun : runHandler r slot h p = .error f) (hf : Fault.isIndex f = true)
      (hp : ¬ Present r slot (entryOf p h)) (ho : ¬ Overruns r h p)
  | overruns (hrun : runHandler r slot h p = .error .bufferOverrun)
      (hp : Present r slot (entryOf p h)) (ho : Overruns r h p)

theorem runHandler_ends {r : Registry Handler D} (hr : WellFormed r) (slot : Nat)
    (h : Handler) (p : Param) : Ends r slot h p := by
  have hbr (g : Handler) (op : Int → Int → BrCall) (he : entryOf p g = .brDev (bridgeId p))
      (hg : runHandler r slot g p = brHandler op (r.devs slot) p) (ho : g ≠ .appMsgQrySw) :
      Ends r slot g p := by
    obtain ⟨hp, d, hd⟩ | ⟨hp, hd⟩ := brHandler_cases (hr.devs slot) op p
    · exact .returns _ (hg.trans hd) (by dsimp only; omega) (by rwa [he]) fun h => ho h.1
    · exact .absent _ (hg.trans hd) rfl (by rwa [he]) fun h => ho h.1
  have hflw (g : Handler) (op : FlowTypes.FlwOp) (he : entryOf p g = .flwDev (bridgeId p))
      (hg : runHandler r slot g p = flwHandler op (r.devs slot) p) (ho : g ≠ .appMsgQrySw) :
      Ends r slot g p := by
    obtain ⟨hp, d, hd⟩ | ⟨hp, hd⟩ := flwHandler_cases (hr.devs slot) op p
    · exact .returns _ (hg.trans hd) (by dsimp only; omega) (by rwa [he]) fun h => ho h.1
    · exact .absent _ (hg.trans hd) rfl (by rwa [he]) fun h => ho h.1
  have hprint (g : Handler) (he : entryOf p g = .none)
      (hg : runHandler r slot g p = printHandler p) (ho : g ≠ .appMsgQrySw) :
      Ends r slot g p :=
    .returns _ hg (by dsimp only; omega) (by rw [he]; trivial) fun h => ho h.1
  cases h with
  | brAddBr | brDelBr | brAddBrIf | brDelBrIf | brSetAge | brSetMaxAge =>
    exact hbr _ _ rfl (by rw [runHandler]; rfl) (by decide)
  | flwAddFlw | flwDelFlw => exact hflw _ _ rfl (by rw [runHandler]; rfl) (by decide)
  | appMsgQryProto | brDump | flwAddFlwIf | flwDelFlwIf | flwSetAge | flwSetMaxAge | flwDump =>
    exact hprint _ rfl rfl (by decide)
  | appMsgQrySw =>
    have hc := hr.switches.cnt_le
    obtain ⟨hq, hn, p', hp'⟩ | ⟨hq, hn, he⟩ | ⟨h0, hn, hq, p', hp'⟩ | ⟨hn, hq, he⟩ :=
      appMsgQrySw_cases hr.switches p
    · refine .returns _ hp' (by dsimp only; omega) ?_ fun h => by
        have := h.2.2
        omega
      rw [entryOf, if_pos hq]
      trivial
    · refine .overruns he ?_ ⟨rfl, hq, hn⟩
      rw [entryOf, if_pos hq]
      trivial
    · refine .returns _ hp' (by dsimp only; omega) ?_ fun h => hq h.2.1
      rw [entryOf, if_neg hq]
      exact ⟨h0, hn⟩
    · refine .absent _ he rfl ?_ fun h => hq h.2.1
      rw [entryOf, if_neg hq]
      exact hn

end LibSwitch.HandlerSpecs

import LibSwitch.FilterSteps

namespace LibSwitch.FilterActions

open LibSwitch.PointerTable LibSwitch.ByteOrder LibSwitch.ByteBuffer LibSwitch.CText
open LibSwitch.ListRuns LibSwitch.Numeral LibSwitch.Common LibSwitch.FlowTypes
open LibSwitch.FlowFilter LibSwitch.FilterGrammar LibSwitch.FilterRule LibSwitch.FilterSteps

variable {D : Type}

def Sends (t : CString) (a : Action) : Prop :=
  "out-port".toList <+: t ∧ a.id = .outPort ∧
    ∃ text, optionValue t = some text ∧ ByteBuffer.read a.value 0 2 = shortBytes (atoi text)

def Asks (t : CString) (a : Action) : Prop :=
  ("drop".toList <+: t ∧ a.id = .drop) ∨ Sends t a

/-- The flow passed to a device has one action for each token behind the marker. -/
def ActionsKept (ts : List CString) (c : FlwCall) : Prop :=
  ∃ flow, c.flow = some flow ∧ flow.numActions = ts.length ∧
    List.Forall₂ Asks ts flow.countedActions

def isPort (t : CString) : Bool := "out-port".toList.isPrefixOf t

variable {ts p : List CString} {t : CString} {s s' : Locals}

theorem isPort_iff : isPort t = true ↔ "out-port".toList <+: t := List.isPrefixOf_iff_prefix

theorem sends_sent (hp : "out-port".toList <+: t) {text : CString}
    (htext : optionValue t = some text) (val : Value) :
    Sends t ⟨.outPort, storeShort (atoi text) val⟩ := by
  have hread := read_put_self val 0 (shortBytes (atoi text)) (two_fits (atoi text))
  rw [length_shortBytes] at hread
  exact ⟨hp, rfl, text, htext, hread⟩

theorem filter_concat_neg {P : CString → Bool} (h : P t = false) :
    (p ++ [t]).filter P = p.filter P := by
  rw [List.filter_append, List.filter_cons_of_neg (by rw [h]; exact Bool.false_ne_true),
    List.filter_nil, List.append_nil]

theorem filter_concat_pos {P : CString → Bool} (h : P t = true) :
    (p ++ [t]).filter P = p.filter P ++ [t] := by
  rw [List.filter_append, List.filter_cons_of_pos h, List.filter_nil]

/-- After the given tokens, each `out-port` token has set two bytes of one action, and the
values of the others have not changed. -/
structure PortsSent (actions : Vector Action 25) (p : List CString) (s : Locals) : Prop where
  actionCnt_le : s.actionCnt ≤ 25
  actionCnt : s.actionCnt = (p.filter isPort).length
  ports : ∀ i t, (p.filter isPort)[i]? = some t → ∃ (h : i < 25) (text : CString),
    optionValue t = some text ∧
      s.actions[i] = ⟨.outPort, storeShort (atoi text) actions[i].value⟩
  rest : ∀ i, ∀ h : i < 25, s.actionCnt ≤ i → s.actions[i].value = actions[i].value

theorem not_isPort_drop (h : "drop".toList <+: t) : isPort t = false := by
  rw [Bool.eq_false_iff, ne_eq, isPort_iff]
  exact drop_not_outPort h

/-- A `drop` changes the identifier behind the ports and no value. -/
theorem PortsSent.drop {actions : Vector Action 25} (hs : PortsSent actions p s)
    (hcnt : s.actionCnt < 25) (hd : "drop".toList <+: t) :
    PortsSent actions (p ++ [t]) { s with
      actions := s.actions.set s.actionCnt ⟨.drop, s.actions[s.actionCnt].value⟩ } := by
  have hfilter := filter_concat_neg (p := p) (not_isPort_drop hd)
  constructor
  · exact hs.actionCnt_le
  · rw [hfilter]
    exact hs.actionCnt
  · rw [hfilter]
    intro i u hu
    obtain ⟨h25, text, htext, hslot⟩ := hs.ports i u hu
    have hlt := (List.getElem?_eq_some_iff.mp hu).1
    have hne : s.actionCnt ≠ i := by
      rw [hs.actionCnt]
      exact Nat.ne_of_gt hlt
    exact ⟨h25, text, htext, by rw [Vector.getElem_set_ne hcnt h25 hne, hslot]⟩
  · intro i h25 hi
    have hle : s.actionCnt ≤ i := hi
    obtain rfl | hlt := Nat.eq_or_lt_of_le hle
    · rw [Vector.getElem_set_self]
      exact hs.rest s.actionCnt h25 (Nat.le_refl _)
    · rw [Vector.getElem_set_ne hcnt h25 (Nat.ne_of_lt hlt)]
      exact hs.rest i h25 hle

theorem PortsSent.outPort {actions : Vector Action 25} (hs : PortsSent actions p s)
    (hcnt : s.actionCnt < 25) (hp : "out-port".toList <+: t) {text : CString}
    (htext : optionValue t = some text) : PortsSent actions (p ++ [t])
      (sent ⟨.outPort, storeShort (atoi text) s.actions[s.actionCnt].value⟩ s hcnt) := by
  have hfilter := filter_concat_pos (p := p) (isPort_iff.mpr hp)
  constructor
  · exact hcnt
  · rw [hfilter, List.length_append, ← hs.actionCnt]
    rfl
  · intro i u hu
    rw [hfilter] at hu
    obtain hi | rfl | hi := Nat.lt_trichotomy i s.actionCnt
    · rw [List.getElem?_append_left (by rw [← hs.actionCnt]; exact hi)] at hu
      obtain ⟨h25, text', htext', hslot⟩ := hs.ports i u hu
      refine ⟨h25, text', htext', ?_⟩
      rw [sent, Vector.getElem_set_ne hcnt h25 (by omega), hslot]
    · rw [hs.actionCnt, List.getElem?_concat_length] at hu
      cases hu
      refine ⟨hcnt, text, htext, ?_⟩
      rw [sent, Vector.getElem_set_self, hs.rest s.actionCnt hcnt (Nat.le_refl _)]
    · rw [List.getElem?_eq_none] at hu
      · cases hu
      · rw [List.length_append, List.length_singleton, ← hs.actionCnt]
        exact hi
  · intro i h25 hi
    have hlt : s.actionCnt < i := hi
    rw [sent, Vector.getElem_set_ne hcnt h25 (Nat.ne_of_lt hlt)]
    exact hs.rest i h25 (Nat.le_of_lt hlt)

theorem portsSent_step {actions : Vector Action 25} (h : ActionStep t s s')
    (hs : PortsSent actions p s) : PortsSent actions (p ++ [t]) s' := by
  cases h with
  | drop hd hcnt => exact hs.drop hcnt hd
  | outPort hp hcnt text htext => exact hs.outPort hcnt hp htext

theorem portsSent_nil {actions : Vector Action 25} (hactions : s.actions = actions)
    (hcnt : s.actionCnt = 0) : PortsSent actions [] s :=
  ⟨by omega, hcnt, fun i t ht => by simp at ht, fun i h _ => by simp only [hactions]⟩

theorem portsSent_actions {actions : Vector Action 25} (h : Steps ActionStep ts s s')
    (hactions : s.actions = actions) (hcnt : s.actionCnt = 0) : PortsSent actions ts s' := by
  exact h.track (PortsSent actions) (fun _ _ _ _ => portsSent_step)
    (portsSent_nil hactions hcnt)

theorem actionSteps_known (h : Steps ActionStep ts s s') :
    ∀ t ∈ ts, "drop".toList <+: t ∨ "out-port".toList <+: t := by
  induction h with
  | nil => exact List.forall_mem_nil _
  | cons hi _ ih =>
    rw [List.forall_mem_cons]
    refine ⟨?_, ih⟩
    cases hi with
    | drop h => exact Or.inl h
    | outPort h => exact Or.inr h

theorem actionsKept_iff {actions : Vector Action 25} (hs : PortsSent actions ts s)
    (hknown : ∀ t ∈ ts, "drop".toList <+: t ∨ "out-port".toList <+: t) (op : FlwOp) :
    ActionsKept ts ⟨op, s.devId, s.tblId, some s.flow⟩ ↔ ∀ t ∈ ts, ¬ "drop".toList <+: t := by
  constructor
  · rintro ⟨flow, hflow, hnum, -⟩ t ht hd
    cases hflow
    have hlen : (ts.filter isPort).length = ts.length := hs.actionCnt.symm.trans hnum
    have hp := List.length_filter_eq_length_iff.mp hlen t ht
    exact drop_not_outPort hd (isPort_iff.mp hp)
  · intro hno
    have hports : ∀ t ∈ ts, isPort t = true := fun t ht =>
      isPort_iff.mpr ((hknown t ht).resolve_left (hno t ht))
    have hall := List.filter_eq_self.mpr hports
    have hcnt : s.actionCnt = ts.length := hs.actionCnt.trans (by rw [hall])
    have hslots := hs.ports
    rw [hall] at hslots
    have hlen : s.flow.countedActions.length = s.actionCnt := by
      rw [Flow.countedActions, List.length_take, Vector.length_toList]
      exact Nat.min_eq_left hs.actionCnt_le
    refine ⟨s.flow, rfl, hcnt, ?_⟩
    rw [List.forall₂_iff_get]
    refine ⟨hcnt.symm.trans hlen.symm, fun i h₁ h₂ => Or.inr ?_⟩
    obtain ⟨h25, text, htext, hslot⟩ := hslots i ts[i] (List.getElem?_eq_getElem h₁)
    have hget : s.flow.countedActions.get ⟨i, h₂⟩ = s.actions[i] := by
      simp [Flow.countedActions, Locals.flow]
    rw [hget, hslot]
    exact sends_sent (isPort_iff.mp (hports _ (List.getElem_mem h₁))) htext _

/-- On the lines that reach a device, the actions passed are those of the tokens, one for each
and in order, exactly when no token behind the marker starts with `drop`. -/
theorem filter_actionsKept_iff {flwDevs : Table D} {tuples : Vector Tuple 25}
    {actions : Vector Action 25} {cmd : CString} {d : D} {c : FlwCall}
    (h : fibCmdFilter flwDevs tuples actions cmd = .calls d c) :
    ActionsKept (actionPart (tokens ' ' cmd)) c ↔
      ∀ t ∈ actionPart (tokens ' ' cmd), ¬ "drop".toList <+: t := by
  obtain ⟨s₁, s₂, op, hmatch, haction, -, -, rfl⟩ := fibCmdFilter_calls_iff.mp h
  have h0 : s₁.actionCnt = 0 := (matchSteps_frame hmatch).2
  exact actionsKept_iff (portsSent_actions haction rfl h0) (actionSteps_known haction) op

def dropLine : CString := "filter add in-phy-port=1 action drop out-port=2".toList

theorem dropLine_loses : ∃ c,
    fibCmdFilter (ofList [()]) (Vector.replicate 25 ⟨.inPort, zeros 16⟩)
      (Vector.replicate 25 ⟨.drop, zeros 16⟩) dropLine = .calls () c ∧
    (actionPart (tokens ' ' dropLine)).length ≤ 25 ∧
    ¬ ActionsKept (actionPart (tokens ' ' dropLine)) c := by
  refine ⟨_, rfl, by decide, ?_⟩
  rintro ⟨flow, hflow, hnum, -⟩
  cases hflow
  revert hnum
  decide

def portsLine : CString := "filter add in-phy-port=1 action out-port=1 out-port=2".toList

theorem portsLine_actionsKept : ∃ c,
    fibCmdFilter (ofList [()]) (Vector.replicate 25 ⟨.inPort, zeros 16⟩)
      (Vector.replicate 25 ⟨.drop, zeros 16⟩) portsLine = .calls () c ∧
    ActionsKept ["out-port=1".toList, "out-port=2".toList] c := by
  have hcall : ∃ c, fibCmdFilter (ofList [()]) (Vector.replicate 25 ⟨.inPort, zeros 16⟩)
      (Vector.replicate 25 ⟨.drop, zeros 16⟩) portsLine = .calls () c := ⟨_, rfl⟩
  obtain ⟨c, hc⟩ := hcall
  exact ⟨c, hc, (filter_actionsKept_iff hc).mpr (by decide)⟩

end LibSwitch.FilterActions

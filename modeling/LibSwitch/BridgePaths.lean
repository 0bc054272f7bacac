import LibSwitch.BridgeCommands
import LibSwitch.RequestSafety
import LibSwitch.MessageDispatch

namespace LibSwitch.BridgePaths

open LibSwitch.PointerTable LibSwitch.ByteOrder LibSwitch.ByteBuffer LibSwitch.CText
open LibSwitch.Numeral LibSwitch.Common LibSwitch.ModuleLoad LibSwitch.LoadedModules
open LibSwitch.SockComm LibSwitch.Handlers LibSwitch.HandlerSpecs LibSwitch.StubLibraries
open LibSwitch.MessageDispatch LibSwitch.BridgeCommands

variable {D : Type}

/-- The operation a bridge message id names. -/
def named (b v : Int) : BrMsgId → Option BrCall
  | .addBr => some (.addBr b)
  | .delBr => some (.delBr b)
  | .addBrIf => some (.addBrIf b v)
  | .delBrIf => some (.delBrIf b v)
  | .setAge => some (.setAge b v)
  | .setMaxAge => some (.setMaxAge b v)
  | .dump => none

structure Numbers (b v : Int) where
  dev : CString
  dev_spells : SpellsInt dev b
  br : CString
  br_spells : SpellsInt br b
  br_mem : -32768 ≤ b ∧ b < 32768
  value : CString
  value_spells : SpellsInt value v
  value_mem : -32768 ≤ v ∧ v < 32768

def Numbers.brSetting {b v : Int} (n : Numbers b v) : Setting :=
  ⟨brIdOpt, n.br, b, n.br_spells, n.br_mem⟩

def Numbers.setting {b v : Int} (n : Numbers b v) (o : Opt) : Setting :=
  ⟨o, n.value, v, n.value_spells, n.value_mem⟩

def Numbers.decimal {b v : Int} (hb : -32768 ≤ b ∧ b < 32768) (hv : -32768 ≤ v ∧ v < 32768) :
    Numbers b v where
  dev := Numeral.decimal b
  dev_spells := spellsInt_decimal b
  br := Numeral.decimal b
  br_spells := spellsInt_decimal b
  br_mem := hb
  value := Numeral.decimal v
  value_spells := spellsInt_decimal v
  value_mem := hv

def cliLine {b v : Int} (n : Numbers b v) : BrMsgId → Option CString
  | .addBr => some (addBr.line n.dev [n.brSetting])
  | .delBr => some (delBr.line n.dev [n.brSetting])
  | .addBrIf => some (addBrIf.line n.dev [n.brSetting, n.setting ifIdOpt])
  | .delBrIf => some (delBrIf.line n.dev [n.brSetting, n.setting ifIdOpt])
  | .setAge => some (setAge.line n.dev [n.brSetting, n.setting ageOpt])
  | .setMaxAge | .dump => none

example : cliLine (Numbers.decimal (b := 0) (v := 5) (by decide) (by decide)) .setAge =
    some "set-age dev=0 br-id=0 age=5".toList := by
  decide

/-- The handler registered under a message id and the command line of the same name both
perform the operation on bridge device `b`. -/
structure BothPerform (r : Registry Handler D) (slot : Nat) (b v : Int) (id : BrMsgId)
    (op : BrCall) : Prop where
  message : ∀ h p, handlerOf bridge id.num = some h → bridgeId p = b → intfId p = v →
    ∃ d rep, deref maxObjects (r.devs slot) b = some d ∧ runHandler r slot h p = .ok rep ∧
      rep.calls = [.br d op]
  cli : ∀ (l : Locals) (n : Numbers b v) line, cliLine n id = some line →
    ∃ d, deref maxObjects (r.devs slot) b = some d ∧ cliCmd (r.devs slot) l line = .calls d op

theorem one_setting {c : Command} {s : Setting} (h : s.opt ∈ c.opts) :
    ∀ s' ∈ [s], s'.opt ∈ c.opts := by
  intro s' hs'
  rw [List.mem_singleton.mp hs']
  exact h

theorem two_settings {c : Command} {s t : Setting} (hs : s.opt ∈ c.opts) (ht : t.opt ∈ c.opts) :
    ∀ s' ∈ [s, t], s'.opt ∈ c.opts := by
  intro s' hs'
  obtain rfl | rfl := List.mem_pair.mp hs'
  · exact hs
  · exact ht

theorem cliCmd_performs {devs : Table D} (hc : devs.cnt ≤ maxObjects) {b v : Int} (h0 : 0 ≤ b)
    (hb : b < devs.cnt) {d : D} (hd : deref maxObjects devs b = some d) (l : Locals)
    (n : Numbers b v) {id : BrMsgId} {line : CString} (hline : cliLine n id = some line)
    {op : BrCall} (hop : named b v id = some op) : cliCmd devs l line = .calls d op := by
  cases id with
  | addBr =>
    cases hline
    cases hop
    exact addBr_distinct.run_line hc l n.dev_spells h0 hb hd _ (one_setting List.mem_cons_self)
  | delBr =>
    cases hline
    cases hop
    exact delBr_distinct.run_line hc l n.dev_spells h0 hb hd _ (one_setting List.mem_cons_self)
  | addBrIf =>
    cases hline
    cases hop
    exact addBrIf_distinct.run_line hc l n.dev_spells h0 hb hd _
      (two_settings List.mem_cons_self (List.mem_cons_of_mem _ List.mem_cons_self))
  | delBrIf =>
    cases hline
    cases hop
    exact delBrIf_distinct.run_line hc l n.dev_spells h0 hb hd _
      (two_settings List.mem_cons_self (List.mem_cons_of_mem _ List.mem_cons_self))
  | setAge =>
    cases hline
    cases hop
    exact setAge_distinct.run_line hc l n.dev_spells h0 hb hd _
      (two_settings List.mem_cons_self (List.mem_cons_of_mem _ List.mem_cons_self))
  | setMaxAge | dump => cases hline

/-- The operation a bridge handler performs: four of them add an interface. -/
def performed (b v : Int) : BrMsgId → Option BrCall
  | .addBr => some (.addBr b)
  | .delBr => some (.delBr b)
  | .addBrIf | .delBrIf | .setAge | .setMaxAge => some (.addBrIf b v)
  | .dump => none

theorem runHandler_performs (r : Registry Handler D) (slot : Nat) {b v : Int} {d : D}
    (hd : deref maxObjects (r.devs slot) b = some d) {id : BrMsgId} {h : Handler}
    (hh : handlerOf bridge id.num = some h) {op : BrCall} (hop : performed b v id = some op)
    {p : Param} (hb : bridgeId p = b) (hv : intfId p = v) :
    runHandler r slot h p = .ok ⟨p, 1, [.br d op]⟩ := by
  have hbr (f : Int → Int → BrCall) :
      brHandler f (r.devs slot) p = .ok ⟨p, 1, [.br d (f b v)]⟩ := by
    rw [brHandler, hb, hd, hv]
  cases id with
  | addBr =>
    cases hop
    cases hh
    exact hbr fun brId _ => .addBr brId
  | delBr =>
    cases hop
    cases hh
    exact hbr fun brId _ => .delBr brId
  | addBrIf | delBrIf | setAge | setMaxAge =>
    cases hop
    cases hh
    exact hbr fun brId intf => .addBrIf brId intf
  | dump => cases hop

theorem exists_param {b v : Int} (hb : -32768 ≤ b ∧ b < 32768) (hv : -32768 ≤ v ∧ v < 32768) :
    ∃ p : Param, bridgeId p = b ∧ intfId p = v := by
  have h8 : 8 + (intBytes b).length ≤ szBuf - szHdr := by
    rw [length_intBytes]
    decide
  have h12 : 12 + (intBytes v).length ≤ szBuf - szHdr := by
    rw [length_intBytes]
    decide
  refine ⟨put (put (zeros _) 8 (intBytes b) h8) 12 (intBytes v) h12, ?_, ?_⟩
  · rw [bridgeId, intAt, read_put_before _ h12 (by omega)]
    exact intAt_put_self _ 8 h8 (by omega) (by omega)
  · exact intAt_put_self _ 12 h12 (by omega) (by omega)

theorem exists_handler {id : BrMsgId} (hid : id ≠ .dump) :
    ∃ h, handlerOf bridge id.num = some h := by
  cases id with
  | dump => exact absurd rfl hid
  | _ => exact ⟨_, rfl⟩

theorem exists_performed {b v : Int} {id : BrMsgId} (hid : id ≠ .dump) :
    ∃ op, performed b v id = some op := by
  cases id with
  | dump => exact absurd rfl hid
  | _ => exact ⟨_, rfl⟩

theorem performed_eq_named_iff {b v : Int} {id : BrMsgId} (hid : id ≠ .dump) :
    performed b v id = named b v id ↔ id = .addBr ∨ id = .delBr ∨ id = .addBrIf := by
  cases id <;> simp [performed, named] at hid ⊢

/-- The two paths agree on three of the six operations: the handlers that should delete an
interface or set an age add an interface instead. -/
theorem bothPerform_iff {r : Registry Handler D} (hr : WellFormed r) (slot : Nat) {b v : Int}
    (h0 : 0 ≤ b) (hb : b < (r.devs slot).cnt) (hv : -32768 ≤ v ∧ v < 32768) (id : BrMsgId)
    {op : BrCall} (hop : named b v id = some op) :
    BothPerform r slot b v id op ↔ id = .addBr ∨ id = .delBr ∨ id = .addBrIf := by
  have hc : (r.devs slot).cnt ≤ 256 := (hr.devs slot).cnt_le
  obtain ⟨d, hd⟩ := Option.isSome_iff_exists.mp (((hr.devs slot).deref_isSome b).mpr ⟨h0, hb⟩)
  have hid : id ≠ .dump := by
    rintro rfl
    cases hop
  rw [← performed_eq_named_iff (b := b) (v := v) hid, hop]
  constructor
  · intro h
    obtain ⟨p, hpb, hpv⟩ := exists_param (b := b) (v := v) ⟨by omega, by omega⟩ hv
    obtain ⟨fn, hh⟩ := exists_handler hid
    obtain ⟨op', hop'⟩ := exists_performed (b := b) (v := v) hid
    obtain ⟨d', rep, hd', hrun, hcalls⟩ := h.message fn p hh hpb hpv
    rw [runHandler_performs r slot hd hh hop' hpb hpv] at hrun
    cases hrun
    cases hcalls
    exact hop'
  · intro hp
    refine ⟨?_, ?_⟩
    · intro fn p hh hpb hpv
      exact ⟨d, _, hd, runHandler_performs r slot hd hh hp hpb hpv, rfl⟩
    · intro l n line hline
      exact ⟨d, hd, cliCmd_performs hc h0 hb hd l n hline hop⟩

theorem stubDir_bridge_dev : ∃ r : Registry Handler StubDev, load appFuncs stubDir = some r ∧
    WellFormed r ∧ (r.devs 1).cnt = 1 := by
  have hp : (protosOf (modules stubDir)).length < maxObjects := by decide
  obtain ⟨r, hr, hl⟩ := DeviceLinking.load_linked appFuncs stubDir
    (fitsHandles_of_length (by decide)) hp
  exact ⟨r, hr, load_wellFormed hp hr, (hl.devs 1 bridge (hl.protocols.slot_eq 1) rfl).cnt_eq⟩

theorem addBrIf_bothPerform : ∃ r, load appFuncs stubDir = some r ∧
    BothPerform r 1 0 5 .addBrIf (.addBrIf 0 5) := by
  obtain ⟨r, hr, hw, hc⟩ := stubDir_bridge_dev
  exact ⟨r, hr, (bothPerform_iff hw 1 (by decide) (by rw [hc]; decide) (by decide) .addBrIf rfl).mpr
    (Or.inr (Or.inr rfl))⟩

theorem setAge_adds_interface : ∃ r p d rep, load appFuncs stubDir = some r ∧
    handlerOf bridge BrMsgId.setAge.num = some .brSetAge ∧ bridgeId p = 0 ∧ intfId p = 5 ∧
    runHandler r 1 .brSetAge p = .ok rep ∧ rep.calls = [.br d (.addBrIf 0 5)] ∧
    ¬ BothPerform r 1 0 5 .setAge (.setAge 0 5) := by
  obtain ⟨r, hr, hw, hc⟩ := stubDir_bridge_dev
  obtain ⟨d, hd⟩ := Option.isSome_iff_exists.mp
    (((hw.devs 1).deref_isSome 0).mpr ⟨by decide, by rw [hc]; decide⟩)
  obtain ⟨p, hb, hv⟩ := exists_param (b := 0) (v := 5) (by decide) (by decide)
  have hfunc : handlerOf bridge BrMsgId.setAge.num = some .brSetAge := rfl
  have hrun := runHandler_performs r 1 hd hfunc rfl hb hv
  refine ⟨r, p, d, _, hr, hfunc, hb, hv, hrun, rfl, ?_⟩
  intro h
  obtain ⟨d', rep, -, hrun', hcalls⟩ := h.message .brSetAge p hfunc hb hv
  rw [hrun] at hrun'
  cases hrun'
  cases hcalls

end LibSwitch.BridgePaths

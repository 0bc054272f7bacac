import LibSwitch.BridgeGrammar
import LibSwitch.FilterOutcomes

namespace LibSwitch.FilterDevices

open LibSwitch.PointerTable LibSwitch.ByteBuffer LibSwitch.CText LibSwitch.ListRuns
open LibSwitch.Numeral LibSwitch.Common LibSwitch.FlowTypes LibSwitch.FlowFilter
open LibSwitch.BridgeGrammar LibSwitch.FilterWords LibSwitch.FilterGrammar
open LibSwitch.FilterSteps LibSwitch.FilterBounds LibSwitch.FilterOutcomes

variable {D : Type} {devCnt : Nat} {p ts : List CString} {t : CString}
variable {s s' : FlowFilter.Locals} {tuples : Vector Tuple 25} {actions : Vector Action 25}

def callIndex (devCnt : Nat) (tuples : Vector Tuple 25) (actions : Vector Action 25)
    (cmd : CString) : Option Int :=
  match filterLoops devCnt (tokens ' ' cmd) (initialLocals tuples actions) with
  | .error _ => none
  | .ok s => if s.flowCmd.isSome then some s.devId else none

def devNumber (ts : List CString) : Int := ((lastToken devName ts).bind optionShort).getD 0

theorem devNumber_concat_not (h : ¬ devName <+: t) : devNumber (p ++ [t]) = devNumber p := by
  rw [devNumber, lastToken_concat_not h, devNumber]

theorem devNumber_concat {v : Int} (h : devName <+: t) (hv : optionShort t = some v) :
    devNumber (p ++ [t]) = v := by
  rw [devNumber, lastToken_concat_of h, Option.bind_some, hv]
  rfl

theorem matchStep_devNumber (h : MatchStep devCnt t s s') (hs : s.devId = devNumber p) :
    s'.devId = devNumber (p ++ [t]) := by
  have hother {a : CString} (ha : a ∈ words) (hat : a <+: t) (hd : "dev".toList ≠ a) :
      devNumber (p ++ [t]) = s.devId := by
    rw [devNumber_concat_not (not_starts ha hat (by decide) hd), hs]
  cases h with
  | filter h => exact (hother (by decide) h (by decide)).symm
  | command op h => cases op <;> exact (hother (by decide) h (by decide)).symm
  | dev _ h v hv => exact (devNumber_concat h hv).symm
  | tbl _ h => exact (hother (by decide) h (by decide)).symm
  | field _ f hf h =>
    have hne := (chain_not_keyword f.word (word_mem_chain hf)).2.2.2.2.1
    exact (hother (word_mem_words hf) h hne).symm

theorem filterLoops_devId
    (h : filterLoops devCnt ts (initialLocals tuples actions) = .ok s) :
    s.devId = devNumber (matchPart ts) := by
  obtain ⟨s₁, hsteps, hactions⟩ := filterLoops_steps h
  rw [(actionSteps_frame hactions).2.1]
  exact hsteps.track (fun p s => s.devId = devNumber p) (fun _ _ _ _ => matchStep_devNumber)
    (p := []) rfl

theorem callIndex_iff {i : Int} {cmd : CString} :
    callIndex devCnt tuples actions cmd = some i ↔
      Accepted devCnt (tokens ' ' cmd) ∧ i = devNumber (matchPart (tokens ' ' cmd)) := by
  rw [← accepted_iff devCnt (tokens ' ' cmd) tuples actions, callIndex]
  cases hloops : filterLoops devCnt (tokens ' ' cmd) (initialLocals tuples actions) with
  | error e => simp
  | ok s =>
    rw [← filterLoops_devId hloops]
    by_cases hcmd : s.flowCmd.isSome = true
    · simp only [hcmd, if_true, Option.some.injEq, Except.ok.injEq, exists_eq_left', true_and]
      exact eq_comm
    · simp [hcmd]

/-- The numbers of the devices pass the check of the parser, which lets one too many through. -/
theorem devNumber_mem (h : Accepted devCnt ts) :
    0 ≤ devNumber (matchPart ts) ∧ devNumber (matchPart ts) ≤ devCnt := by
  rw [devNumber]
  cases hlast : lastToken devName (matchPart ts) with
  | none => simp
  | some t =>
    obtain ⟨ht, hdev⟩ := lastToken_mem hlast
    obtain ⟨q, r, hqr⟩ := List.append_of_mem ht
    have hpass := (h.takes q t r hqr).1
    have heq := hpass.follows.assigns (Or.inl hdev)
    rw [Option.bind_some]
    cases hv : optionShort t with
    | none => exact absurd heq (optionShort_eq_none.mp hv)
    | some v => exact hpass.dev hdev v hv

theorem accepted_calls {flwDevs : Table D} (tuples : Vector Tuple 25)
    (actions : Vector Action 25) {cmd : CString} (hf : Filled maxObjects flwDevs)
    (h : Accepted flwDevs.cnt (tokens ' ' cmd))
    (hne : devNumber (matchPart (tokens ' ' cmd)) ≠ flwDevs.cnt) :
    ∃ d call, fibCmdFilter flwDevs tuples actions cmd = .calls d call := by
  obtain ⟨s, hloops, hcmd⟩ := (accepted_iff _ _ tuples actions).mpr h
  obtain ⟨h0, hle⟩ := devNumber_mem h
  rw [← filterLoops_devId hloops] at h0 hle hne
  obtain ⟨d, hd⟩ := Option.isSome_iff_exists.mp ((hf.deref_isSome s.devId).mpr ⟨h0, by omega⟩)
  obtain ⟨op, hop⟩ := Option.isSome_iff_exists.mp hcmd
  rw [fibCmdFilter, hloops]
  exact ⟨d, _, FilterSteps.deviceCall_iff.mpr ⟨op, hop, hd, rfl⟩⟩

def oneDev : Table Unit := ofList [()]

end LibSwitch.FilterDevices

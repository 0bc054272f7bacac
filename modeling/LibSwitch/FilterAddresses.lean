import LibSwitch.FilterOutcomes

namespace LibSwitch.FilterAddresses

open LibSwitch.PointerTable LibSwitch.ByteBuffer LibSwitch.CText LibSwitch.ListRuns
open LibSwitch.Numeral LibSwitch.Address LibSwitch.Common LibSwitch.FlowTypes
open LibSwitch.FlowFilter LibSwitch.FilterWords LibSwitch.FilterGrammar LibSwitch.FilterSteps
open LibSwitch.FilterBounds LibSwitch.FilterOutcomes

variable {D : Type} {devCnt : Nat} {p ts : List CString} {t : CString}
variable {tuples : Vector Tuple 25} {actions : Vector Action 25}

/-- The match loop gets to the token, past all those before it. -/
def Reached (devCnt : Nat) (tuples : Vector Tuple 25) (actions : Vector Action 25)
    (ts : List CString) (t : CString) : Prop :=
  ∃ p q s, ts = p ++ t :: q ∧ Steps (fun u s s' => matchOption devCnt u s = .ok (some s')) p
    (initialLocals tuples actions) s

def MalformedMac (t : CString) : Prop :=
  ("dl-dst".toList <+: t ∨ "dl-src".toList <+: t) ∧
    ∃ v, optionValue t = some v ∧ etherAton v = none

def MalformedIp (t : CString) : Prop :=
  ("nw-dst".toList <+: t ∨ "nw-src".toList <+: t) ∧
    ∃ v, optionValue t = some v ∧ inetPton v = none

def Malformed (t : CString) : Prop := MalformedMac t ∨ MalformedIp t

/-- A line on which the parser reaches a malformed address is given up. -/
def Refuses (flwDevs : Table D) (tuples : Vector Tuple 25) (actions : Vector Action 25)
    (cmd : CString) : Prop :=
  (∃ t, Reached flwDevs.cnt tuples actions (tokens ' ' cmd) t ∧ Malformed t) →
    fibCmdFilter flwDevs tuples actions cmd = .stops .out

/-- No malformed `dl-src` is in its place, no line of the grammar has a malformed IPv4 address,
and none that reaches a malformed address leaves the arrays. -/
structure Guarded (devCnt : Nat) (ts : List CString) : Prop where
  srcMac : ¬ Arises (Takes devCnt) NullAt [] (matchPart ts)
  ip : Accepted devCnt ts → ∀ t ∈ matchPart ts, ¬ MalformedIp t
  bounded : Arises (Takes devCnt) (fun _ => Malformed) [] (matchPart ts) → Bounded devCnt ts

theorem malformed_isMatch (h : Malformed t) : IsMatch chain t := by
  obtain ⟨h | h, -⟩ | ⟨h | h, -⟩ := h <;> exact ⟨_, by decide, h⟩

theorem isMatch_not_marker (h : IsMatch chain t) : isMarker t = false := by
  rw [isMarker, Bool.eq_false_iff, ne_eq, List.isPrefixOf_iff_prefix]
  exact fun hm => not_isMatch (by decide) (by decide) hm h

theorem matchPart_append (h : ∀ u ∈ p, isMarker u = false) (q : List CString) :
    matchPart (p ++ q) = p ++ matchPart q :=
  List.takeWhile_append_of_pos (by simpa using h)

theorem steps_not_marker {s s' : Locals} (h : Steps (MatchStep devCnt) p s s') :
    ∀ u ∈ p, isMarker u = false := by
  induction h with
  | nil => exact List.forall_mem_nil _
  | cons hi _ ih => exact List.forall_mem_cons.mpr ⟨hi.not_marker, ih⟩

/-- The tokens reached are those behind tokens that the match loop takes. -/
theorem reached_iff :
    (∃ t, Reached devCnt tuples actions ts t ∧ Malformed t) ↔
      Arises (Takes devCnt) (fun _ => Malformed) [] (matchPart ts) := by
  have hw := within_initial devCnt tuples actions
  simp only [Reached, matchOption_iff]
  constructor
  · rintro ⟨t, ⟨p, q, s, rfl, hsteps⟩, hmal⟩
    have hp := steps_not_marker hsteps
    have ht := isMatch_not_marker (malformed_isMatch hmal)
    refine ⟨p, t, matchPart q, ?_, (matchSteps_takes hp hw).mp ⟨s, hsteps⟩, hmal⟩
    rw [matchPart_append hp, (matchPart_cons ht q).1]
  · rintro ⟨p, t, r, hpart, htakes, hmal⟩
    have hp : ∀ u ∈ p, isMarker u = false := by
      intro u hu
      refine matchPart_not_marker ts u ?_
      rw [hpart]
      exact List.mem_append_left _ hu
    obtain ⟨s, hsteps⟩ := (matchSteps_takes hp hw).mpr htakes
    have hts : ts = p ++ t :: (r ++ ts.dropWhile fun u => !isMarker u) := by
      conv_lhs => rw [← List.takeWhile_append_dropWhile (p := fun u => !isMarker u) (l := ts)]
      change matchPart ts ++ _ = _
      rw [hpart, List.append_assoc, List.cons_append]
    exact ⟨t, ⟨p, _, s, hts, hsteps⟩, hmal⟩

theorem isCommand_of_takes (h : Throughout (Takes devCnt) [] ts) (ht : t ∈ ts)
    (hm : IsMatch chain t) : ∃ u ∈ ts, IsCommand u := by
  obtain ⟨q, r, rfl⟩ := List.append_of_mem ht
  obtain ⟨u, hu, hcmd⟩ := ((h q t r rfl).1.fills hm).command
  exact ⟨u, List.mem_append_left _ hu, hcmd⟩

theorem malformed_of_passes (h : Passes devCnt p t) (hm : Malformed t) : MalformedIp t := by
  obtain ⟨hmac | hmac, v, hv, hnone⟩ | hip := hm
  · have hsome := h.follows.dstMac hmac v hv
    rw [hnone] at hsome
    cases hsome
  · have hsome := h.srcMac hmac v hv
    rw [hnone] at hsome
    cases hsome
  · exact hip

/-- A line that reaches a malformed address is given up unless it follows the null address of
`dl-src`, leaves the arrays or is of the grammar all the same. -/
theorem gives_up_iff (flwDevs : Table D)
    (hmal : Arises (Takes flwDevs.cnt) (fun _ => Malformed) [] (matchPart ts)) {cmd : CString}
    (hts : tokens ' ' cmd = ts) :
    fibCmdFilter flwDevs tuples actions cmd = .stops .out ↔
      ¬ Arises (Takes flwDevs.cnt) NullAt [] (matchPart ts) ∧ Bounded flwDevs.cnt ts ∧
        ¬ Accepted flwDevs.cnt ts := by
  have hnull := filterLoops_null_iff flwDevs.cnt ts tuples actions
  have hover := filterLoops_overrun_iff flwDevs.cnt ts tuples actions
  have hacc := accepted_iff flwDevs.cnt ts tuples actions
  rw [fibCmdFilter, hts]
  cases hloops : filterLoops flwDevs.cnt ts (initialLocals tuples actions) with
  | error e =>
    rw [hloops] at hnull hover hacc
    rw [← hnull, ← hacc]
    cases e with
    | out => exact iff_of_true rfl ⟨by simp, not_not.mp (mt hover.mpr (by simp)), by simp⟩
    | overrun => exact iff_of_false (by simp) fun h => hover.mp rfl h.2.1
    | nullAddr => exact iff_of_false (by simp) fun h => h.1 rfl
  | ok s =>
    have hcall : deviceCall flwDevs s ≠ .stops .out := by
      rw [deviceCall]
      split
      · simp
      · split <;> simp
    refine iff_of_false hcall fun h => h.2.2 (hacc.mp ⟨s, hloops, ?_⟩)
    obtain ⟨s₁, hsteps, hactions⟩ := filterLoops_steps hloops
    obtain ⟨-, t, ht, hm⟩ := arises_mem hmal
    have hw := within_initial flwDevs.cnt tuples actions
    have htakes := (matchSteps_takes (matchPart_not_marker ts) hw).mp ⟨s₁, hsteps⟩
    have hsees := (matchSteps_within hsteps hw).1
    rw [List.nil_append] at hsees
    rw [(actionSteps_frame hactions).1]
    exact hsees.flowCmd.mpr (isCommand_of_takes htakes ht (malformed_isMatch hm))

theorem arises_malformed_of_null (h : Arises (Takes devCnt) NullAt p ts) :
    Arises (Takes devCnt) (fun _ => Malformed) p ts := by
  obtain ⟨q, t, r, hts, htakes, hnull⟩ := h
  exact ⟨q, t, r, hts, htakes, Or.inl ⟨Or.inr hnull.srcMac, hnull.malformed⟩⟩

def sourceTokens : List CString :=
  ["filter".toList, "add".toList, "in-phy-port=1".toList, "in-port=1".toList,
   "dl-dst=0:0:0:0:0:1".toList]

def networkTokens : List CString :=
  sourceTokens ++ ["dl-src=0:0:0:0:0:2".toList, "dl-type=800".toList]

end LibSwitch.FilterAddresses

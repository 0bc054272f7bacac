import LibSwitch.FilterOutcomes

namespace LibSwitch.FilterSpelling

open LibSwitch.PointerTable LibSwitch.CText LibSwitch.Address LibSwitch.Common
open LibSwitch.FlowTypes LibSwitch.FlowFilter LibSwitch.FilterWords LibSwitch.FilterGrammar
open LibSwitch.FilterSteps LibSwitch.FilterBounds LibSwitch.FilterOutcomes

variable {D : Type}

/-- A token that the match loop takes for `dl-type` without its last letter. -/
def Abbreviated (t : CString) : Prop := "dl-typ".toList <+: t ∧ ¬ "dl-type".toList <+: t

instance (t : CString) : Decidable (Abbreviated t) :=
  inferInstanceAs (Decidable ("dl-typ".toList <+: t ∧ ¬ "dl-type".toList <+: t))

/-- A line with abbreviated tokens that is of the grammar otherwise, and within the arrays. -/
structure Misspelled (ts : List CString) : Prop where
  abbreviated : ∃ t ∈ matchPart ts, Abbreviated t
  grammar : Grammar chain ts
  tuples : ((matchPart ts).filterMap (place chain)).length ≤ 25

variable {devCnt : Nat} {p ts : List CString} {t : CString}

theorem prefix_iff_of_not_abbreviated (h : ¬ Abbreviated t) :
    "dl-type".toList <+: t ↔ "dl-typ".toList <+: t := by
  constructor
  · exact (show "dl-typ".toList <+: "dl-type".toList by decide).trans
  · intro hp
    by_contra hno
    exact h ⟨hp, hno⟩

theorem isMatch_iff_of_not_abbreviated (h : ¬ Abbreviated t) :
    IsMatch matchNames t ↔ IsMatch chain t := by
  simp only [IsMatch, matchNames, chain, List.mem_cons, List.not_mem_nil, or_false,
    exists_eq_or_imp, exists_eq_left, prefix_iff_of_not_abbreviated h]

theorem place_of_not_abbreviated (h : ¬ Abbreviated t) : place matchNames t = place chain t := by
  have hword : "dl-type".toList.isPrefixOf t = "dl-typ".toList.isPrefixOf t := by
    rw [Bool.eq_iff_iff, List.isPrefixOf_iff_prefix, List.isPrefixOf_iff_prefix]
    exact prefix_iff_of_not_abbreviated h
  simp only [place, matchNames, chain, List.findIdx?_cons, hword]

/-- No option of the grammar starts with `dl-typ` but those with the whole name. -/
theorem not_follows_of_abbreviated (h : Abbreviated t) : ¬ Follows matchNames p t := by
  have hno {w : CString} (hw : w ∈ words) (hne : w ≠ "dl-typ".toList) : ¬ w <+: t :=
    not_starts (by decide) h.1 hw hne
  have hplain : ∀ n ∈ matchNames, n ≠ "dl-type".toList → n ∈ words ∧ n ≠ "dl-typ".toList := by
    decide
  intro hf
  obtain hk | (hk | hk | hk) | hk | hk | ⟨n, hn, hk⟩ := hf.known
  · exact hno (by decide) (by decide) hk
  · exact hno (by decide) (by decide) hk
  · exact hno (by decide) (by decide) hk
  · exact hno (by decide) (by decide) hk
  · exact hno (by decide) (by decide) hk
  · exact hno (by decide) (by decide) hk
  · obtain rfl | hne := eq_or_ne n "dl-type".toList
    · exact h.2 hk
    · obtain ⟨hw, hne'⟩ := hplain n hn hne
      exact hno hw hne' hk

theorem places_of_not_abbreviated {q r : List CString} (hno : ∀ t ∈ matchPart ts, ¬ Abbreviated t)
    (hq : matchPart ts = q ++ r) :
    q.filterMap (place matchNames) = q.filterMap (place chain) := by
  apply List.filterMap_congr
  intro t ht
  refine place_of_not_abbreviated (hno t ?_)
  rw [hq]
  exact List.mem_append_left r ht

theorem follows_iff_of_not_abbreviated {q r : List CString}
    (hno : ∀ t ∈ matchPart ts, ¬ Abbreviated t) (hq : matchPart ts = q ++ t :: r) :
    Follows matchNames q t ↔ Follows chain q t := by
  have ht : ¬ Abbreviated t := by
    apply hno
    rw [hq]
    exact List.mem_append_right q List.mem_cons_self
  have hmatch := isMatch_iff_of_not_abbreviated ht
  have hplace := place_of_not_abbreviated ht
  have hlast : lastPlace matchNames q = lastPlace chain q := by
    rw [lastPlace, lastPlace, places_of_not_abbreviated hno hq]
  constructor
  · rintro ⟨hknown, hcmd, hassigns, htbl, hdst, hchained⟩
    rw [hmatch] at hknown hassigns
    rw [hplace, hlast] at hchained
    exact ⟨hknown, hcmd, hassigns, htbl, hdst, hchained⟩
  · rintro ⟨hknown, hcmd, hassigns, htbl, hdst, hchained⟩
    rw [← hmatch] at hknown hassigns
    rw [← hplace, ← hlast] at hchained
    exact ⟨hknown, hcmd, hassigns, htbl, hdst, hchained⟩

theorem grammar_iff_of_not_abbreviated (hno : ∀ t ∈ matchPart ts, ¬ Abbreviated t) :
    Grammar matchNames ts ↔ Grammar chain ts := by
  constructor
  · rintro ⟨hfollows, hcmd, hact⟩
    refine ⟨fun q t r hq => ?_, hcmd, hact⟩
    exact (follows_iff_of_not_abbreviated hno hq).mp (hfollows q t r hq)
  · rintro ⟨hfollows, hcmd, hact⟩
    refine ⟨fun q t r hq => ?_, hcmd, hact⟩
    exact (follows_iff_of_not_abbreviated hno hq).mpr (hfollows q t r hq)

theorem tuples_fit {flwDevs : Table D} {tuples : Vector Tuple 25} {actions : Vector Action 25}
    {cmd : CString} {d : D} {c : FlwCall}
    (h : fibCmdFilter flwDevs tuples actions cmd = .calls d c) :
    ((matchPart (tokens ' ' cmd)).filterMap (place chain)).length ≤ 25 := by
  obtain ⟨s₁, s₂, op, hmatch, -⟩ := fibCmdFilter_calls_iff.mp h
  obtain ⟨hsees, hle⟩ := matchSteps_within hmatch (within_initial flwDevs.cnt tuples actions)
  rw [hsees.tupleCnt] at hle
  exact hle

theorem inDomain_of_checks (hdev : ∀ t ∈ matchPart ts, ¬ "dev".toList <+: t)
    (hsrc : ∀ t ∈ matchPart ts, "dl-src".toList <+: t →
      (optionValue t).any fun v => (etherAton v).isSome)
    (htuples : ((matchPart ts).filterMap (place matchNames)).length ≤ 25)
    (hactions : (actionPart ts).length ≤ 25) : InDomain matchNames 1 ts := by
  refine ⟨fun t ht h => absurd h (hdev t ht), fun _ => Nat.one_pos, ?_, htuples, hactions⟩
  intro t ht h v hv
  have hany := hsrc t ht h
  rwa [hv] at hany

def etherTokens : List CString :=
  ["filter".toList, "add".toList, "in-phy-port=1".toList, "in-port=1".toList,
   "dl-dst=0:0:0:0:0:1".toList, "dl-src=0:0:0:0:0:2".toList]

def abbreviatedLine : CString := join ' ' (etherTokens ++ ["dl-typ=800".toList])

def wholeLine : CString := join ' ' (etherTokens ++ ["dl-type=800".toList])

end LibSwitch.FilterSpelling

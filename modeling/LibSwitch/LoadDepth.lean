import LibSwitch.LoadEnds

namespace LibSwitch.LoadDepth

open Relation
open LibSwitch.PointerTable LibSwitch.CText LibSwitch.LineInput LibSwitch.FileLines
open LibSwitch.BridgeCommands LibSwitch.BridgeLoad LibSwitch.FiniteGraph LibSwitch.LoadEnds

variable {D : Type} {files : Files} {cmd a b : CString} {k : Nat}

theorem endsWithin_of_absent (h : ∀ a, ¬ LoadsFile files cmd a) : EndsWithin files (k + 1) cmd := by
  intro hload l hl
  rw [cmdLoad_absent hload h] at hl
  cases hl

/-- One call for the command, one for each file on the way, and one for the last line. -/
theorem endsWithin_of_bounded (h : Bounded (Loads files) k a) (ha : LoadsFile files cmd a) :
    EndsWithin files (k + 2) cmd := by
  induction k generalizing a cmd with
  | zero =>
    intro _ l hl
    obtain ⟨s, hs⟩ := Option.isSome_iff_exists.mp ha.opens
    rw [cmdLoad_loads ha hs] at hl
    exact endsWithin_of_absent fun b hb => h b ⟨s, hs, l, hl, hb⟩
  | succ k ih =>
    intro _ l hl
    obtain ⟨s, hs⟩ := Option.isSome_iff_exists.mp ha.opens
    rw [cmdLoad_loads ha hs] at hl
    by_cases hb : ∃ b, LoadsFile files l b
    · obtain ⟨b, hb⟩ := hb
      exact ih (h b ⟨s, hs, l, hl, hb⟩) hb
    · exact endsWithin_of_absent fun b hlb => hb ⟨b, hlb⟩

theorem mem_of_way (h : TransGen (Loads files) a b) : b ∈ files.map Prod.fst := by
  obtain ⟨c, -, _, -, _, -, hb⟩ := TransGen.tail'_iff.mp h
  exact mem_of_opens hb.opens

/-- A file that is not on a cycle is behind none of the files it reaches. -/
theorem bounded_of_acc (h : Acc (flip (Loads files)) a) (ha : a ∈ files.map Prod.fst) :
    Bounded (Loads files) (files.length - 1) a := by
  have hno (b : CString) (hab : ReflTransGen (Loads files) a b) : ¬ TransGen (Loads files) b b :=
    not_cycle_of_acc (acc_of_reach h hab)
  have hlen : ((files.map Prod.fst).erase a).length = files.length - 1 := by
    rw [List.length_erase_of_mem ha, List.length_map]
  refine bounded_of_acyclic hlen (fun b hab => ?_) fun b hab => hno b hab.to_reflTransGen
  have hne : b ≠ a := by
    rintro rfl
    exact hno b .refl hab
  exact (List.mem_erase_of_ne hne).mpr (mem_of_way hab)

/-- A run that ends has nested no more calls than there are files, and one. The files can be
opened at any depth. -/
theorem nesting_bound (files : Files) (devs : Table D) (mem : List Nat → Locals) (cmd : CString) :
    (∃ k, (cliRun files devs k mem cmd).isSome) ↔
      (cliRun files devs (files.length + 1) mem cmd).isSome := by
  simp only [cliRun_isSome]
  constructor
  · intro hends
    by_cases ha : ∃ a, LoadsFile files cmd a
    · obtain ⟨a, ha⟩ := ha
      have hmem : a ∈ files.map Prod.fst := mem_of_opens ha.opens
      have hpos : 0 < files.length := by
        rw [← List.length_map Prod.fst]
        exact List.length_pos_of_mem hmem
      have hbound := bounded_of_acc (endsWithin_iff.mp hends a ha) hmem
      exact endsWithin_mono (by omega) (endsWithin_of_bounded hbound ha)
    · exact endsWithin_of_absent fun a hload => ha ⟨a, hload⟩
  · exact fun h => ⟨_, h⟩

end LibSwitch.LoadDepth

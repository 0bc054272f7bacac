import Mathlib.Data.List.Forall2
import Mathlib.Tactic.Common

namespace LibSwitch.Reactive

variable {S I O : Type}

/-- The runs of a machine that answers one input at a time. The outputs are listed
input by input, and a machine that has stopped takes no further input. -/
inductive Run (step : S → I → Option (O × S)) : S → List I → List O → S → Prop
  | nil (s : S) : Run step s [] [] s
  | cons {s s' t : S} {i : I} {o : O} {is : List I} {os : List O} :
      step s i = some (o, s') → Run step s' is os t → Run step s (i :: is) (o :: os) t

variable {step : S → I → Option (O × S)} {s t : S} {is : List I} {os : List O}

theorem Run.unique (h : Run step s is os t) {os' : List O} {t' : S} (h' : Run step s is os' t') :
    os = os' ∧ t = t' := by
  induction h generalizing os' with
  | nil =>
    cases h'
    exact ⟨rfl, rfl⟩
  | cons hs _ ih =>
    cases h' with
    | cons hs' hr' =>
      rw [hs] at hs'
      cases hs'
      obtain ⟨rfl, rfl⟩ := ih hr'
      exact ⟨rfl, rfl⟩

theorem Run.cons_iff {s' : S} {i : I} {o : O} (hs : step s i = some (o, s')) :
    Run step s (i :: is) os t ↔ ∃ os', os = o :: os' ∧ Run step s' is os' t := by
  constructor
  · intro h
    cases h with
    | cons hs' h' =>
      cases hs.symm.trans hs'
      exact ⟨_, rfl, h'⟩
  · rintro ⟨os', rfl, h⟩
    exact .cons hs h

theorem Run.append {u : S} {is' : List I} {os' : List O} (h : Run step s is os t)
    (h' : Run step t is' os' u) : Run step s (is ++ is') (os ++ os') u := by
  induction h with
  | nil => exact h'
  | cons hs _ ih => exact .cons hs (ih h')

theorem Run.split {is' : List I} (h : Run step s (is ++ is') os t) :
    ∃ os₁ u os₂, os = os₁ ++ os₂ ∧ Run step s is os₁ u ∧ Run step u is' os₂ t := by
  induction is generalizing s os with
  | nil => exact ⟨[], s, os, rfl, .nil s, h⟩
  | cons i is ih =>
    cases h with
    | cons hs h =>
      obtain ⟨os₁, u, os₂, rfl, h₁, h₂⟩ := ih h
      exact ⟨_ :: os₁, u, os₂, rfl, .cons hs h₁, h₂⟩

/-- What a step on any of the inputs keeps holds at the end of the run. -/
theorem Run.invariant (P : S → Prop) (Ok : I → Prop)
    (hstep : ∀ s i o s', step s i = some (o, s') → Ok i → P s → P s')
    (h : Run step s is os t) (his : ∀ i ∈ is, Ok i) (hs : P s) : P t := by
  induction h with
  | nil => exact hs
  | cons hi _ ih =>
    rw [List.forall_mem_cons] at his
    exact ih his.2 (hstep _ _ _ _ hi his.1 hs)

/-- Where each of the counted inputs lowers a rank by one and the others keep it, a run has as
many of them as the rank falls. -/
theorem Run.rank (P : S → Prop) (Ok : I → Prop) (counted : I → Bool) (rank : S → Nat)
    (hstep : ∀ s i o s', step s i = some (o, s') → Ok i → P s →
      P s' ∧ (if counted i then 1 else 0) + rank s' = rank s)
    (h : Run step s is os t) (his : ∀ i ∈ is, Ok i) (hs : P s) :
    P t ∧ is.countP counted + rank t = rank s := by
  induction h with
  | nil => exact ⟨hs, Nat.zero_add _⟩
  | cons hi _ ih =>
    rw [List.forall_mem_cons] at his
    obtain ⟨hs', hrank⟩ := hstep _ _ _ _ hi his.1 hs
    obtain ⟨ht, hcount⟩ := ih his.2 hs'
    refine ⟨ht, ?_⟩
    rw [List.countP_cons]
    omega

/-- The outputs on the inputs that are a component's own. -/
def picked {J : Type} (own : I → Option J) : List I → List O → List O
  | i :: is, o :: os => if (own i).isSome then o :: picked own is os else picked own is os
  | _, _ => []

/-- Where a component of the machine moves on its own inputs as it does by itself, and on no
others, a run of the machine shows a run of the component on its own inputs. What the machine
puts out on these tells of the outputs of the component. -/
theorem Run.component {C J O' : Type} {part : C → J → Option (O' × C)} (view : S → C → Prop)
    (own : I → Option J) (tells : O → O' → Prop)
    (hown : ∀ s i o s' j c, step s i = some (o, s') → own i = some j → view s c →
      ∃ o' c', part c j = some (o', c') ∧ tells o o' ∧ view s' c')
    (hother : ∀ s i o s' c, step s i = some (o, s') → own i = none → view s c → view s' c)
    (h : Run step s is os t) {c : C} (hc : view s c) :
    ∃ os' c', Run part c (is.filterMap own) os' c' ∧ List.Forall₂ tells (picked own is os) os' ∧
      view t c' := by
  induction h generalizing c with
  | nil => exact ⟨[], c, .nil c, .nil, hc⟩
  | @cons s s' t i o is os hs _ ih =>
    rw [List.filterMap_cons, picked]
    cases hi : own i with
    | none => exact ih (hother s i o s' c hs hi hc)
    | some j =>
      obtain ⟨o', c₁, hpart, htells, hc₁⟩ := hown s i o s' j c hs hi hc
      obtain ⟨os', c₂, hrun, hall, hc₂⟩ := ih hc₁
      exact ⟨o' :: os', c₂, .cons hpart hrun, .cons htells hall, hc₂⟩

theorem Run.concat {u : S} {i : I} {o : O} (h : Run step s is os t) (hs : step t i = some (o, u)) :
    Run step s (is ++ [i]) (os ++ [o]) u :=
  h.append (.cons hs (.nil u))

/-- What a run has done so far and where it stands, by induction on its last step. -/
theorem Run.history {J : List I → List O → S → Prop} (h : Run step s is os t) (hnil : J [] [] s)
    (hconcat : ∀ is os u i o v, Run step s is os u → J is os u → step u i = some (o, v) →
      J (is ++ [i]) (os ++ [o]) v) : J is os t := by
  suffices hgo : ∀ pre pos, Run step s (pre ++ is) (pos ++ os) t →
      ∀ u, Run step s pre pos u → Run step u is os t → J pre pos u → J (pre ++ is) (pos ++ os) t by
    exact hgo [] [] h s (.nil s) h hnil
  clear h
  induction is generalizing os with
  | nil =>
    intro pre pos _ u _ hrest hJ
    cases hrest
    rwa [List.append_nil, List.append_nil]
  | cons i is ih =>
    intro pre pos hall u hpre hrest hJ
    cases hrest with
    | @cons _ v _ _ o _ os hs hrest =>
      rw [List.append_cons pre, List.append_cons pos] at hall ⊢
      exact ih _ _ hall v (hpre.concat hs) hrest (hconcat _ _ _ _ _ _ hpre hJ hs)

/-- Where steps on the good inputs keep a property and a step on any other one breaks it, it
holds in every state a run reaches exactly when all inputs of the run are good. -/
theorem Run.throughout_iff {J P : S → Prop} {Good : I → Prop}
    (hJ : ∀ u i o v, step u i = some (o, v) → J u → J v)
    (hgood : ∀ u i o v, step u i = some (o, v) → Good i → J u → P u → P v)
    (hbad : ∀ u i o v, step u i = some (o, v) → ¬ Good i → J u → ¬ P v)
    (h : Run step s is os t) (hJs : J s) (hs : P s) :
    (∀ is' os' u, is' <+: is → Run step s is' os' u → P u) ↔ ∀ i ∈ is, Good i := by
  have keeps {is' : List I} {os' : List O} {u : S} (h : Run step s is' os' u) : J u :=
    h.invariant J (fun _ => True) (fun u i o v hs _ hu => hJ u i o v hs hu)
      (fun _ _ => trivial) hJs
  constructor
  · intro hall i hi
    by_contra hi'
    obtain ⟨pre, post, rfl⟩ := List.append_of_mem hi
    rw [List.append_cons] at h hall
    obtain ⟨os₁, u, _, -, hrun, -⟩ := h.split
    have hu := hall _ _ _ (List.prefix_append _ post) hrun
    obtain ⟨_, v, _, -, hpre, hlast⟩ := hrun.split
    cases hlast with
    | cons hs hnil =>
      cases hnil
      exact hbad v i _ u hs hi' (keeps hpre) hu
  · intro hall is' os' u hpre hrun
    have hboth : J u ∧ P u := hrun.invariant (fun u => J u ∧ P u) Good
      (fun u i o v hs hi hu => ⟨hJ u i o v hs hu.1, hgood u i o v hs hi hu.1 hu.2⟩)
      (fun i hi => hall i (hpre.subset hi)) ⟨hJs, hs⟩
    exact hboth.2

def During (step : S → I → Option (O × S)) (s : S) (is : List I) (P : S → I → Prop) : Prop :=
  ∃ pre i post os u, is = pre ++ i :: post ∧ Run step s pre os u ∧ P u i

theorem not_during_nil (P : S → I → Prop) : ¬ During step s [] P := by
  rintro ⟨pre, i, post, os, u, h, -⟩
  exact absurd h.symm (by simp)

theorem Run.during_concat {P : S → I → Prop} (h : Run step s is os t) (i : I) :
    During step s (is ++ [i]) P ↔ During step s is P ∨ P t i := by
  constructor
  · rintro ⟨pre, j, post, os', u, heq, hrun, hP⟩
    obtain rfl | ⟨post, k, rfl⟩ := List.eq_nil_or_concat post
    · obtain ⟨rfl, hj⟩ := List.append_inj' heq rfl
      cases hj
      obtain ⟨-, rfl⟩ := h.unique hrun
      exact Or.inr hP
    · rw [List.concat_eq_append, ← List.cons_append, ← List.append_assoc] at heq
      obtain ⟨rfl, -⟩ := List.append_inj' heq rfl
      exact Or.inl ⟨pre, j, post, os', u, rfl, hrun, hP⟩
  · rintro (⟨pre, j, post, os', u, rfl, hrun, hP⟩ | hP)
    · exact ⟨pre, j, post ++ [i], os', u, by rw [List.append_assoc, List.cons_append], hrun, hP⟩
    · exact ⟨is, i, [], os, t, rfl, h, hP⟩

theorem Run.length_eq (h : Run step s is os t) : is.length = os.length := by
  induction h with
  | nil => rfl
  | cons _ _ ih => rw [List.length_cons, List.length_cons, ih]

theorem picked_append {J : Type} (own : I → Option J) {is' : List I} {os' : List O}
    (h : is.length = os.length) :
    picked own (is ++ is') (os ++ os') = picked own is os ++ picked own is' os' := by
  induction is generalizing os with
  | nil =>
    cases os with
    | nil => rfl
    | cons o os => cases h
  | cons i is ih =>
    cases os with
    | nil => cases h
    | cons o os =>
      rw [List.cons_append, List.cons_append, picked, picked, ih (Nat.succ.inj h)]
      split <;> rfl

end LibSwitch.Reactive

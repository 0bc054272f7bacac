import Mathlib.Data.List.Forall2
import Mathlib.Tactic.Common

namespace LibSwitch.ListRuns

variable {I J S T : Type}

/-- The runs of a relation that reads one item of a list at each step. -/
inductive Steps (R : I → S → S → Prop) : List I → S → S → Prop
  | nil (s : S) : Steps R [] s s
  | cons {i : I} {is : List I} {s u t : S} : R i s u → Steps R is u t → Steps R (i :: is) s t

variable {R : I → S → S → Prop} {is : List I} {s t : S}

theorem steps_nil_iff : Steps R [] s t ↔ t = s := by
  constructor
  · intro h
    cases h
    rfl
  · rintro rfl
    exact .nil _

theorem steps_cons_iff {i : I} : Steps R (i :: is) s t ↔ ∃ u, R i s u ∧ Steps R is u t := by
  constructor
  · intro h
    cases h with
    | cons hi hs => exact ⟨_, hi, hs⟩
  · rintro ⟨u, hi, hs⟩
    exact .cons hi hs

/-- A loop that takes one step for each item, and stops where there is none, takes the steps of
the run. -/
theorem loop_iff_steps {E : List I → S → S → Prop} (hnil : ∀ s t, E [] s t ↔ t = s)
    (hcons : ∀ i is s t, E (i :: is) s t ↔ ∃ u, R i s u ∧ E is u t) :
    E is s t ↔ Steps R is s t := by
  induction is generalizing s with
  | nil => rw [hnil, steps_nil_iff]
  | cons i is ih =>
    rw [hcons, steps_cons_iff]
    exact exists_congr fun u => and_congr_right fun _ => ih

theorem Steps.invariant (P : S → Prop) (hstep : ∀ i s t, R i s t → P s → P t)
    (h : Steps R is s t) (hs : P s) : P t := by
  induction h with
  | nil => exact hs
  | cons hi _ ih => exact ih (hstep _ _ _ hi hs)

theorem Steps.track (P : List I → S → Prop)
    (hstep : ∀ p i s t, R i s t → P p s → P (p ++ [i]) t) {p : List I} (h : Steps R is s t)
    (hs : P p s) : P (p ++ is) t := by
  induction h generalizing p with
  | nil => rwa [List.append_nil]
  | cons hi _ ih =>
    rw [List.append_cons]
    exact ih (hstep _ _ _ _ hi hs)

/-- A relation that every step keeps, on corresponding items, lifts a run to another one. -/
theorem Steps.simulate {Q : J → T → T → Prop} (Rel : S → T → Prop) (g : I → J)
    (hstep : ∀ i s t s', R i s t → Rel s s' → ∃ t', Q (g i) s' t' ∧ Rel t t') {s' : T}
    (h : Steps R is s t) (hs : Rel s s') : ∃ t', Steps Q (is.map g) s' t' ∧ Rel t t' := by
  induction h generalizing s' with
  | nil => exact ⟨s', .nil s', hs⟩
  | cons hi _ ih =>
    obtain ⟨u', hu, hrel⟩ := hstep _ _ _ _ hi hs
    obtain ⟨t', ht, hrel'⟩ := ih hrel
    exact ⟨t', .cons hu ht, hrel'⟩

/-- Every item fits what stands before it, a list that begins with `p`. -/
def Throughout (P : List I → I → Prop) (p is : List I) : Prop :=
  ∀ q i r, is = q ++ i :: r → P (p ++ q) i

/-- Some item meets `Q` while all items before it fit. -/
def Arises (P Q : List I → I → Prop) (p is : List I) : Prop :=
  ∃ q i r, is = q ++ i :: r ∧ Throughout P p q ∧ Q (p ++ q) i

variable {P Q : List I → I → Prop} {p : List I} {i : I}

theorem throughout_nil : Throughout P p [] := by
  intro q i r h
  exact absurd h (List.append_ne_nil_of_right_ne_nil q (List.cons_ne_nil i r)).symm

theorem throughout_cons : Throughout P p (i :: is) ↔ P p i ∧ Throughout P (p ++ [i]) is := by
  constructor
  · intro h
    refine ⟨by simpa using h [] i is rfl, ?_⟩
    intro q j r his
    have hj := h (i :: q) j r (by rw [his, List.cons_append])
    rwa [List.append_cons] at hj
  · rintro ⟨hi, his⟩ q j r heq
    cases q with
    | nil =>
      cases heq
      simpa using hi
    | cons k q =>
      cases heq
      rw [List.append_cons]
      exact his q j r rfl

theorem not_arises_nil : ¬ Arises P Q p [] := by
  rintro ⟨q, i, r, h, -⟩
  exact absurd h (List.append_ne_nil_of_right_ne_nil q (List.cons_ne_nil i r)).symm

theorem arises_cons :
    Arises P Q p (i :: is) ↔ Q p i ∨ P p i ∧ Arises P Q (p ++ [i]) is := by
  constructor
  · rintro ⟨q, j, r, heq, hq, hj⟩
    cases q with
    | nil =>
      cases heq
      exact Or.inl (by simpa using hj)
    | cons k q =>
      cases heq
      obtain ⟨hk, hq⟩ := throughout_cons.mp hq
      rw [List.append_cons] at hj
      exact Or.inr ⟨hk, q, j, r, rfl, hq, hj⟩
  · rintro (hi | ⟨hi, q, j, r, rfl, hq, hj⟩)
    · exact ⟨[], i, is, rfl, throughout_nil, by simpa using hi⟩
    · refine ⟨i :: q, j, r, rfl, throughout_cons.mpr ⟨hi, hq⟩, ?_⟩
      rw [List.append_cons]
      exact hj

theorem arises_mem (h : Arises P Q p is) : ∃ q i, i ∈ is ∧ Q q i := by
  obtain ⟨q, i, r, rfl, -, hi⟩ := h
  exact ⟨_, i, List.mem_append_right _ List.mem_cons_self, hi⟩

theorem arises_of_throughout (h : Throughout P p is) (hi : i ∈ is) (hq : ∀ q, Q q i) :
    Arises P Q p is := by
  obtain ⟨q, r, rfl⟩ := List.append_of_mem hi
  refine ⟨q, i, r, rfl, ?_, hq _⟩
  rintro q' j r' rfl
  exact h q' j (r' ++ i :: r) (by simp)

/-- Where an invariant tells which items have a step, a run takes them all exactly when each
fits what stands before it. -/
theorem exists_steps_iff (Ok : I → Prop) (Inv : List I → S → Prop)
    (hstep : ∀ p i s, Ok i → Inv p s → ((∃ t, R i s t) ↔ P p i))
    (hinv : ∀ p i s t, R i s t → Inv p s → Inv (p ++ [i]) t) (his : ∀ i ∈ is, Ok i)
    (hs : Inv p s) : (∃ t, Steps R is s t) ↔ Throughout P p is := by
  induction is generalizing p s with
  | nil => exact iff_of_true ⟨s, .nil s⟩ throughout_nil
  | cons i is ih =>
    rw [List.forall_mem_cons] at his
    rw [throughout_cons, ← hstep p i s his.1 hs]
    constructor
    · rintro ⟨t, h⟩
      obtain ⟨u, hi, h⟩ := steps_cons_iff.mp h
      exact ⟨⟨u, hi⟩, (ih his.2 (hinv p i s u hi hs)).mp ⟨t, h⟩⟩
    · rintro ⟨⟨u, hi⟩, h⟩
      obtain ⟨t, h⟩ := (ih his.2 (hinv p i s u hi hs)).mpr h
      exact ⟨t, .cons hi h⟩

section
variable {A B K : Type}

theorem foldlM_keeps {f : A → B → Option A} {k : A → K}
    (hf : ∀ a b a', f a b = some a' → k a' = k a) {bs : List B} {a a' : A}
    (h : bs.foldlM f a = some a') : k a' = k a := by
  induction bs generalizing a with
  | nil =>
    cases h
    rfl
  | cons b bs ih =>
    rw [List.foldlM_cons] at h
    obtain ⟨a₁, ha₁, hrest⟩ := Option.bind_eq_some_iff.mp h
    exact (ih hrest).trans (hf a b a₁ ha₁)

/-- Two loops whose rounds do the same, as long as what they keep holds, do the same. -/
theorem foldlM_congr {f g : A → B → Option A} {k : A → K} {v : K}
    (hg : ∀ a b a', g a b = some a' → k a' = k a) {bs : List B}
    (hfg : ∀ a, ∀ b ∈ bs, k a = v → f a b = g a b) {a : A} (ha : k a = v) :
    bs.foldlM f a = bs.foldlM g a := by
  induction bs generalizing a with
  | nil => rfl
  | cons b bs ih =>
    rw [List.foldlM_cons, List.foldlM_cons, hfg a b List.mem_cons_self ha]
    cases hgb : g a b with
    | none => rfl
    | some a' =>
      exact ih (fun a b hb => hfg a b (List.mem_cons_of_mem _ hb)) ((hg a b a' hgb).trans ha)

theorem mapM_eq_some_iff {f : A → Option B} {as : List A} {bs : List B} :
    as.mapM f = some bs ↔ List.Forall₂ (fun a b => f a = some b) as bs := by
  induction as generalizing bs with
  | nil =>
    rw [List.forall₂_nil_left_iff, List.mapM_nil]
    exact ⟨fun h => (Option.some.inj h).symm, fun h => congrArg some h.symm⟩
  | cons a as ih =>
    rw [List.forall₂_cons_left_iff, List.mapM_cons]
    constructor
    · intro h
      obtain ⟨b, hb, hrest⟩ := Option.bind_eq_some_iff.mp h
      obtain ⟨bs', hbs', heq⟩ := Option.bind_eq_some_iff.mp hrest
      cases heq
      exact ⟨b, bs', hb, ih.mp hbs', rfl⟩
    · rintro ⟨b, bs', hb, hbs', rfl⟩
      rw [hb, ih.mpr hbs']
      rfl

theorem mapM_range_iff {f : Nat → Option B} {n : Nat} {bs : List B} :
    (List.range n).mapM f = some bs ↔
      bs.length = n ∧ ∀ i, ∀ hi : i < bs.length, f i = some bs[i] := by
  rw [mapM_eq_some_iff, List.forall₂_iff_get]
  simp only [List.length_range, List.get_eq_getElem, List.getElem_range]
  constructor
  · rintro ⟨hlen, h⟩
    exact ⟨hlen.symm, fun i hi => h i (by omega) hi⟩
  · rintro ⟨hlen, h⟩
    exact ⟨hlen.symm, fun i _ hi => h i hi⟩

end

end LibSwitch.ListRuns

import Mathlib.Data.List.Basic
import Mathlib.Logic.Function.Basic

namespace LibSwitch.PointerTable

variable {α : Type}

/-- A C array of pointers together with the counter of the entries in use.
An entry that was never stored is the null pointer. -/
structure Table (α : Type) where
  slots : Nat → Option α
  cnt : Nat

def empty : Table α := ⟨fun _ => none, 0⟩

/-- `tab[cnt] = x`, undefined when the counter has left the array. -/
def store (cap : Nat) (t : Table α) (x : Option α) : Option (Table α) :=
  if t.cnt < cap then some ⟨Function.update t.slots t.cnt x, t.cnt⟩ else none

def advance (t : Table α) : Table α := ⟨t.slots, t.cnt + 1⟩

def push (cap : Nat) (t : Table α) (x : α) : Option (Table α) :=
  (store cap t (some x)).map advance

/-- `tab[i]` for a signed index: `none` outside the array, `some none` on a null entry. -/
def read (cap : Nat) (t : Table α) (i : Int) : Option (Option α) :=
  if 0 ≤ i ∧ i < cap then some (t.slots i.toNat) else none

/-- The entry a dereference of `tab[i]` reaches, absent for a null or an outside entry. -/
def deref (cap : Nat) (t : Table α) (i : Int) : Option α := (read cap t i).join

/-- The array stores exactly the list, in order and without gaps. -/
structure Holds (t : Table α) (xs : List α) : Prop where
  cnt_eq : t.cnt = xs.length
  slot_eq : ∀ i, t.slots i = xs[i]?

theorem holds_empty : Holds (empty : Table α) [] := ⟨rfl, fun _ => rfl⟩

theorem Holds.slots_congr {t u : Table α} {xs : List α} (ht : Holds t xs) (hu : Holds u xs) :
    t = u := by
  have hs : t.slots = u.slots := funext fun i => (ht.slot_eq i).trans (hu.slot_eq i).symm
  have hc : t.cnt = u.cnt := ht.cnt_eq.trans hu.cnt_eq.symm
  cases t
  cases u
  simp_all

theorem store_eq_none {cap : Nat} {t : Table α} {x : Option α} :
    store cap t x = none ↔ cap ≤ t.cnt := by
  simp [store]

/-- A failed load leaves a null pointer in the next slot, which was null before. -/
theorem Holds.store_none {cap : Nat} {t : Table α} {xs : List α} (h : Holds t xs)
    (hc : xs.length < cap) : store cap t none = some t := by
  have hu : Function.update t.slots t.cnt none = t.slots := by
    rw [Function.update_eq_self_iff, h.slot_eq, h.cnt_eq]
    simp
  rw [store, if_pos (by rw [h.cnt_eq]; exact hc), hu]

theorem Holds.push {cap : Nat} {t : Table α} {xs : List α} (h : Holds t xs)
    (hc : xs.length < cap) (x : α) :
    ∃ t', PointerTable.push cap t x = some t' ∧ Holds t' (xs ++ [x]) := by
  refine ⟨⟨Function.update t.slots t.cnt (some x), t.cnt + 1⟩, ?_, ?_, ?_⟩
  · rw [PointerTable.push, store, if_pos (by rw [h.cnt_eq]; exact hc)]
    rfl
  · simp [h.cnt_eq]
  · intro i
    dsimp only
    rw [Function.update_apply, h.cnt_eq, h.slot_eq]
    obtain hi | hi | hi := Nat.lt_trichotomy i xs.length
    · rw [if_neg (by omega), List.getElem?_append_left hi]
    · subst hi
      simp
    · rw [if_neg (by omega), List.getElem?_eq_none (by omega),
        List.getElem?_eq_none (by rw [List.length_append, List.length_singleton]; omega)]

theorem Holds.read {cap : Nat} {t : Table α} {xs : List α} (h : Holds t xs) {i : Int}
    (h0 : 0 ≤ i) (hc : i < cap) : PointerTable.read cap t i = some xs[i.toNat]? := by
  rw [PointerTable.read, if_pos ⟨h0, hc⟩, h.slot_eq]

theorem read_outside {cap : Nat} (t : Table α) {i : Int} (h : ¬ (0 ≤ i ∧ i < cap)) :
    PointerTable.read cap t i = none := if_neg h

/-- Within the capacity, the entries present are those below the counter. -/
theorem Holds.deref_isSome {cap : Nat} {t : Table α} {xs : List α} (h : Holds t xs)
    (hc : xs.length ≤ cap) {i : Int} :
    (deref cap t i).isSome ↔ 0 ≤ i ∧ i < xs.length := by
  by_cases hi : 0 ≤ i ∧ i < cap
  · rw [deref, h.read hi.1 hi.2, Option.join_some, Option.isSome_iff_ne_none, ne_eq,
      List.getElem?_eq_none_iff]
    omega
  · rw [deref, read_outside t hi]
    simp only [Option.join_none, Option.isSome_none, Bool.false_eq_true, false_iff]
    omega

theorem deref_slot {cap : Nat} (t : Table α) {i : Nat} (hi : i < cap) :
    deref cap t i = t.slots i := by
  have hin : (0 : Int) ≤ i ∧ (i : Int) < cap := ⟨Int.natCast_nonneg i, Int.ofNat_lt.mpr hi⟩
  rw [deref, read, if_pos hin, Option.join_some, Int.toNat_natCast]

theorem slot_of_deref {cap : Nat} {t : Table α} {i : Nat} {a : α}
    (h : deref cap t i = some a) : t.slots i = some a := by
  by_cases hi : i < cap
  · rwa [deref_slot t hi] at h
  · rw [deref, read_outside t (by omega)] at h
    cases h

def Filled (cap : Nat) (t : Table α) : Prop := ∃ xs, Holds t xs ∧ xs.length ≤ cap

def ofList (xs : List α) : Table α := ⟨fun i => xs[i]?, xs.length⟩

theorem filled_ofList {cap : Nat} {xs : List α} (h : xs.length ≤ cap) : Filled cap (ofList xs) :=
  ⟨xs, ⟨rfl, fun _ => rfl⟩, h⟩

theorem Filled.deref_isSome {cap : Nat} {t : Table α} (h : Filled cap t) (i : Int) :
    (deref cap t i).isSome ↔ 0 ≤ i ∧ i < t.cnt := by
  obtain ⟨xs, hx, hc⟩ := h
  rw [hx.deref_isSome hc, hx.cnt_eq]

theorem Filled.deref_eq_none {cap : Nat} {t : Table α} (h : Filled cap t) (i : Int) :
    deref cap t i = none ↔ ¬ (0 ≤ i ∧ i < t.cnt) := by
  rw [← h.deref_isSome, Option.not_isSome_iff_eq_none]

theorem Filled.cnt_le {cap : Nat} {t : Table α} (h : Filled cap t) : t.cnt ≤ cap := by
  obtain ⟨xs, hx, hc⟩ := h
  rw [hx.cnt_eq]
  exact hc

end LibSwitch.PointerTable

import Mathlib.Data.Multiset.AddSub
import Mathlib.Data.Multiset.MapFold

namespace LibSwitch.KeyedStore

variable {K L : Type} [DecidableEq K] [DecidableEq L]

/-- The operations of a store, which may hold a key more than once. -/
inductive Op (K : Type)
  | insert (k : K)
  | erase (k : K)
  | find (k : K)
  deriving DecidableEq

def Op.key : Op K → K
  | .insert k => k
  | .erase k => k
  | .find k => k

def Op.map (f : K → L) : Op K → Op L
  | .insert k => .insert (f k)
  | .erase k => .erase (f k)
  | .find k => .find (f k)

def apply (s : Multiset K) : Op K → Multiset K
  | .insert k => k ::ₘ s
  | .erase k => s.erase k
  | .find _ => s

def run (s : Multiset K) : List (Op K) → Multiset K
  | [] => s
  | o :: ops => run (apply s o) ops

/-- Every key that is erased stands in the store at that time. -/
def Finds : Multiset K → List (Op K) → Prop
  | _, [] => True
  | s, o :: ops => (∀ k, o = .erase k → k ∈ s) ∧ Finds (apply s o) ops

variable {s t : Multiset K} {o : Op K} {ops ops' : List (Op K)} {ks ks' : List K}

theorem run_append (s : Multiset K) (ops ops' : List (Op K)) :
    run s (ops ++ ops') = run (run s ops) ops' := by
  induction ops generalizing s with
  | nil => rfl
  | cons o ops ih => exact ih (apply s o)

theorem finds_append (h : Finds s ops) (h' : Finds (run s ops) ops') : Finds s (ops ++ ops') := by
  induction ops generalizing s with
  | nil => exact h'
  | cons o ops ih => exact ⟨h.1, ih h.2 h'⟩

theorem apply_add (h : ∀ k, o = .erase k → k ∈ s) (t : Multiset K) :
    apply (s + t) o = apply s o + t := by
  cases o with
  | insert k => exact (Multiset.cons_add k s t).symm
  | erase k => exact Multiset.erase_add_left_pos t (h k rfl)
  | find k => rfl

theorem run_add (h : Finds s ops) (t : Multiset K) : run (s + t) ops = run s ops + t := by
  induction ops generalizing s with
  | nil => rfl
  | cons o ops ih => rw [run, run, apply_add h.1, ih h.2]

theorem run_start (h : Finds 0 ops) (t : Multiset K) : run t ops = t + run 0 ops := by
  have hadd := run_add h t
  rwa [Multiset.zero_add, Multiset.add_comm] at hadd

theorem apply_map (f : K → L) (h : ∀ k, o = .erase k → k ∈ s) :
    apply (s.map f) (o.map f) = (apply s o).map f := by
  cases o with
  | insert k => exact (Multiset.map_cons f k s).symm
  | erase k => exact (Multiset.map_erase_of_mem f s (h k rfl)).symm
  | find k => rfl

/-- A script that finds what it erases finds it under other names too, even where one name stands
for several keys. -/
theorem finds_map (f : K → L) (h : Finds s ops) : Finds (s.map f) (ops.map (Op.map f)) := by
  induction ops generalizing s with
  | nil => trivial
  | cons o ops ih =>
    refine ⟨?_, ?_⟩
    · intro l hl
      cases o with
      | insert k => cases hl
      | erase k =>
        cases hl
        exact Multiset.mem_map_of_mem f (h.1 k rfl)
      | find k => cases hl
    · rw [apply_map f h.1]
      exact ih h.2

theorem run_map (f : K → L) (h : Finds s ops) :
    run (s.map f) (ops.map (Op.map f)) = (run s ops).map f := by
  induction ops generalizing s with
  | nil => rfl
  | cons o ops ih => rw [List.map_cons, run, apply_map f h.1, ih h.2, run]

theorem run_inserts (s : Multiset K) (ks : List K) : run s (ks.map Op.insert) = s + ks := by
  induction ks generalizing s with
  | nil => exact (Multiset.add_zero s).symm
  | cons k ks ih =>
    rw [List.map_cons, run, ih, apply, Multiset.cons_add, ← Multiset.add_cons]
    rfl

theorem finds_inserts (s : Multiset K) (ks : List K) : Finds s (ks.map Op.insert) := by
  induction ks generalizing s with
  | nil => trivial
  | cons k ks ih => exact ⟨fun _ h => (by cases h), ih _⟩

theorem run_erases (ks : List K) : run (ks : Multiset K) (ks.map Op.erase) = 0 := by
  induction ks with
  | nil => rfl
  | cons k ks ih =>
    rw [List.map_cons, run, apply, ← Multiset.cons_coe, Multiset.erase_cons_head]
    exact ih

theorem finds_erases (ks : List K) : Finds (ks : Multiset K) (ks.map Op.erase) := by
  induction ks with
  | nil => trivial
  | cons k ks ih =>
    refine ⟨?_, ?_⟩
    · intro l hl
      cases hl
      exact Multiset.mem_cons_self k ks
    · rw [apply, ← Multiset.cons_coe, Multiset.erase_cons_head]
      exact ih

/-- What is inserted can be erased again in any order. -/
theorem run_undo (h : ks'.Perm ks) :
    Finds 0 (ks.map Op.insert ++ ks'.map Op.erase) ∧
      run 0 (ks.map Op.insert ++ ks'.map Op.erase) = 0 := by
  have hins : run 0 (ks.map Op.insert) = (ks' : Multiset K) := by
    rw [run_inserts, Multiset.zero_add]
    exact (Multiset.coe_eq_coe.mpr h).symm
  refine ⟨finds_append (finds_inserts 0 ks) ?_, ?_⟩
  · rw [hins]
    exact finds_erases ks'
  · rw [run_append, hins, run_erases]

end LibSwitch.KeyedStore

import Mathlib.Data.Set.Finite.Basic
import Mathlib.Logic.Relation

namespace LibSwitch.FiniteGraph

open Relation

variable {A : Type} {r : A → A → Prop} {a b : A}

/-- No way from the node comes back to a node on it. -/
def AcyclicFrom (r : A → A → Prop) (a : A) : Prop :=
  ∀ b, ReflTransGen r a b → ¬ TransGen r b b

theorem acc_of_reach (h : Acc (flip r) a) (hab : ReflTransGen r a b) : Acc (flip r) b := by
  induction hab with
  | refl => exact h
  | tail _ hbc ih => exact ih.inv hbc

theorem not_cycle_of_acc (h : Acc (flip r) a) : ¬ TransGen r a a := by
  have hplus : Acc (TransGen (flip r)) a := h.transGen
  clear h
  induction hplus with
  | intro a _ ih =>
    intro hcycle
    exact ih a (transGen_swap.mpr hcycle) hcycle

theorem wf_of_no_cycle [Finite A] (h : ∀ a, ¬ TransGen r a a) : WellFounded (flip r) := by
  have htrans : IsTrans A (TransGen (flip r)) := ⟨fun _ _ _ => TransGen.trans⟩
  have hirrefl : Std.Irrefl (TransGen (flip r)) := ⟨fun a ha => h a (transGen_swap.mp ha)⟩
  exact Subrelation.wf TransGen.single (Finite.wellFounded_of_trans_of_irrefl _)

theorem finite_reach (hfin : {b | ∃ a, r a b}.Finite) (a : A) :
    {b | ReflTransGen r a b}.Finite := by
  refine (hfin.insert a).subset fun b hb => ?_
  obtain rfl | ⟨c, -, hcb⟩ := hb.cases_tail
  · exact Set.mem_insert _ _
  · exact Set.mem_insert_of_mem a ⟨c, hcb⟩

/-- With finitely many targets, a node without a cycle behind it has only finite ways. -/
theorem acc_of_acyclic (hfin : {b | ∃ a, r a b}.Finite) (h : AcyclicFrom r a) :
    Acc (flip r) a := by
  have hfinite : Finite {b // ReflTransGen r a b} := (finite_reach hfin a).to_subtype
  have hwf := wf_of_no_cycle (r := fun x y : {b // ReflTransGen r a b} => r x.1 y.1)
    fun x hx => h x.1 x.2 (hx.lift Subtype.val fun _ _ hxy => hxy)
  have hacc (x : {b // ReflTransGen r a b}) : Acc (flip r) x.1 := by
    induction x using hwf.induction with
    | h x ih => exact Acc.intro x.1 fun y hy => ih ⟨y, x.2.tail hy⟩ hy
  exact hacc ⟨a, .refl⟩

theorem acc_iff_acyclic (hfin : {b | ∃ a, r a b}.Finite) : Acc (flip r) a ↔ AcyclicFrom r a :=
  ⟨fun h _ hab => not_cycle_of_acc (acc_of_reach h hab), acc_of_acyclic hfin⟩

def Bounded (r : A → A → Prop) : Nat → A → Prop
  | 0, a => ∀ b, ¬ r a b
  | k + 1, a => ∀ b, r a b → Bounded r k b

/-- Without a cycle behind it, a node has no way longer than the list of the nodes it reaches. -/
theorem bounded_of_acyclic [DecidableEq A] {k : Nat} {nodes : List A} (hlen : nodes.length = k)
    (hmem : ∀ b, TransGen r a b → b ∈ nodes) (h : ∀ b, TransGen r a b → ¬ TransGen r b b) :
    Bounded r k a := by
  induction k generalizing a nodes with
  | zero =>
    rw [List.length_eq_zero_iff] at hlen
    subst hlen
    exact fun b hab => List.not_mem_nil (hmem b (.single hab))
  | succ k ih =>
    intro b hab
    have hb : b ∈ nodes := hmem b (.single hab)
    have herase : (nodes.erase b).length = k := by rw [List.length_erase_of_mem hb, hlen]; rfl
    refine ih herase (fun c hbc => ?_) fun c hbc => h c (.head hab hbc)
    have hne : c ≠ b := by
      rintro rfl
      exact h c (.single hab) hbc
    exact (List.mem_erase_of_ne hne).mpr (hmem c (.head hab hbc))

end LibSwitch.FiniteGraph

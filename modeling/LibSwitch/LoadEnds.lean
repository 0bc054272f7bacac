import LibSwitch.BridgeLoad
import LibSwitch.FiniteGraph

namespace LibSwitch.LoadEnds

open Relation
open LibSwitch.PointerTable LibSwitch.CText LibSwitch.LineInput LibSwitch.FileLines
open LibSwitch.TrailingNewline LibSwitch.Common LibSwitch.BridgeCommands LibSwitch.BridgeGrammar
open LibSwitch.BridgeLoad LibSwitch.FiniteGraph

variable {D : Type} {files : Files} {devs : Table D} {cmd name s a b : CString}
variable {ls : List CString} {k : Nat}

structure LoadsFile (files : Files) (cmd name : CString) : Prop where
  load : "load".toList <+: cmd
  long : 4 < (cmd.drop 4).length
  named : name = cmd.drop 5
  opens : (fopen files name).isSome

def Loads (files : Files) (a b : CString) : Prop :=
  ∃ s, fopen files a = some s ∧ ∃ l ∈ readLines s, LoadsFile files l b

/-- The calls for a command line end within the given depth. -/
def EndsWithin (files : Files) : Nat → CString → Prop
  | 0, _ => False
  | k + 1, cmd => "load".toList <+: cmd → ∀ l ∈ cmdLoad files (cmd.drop 4), EndsWithin files k l

theorem eachLine_isSome {M O : Type} {run : M → CString → Option (List O)}
    {P : CString → Prop} (h : ∀ m l, (run m l).isSome ↔ P l) (mem : Nat → M) :
    (eachLine run mem ls).isSome ↔ ∀ l ∈ ls, P l := by
  induction ls generalizing mem with
  | nil => exact iff_of_true rfl (List.forall_mem_nil _)
  | cons l ls ih =>
    rw [List.forall_mem_cons, ← h (mem 0) l, ← ih fun i => mem (i + 1), eachLine]
    cases run (mem 0) l with
    | none => simp
    | some os => simp

theorem cliRun_isSome (mem : List Nat → Locals) :
    (cliRun files devs k mem cmd).isSome ↔ EndsWithin files k cmd := by
  induction k generalizing cmd mem with
  | zero => exact iff_of_false Bool.false_ne_true id
  | succ k ih =>
    by_cases hload : "load".toList <+: cmd
    · have hrun (m : List Nat → Locals) (l : CString) :
          (cliRun files devs k m l).isSome ↔ EndsWithin files k l := ih m
      rw [cliRun_load hload, eachLine_isSome hrun]
      exact ⟨fun h _ => h, fun h => h hload⟩
    · rw [cliRun_plain hload]
      exact iff_of_true rfl fun h => absurd h hload

theorem endsWithin_succ (h : EndsWithin files k cmd) : EndsWithin files (k + 1) cmd := by
  induction k generalizing cmd with
  | zero => exact h.elim
  | succ k ih => exact fun hload l hl => ih (h hload l hl)

theorem endsWithin_mono {k' : Nat} (hk : k ≤ k') (h : EndsWithin files k cmd) :
    EndsWithin files k' cmd := by
  induction hk with
  | refl => exact h
  | step _ ih => exact endsWithin_succ ih

/-- One depth is enough for all lines. -/
theorem exists_depth (h : ∀ l ∈ ls, ∃ k, EndsWithin files k l) :
    ∃ k, ∀ l ∈ ls, EndsWithin files k l := by
  induction ls with
  | nil => exact ⟨0, List.forall_mem_nil _⟩
  | cons l ls ih =>
    obtain ⟨⟨k, hk⟩, h⟩ := List.forall_mem_cons.mp h
    obtain ⟨k', hk'⟩ := ih h
    refine ⟨max k k', List.forall_mem_cons.mpr ⟨endsWithin_mono (Nat.le_max_left k k') hk, ?_⟩⟩
    exact fun u hu => endsWithin_mono (Nat.le_max_right k k') (hk' u hu)

theorem cmdLoad_loads (h : LoadsFile files cmd name) (hs : fopen files name = some s) :
    cmdLoad files (cmd.drop 4) = readLines s := by
  obtain ⟨-, hlong, rfl, -⟩ := h
  rw [cmdLoad, if_pos hlong, List.drop_drop, hs]

theorem cmdLoad_absent (hload : "load".toList <+: cmd) (h : ∀ name, ¬ LoadsFile files cmd name) :
    cmdLoad files (cmd.drop 4) = [] := by
  rw [cmdLoad]
  split
  · next hlong =>
    rw [List.drop_drop]
    cases hopen : fopen files (cmd.drop 5) with
    | none => rfl
    | some s => exact absurd ⟨hload, hlong, rfl, by rw [hopen]; rfl⟩ (h (cmd.drop 5))
  · rfl

theorem acc_of_endsWithin (h : EndsWithin files k cmd) (hl : LoadsFile files cmd a) :
    Acc (flip (Loads files)) a := by
  induction k generalizing cmd a with
  | zero => exact h.elim
  | succ k ih =>
    refine Acc.intro a fun b hab => ?_
    obtain ⟨s, hs, l, hmem, hb⟩ := hab
    rw [← cmdLoad_loads hl hs] at hmem
    exact ih (h hl.load l hmem) hb

/-- The files behind a file from which there are only finite ways are loaded in finite depth. -/
theorem lines_end (h : Acc (flip (Loads files)) a) (hs : fopen files a = some s) :
    ∀ l ∈ readLines s, ∃ k, EndsWithin files k l := by
  induction h generalizing s with
  | intro a _ ih =>
    intro l hl
    by_cases hb : ∃ b, LoadsFile files l b
    · obtain ⟨b, hb⟩ := hb
      obtain ⟨s', hs'⟩ := Option.isSome_iff_exists.mp hb.opens
      obtain ⟨k, hk⟩ := exists_depth (ih b ⟨s, hs, l, hl, hb⟩ hs')
      refine ⟨k + 1, fun _ u hu => hk u ?_⟩
      rwa [← cmdLoad_loads hb hs']
    · refine ⟨1, fun hload u hu => ?_⟩
      rw [cmdLoad_absent hload fun b h => hb ⟨b, h⟩] at hu
      cases hu

theorem endsWithin_iff :
    (∃ k, EndsWithin files k cmd) ↔ ∀ a, LoadsFile files cmd a → Acc (flip (Loads files)) a := by
  constructor
  · rintro ⟨k, hk⟩ a ha
    exact acc_of_endsWithin hk ha
  · intro h
    by_cases ha : ∃ a, LoadsFile files cmd a
    · obtain ⟨a, ha⟩ := ha
      obtain ⟨s, hs⟩ := Option.isSome_iff_exists.mp ha.opens
      obtain ⟨k, hk⟩ := exists_depth (lines_end (h a ha) hs)
      refine ⟨k + 1, fun _ u hu => hk u ?_⟩
      rwa [← cmdLoad_loads ha hs]
    · refine ⟨1, fun hload u hu => ?_⟩
      rw [cmdLoad_absent hload fun a h => ha ⟨a, h⟩] at hu
      cases hu

theorem mem_of_fopen (h : fopen files name = some s) : (name, s) ∈ files := by
  obtain ⟨_, _, rfl, -⟩ := List.lookup_eq_some_iff.mp h
  exact List.mem_append_right _ List.mem_cons_self

theorem mem_of_opens (h : (fopen files name).isSome) : name ∈ files.map Prod.fst := by
  obtain ⟨s, hs⟩ := Option.isSome_iff_exists.mp h
  exact List.mem_map.mpr ⟨(name, s), mem_of_fopen hs, rfl⟩

theorem finite_loads (files : Files) : {b | ∃ a, Loads files a b}.Finite := by
  refine (List.finite_toSet (files.map Prod.fst)).subset ?_
  rintro b ⟨a, s, -, l, -, hb⟩
  exact mem_of_opens hb.opens

/-- Loading ends exactly when no file that is reached loads itself, directly or through others. -/
theorem cliRun_ends_iff (files : Files) (devs : Table D) (mem : List Nat → Locals)
    (cmd : CString) :
    (∃ k, (cliRun files devs k mem cmd).isSome) ↔
      ∀ a, LoadsFile files cmd a → ∀ b, ReflTransGen (Loads files) a b →
        ¬ TransGen (Loads files) b b := by
  simp only [cliRun_isSome]
  rw [endsWithin_iff]
  exact forall_congr' fun a => imp_congr_right fun _ => acc_iff_acyclic (finite_loads files)

def loopLine : CString := "load loop".toList

def loopFiles : Files := [("loop".toList, loopLine)]

/-- A file whose only line, without a newline, loads the file again. -/
theorem loopFiles_not_ends :
    ¬ ∃ k, (cliRun loopFiles (ofList [()]) k (fun _ => zeroLocals) loopLine).isSome := by
  rintro ⟨k, hk⟩
  rw [cliRun_isSome] at hk
  induction k with
  | zero => exact hk
  | succ k ih => exact ih (hk (by decide) loopLine (by decide))

end LibSwitch.LoadEnds

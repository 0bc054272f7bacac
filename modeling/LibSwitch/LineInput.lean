import LibSwitch.CText

namespace LibSwitch.LineInput

open LibSwitch.CText

/-- The next characters of a stream up to a newline, at most the given number of them, and
what they leave of it. -/
def takeLine : Nat → CString → CString × CString
  | 0, s => ([], s)
  | _ + 1, [] => ([], [])
  | k + 1, c :: s => if c = '\n' then ([c], s) else (c :: (takeLine k s).1, (takeLine k s).2)

/-- `fgets(buf, size, stream)`: what it stores, nothing at the end of the stream. -/
def fgets (size : Nat) : CString → Option (CString × CString)
  | [] => none
  | c :: s => some (takeLine (size - 1) (c :: s))

/-- The results of successive reads. Those behind the end of the stream fail. -/
def reads (size : Nat) : Nat → CString → List (Option CString)
  | 0, _ => []
  | k + 1, s =>
    match fgets size s with
    | none => none :: reads size k s
    | some (line, s') => some line :: reads size k s'

def typed : List CString → CString
  | [] => []
  | l :: ls => l ++ '\n' :: typed ls

def Fits (size : Nat) (l : CString) : Prop := '\n' ∉ l ∧ l.length + 2 ≤ size

instance (size : Nat) (l : CString) : Decidable (Fits size l) :=
  inferInstanceAs (Decidable ('\n' ∉ l ∧ l.length + 2 ≤ size))

theorem takeLine_line {k : Nat} {l : CString} (h : '\n' ∉ l) (hl : l.length + 1 ≤ k)
    (s : CString) : takeLine k (l ++ '\n' :: s) = (l ++ ['\n'], s) := by
  induction l generalizing k with
  | nil =>
    cases k with
    | zero => cases hl
    | succ k => rw [List.nil_append, List.nil_append, takeLine, if_pos rfl]
  | cons c l ih =>
    rw [List.mem_cons, not_or] at h
    cases k with
    | zero => cases hl
    | succ k =>
      rw [List.length_cons] at hl
      rw [List.cons_append, takeLine, if_neg (Ne.symm h.1), ih h.2 (by omega), List.cons_append]

theorem fgets_line {size : Nat} {l : CString} (h : Fits size l) (s : CString) :
    fgets size (l ++ '\n' :: s) = some (l ++ ['\n'], s) := by
  have hline := takeLine_line (k := size - 1) h.1 (by have := h.2; omega) s
  cases l with
  | nil => rw [List.nil_append, fgets, ← hline, List.nil_append]
  | cons c l => rw [List.cons_append, fgets, ← hline, List.cons_append]

theorem reads_cons {size : Nat} {l : CString} (h : Fits size l) (k : Nat) (s : CString) :
    reads size (k + 1) (l ++ '\n' :: s) = some (l ++ ['\n']) :: reads size k s := by
  rw [reads, fgets_line h]

theorem reads_nil (size k : Nat) : reads size k [] = List.replicate k none := by
  induction k with
  | zero => rfl
  | succ k ih => rw [reads, fgets, ih, List.replicate_succ]

theorem reads_typed {size : Nat} {ls : List CString} (h : ∀ l ∈ ls, Fits size l) (s : CString) :
    reads size ls.length (typed ls ++ s) = ls.map fun l => some (l ++ ['\n']) := by
  induction ls with
  | nil => rfl
  | cons l ls ih =>
    rw [List.forall_mem_cons] at h
    rw [List.length_cons, typed, List.append_assoc, List.cons_append, reads_cons h.1, ih h.2,
      List.map_cons]

end LibSwitch.LineInput

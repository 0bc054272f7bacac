import Mathlib.Data.List.TakeWhile
import LibSwitch.LineInput
import LibSwitch.TrailingNewline

namespace LibSwitch.FileLines

open LibSwitch.CText LibSwitch.LineInput LibSwitch.TrailingNewline

/-- The files that can be opened for reading, each with its name and contents. -/
abbrev Files := List (CString × CString)

def fopen (files : Files) (name : CString) : Option CString := files.lookup name

def cstr (buf : CString) : CString := buf.takeWhile fun c => c != '\x00'

def bufSize : Nat := 4096

/-- The buffers of the loop over `fgets`. Every read takes a character of the stream. -/
def linesFrom : Nat → CString → List CString
  | 0, _ => []
  | k + 1, s =>
    match fgets bufSize s with
    | none => []
    | some (buf, s') => cstr buf :: linesFrom k s'

def readLines (s : CString) : List CString := linesFrom s.length s

/-- The lines that a `cmd_load` hands on, one by one: `cmd` is what follows the word `load`. -/
def cmdLoad (files : Files) (cmd : CString) : List CString :=
  if 4 < cmd.length then
    match fopen files (cmd.drop 1) with
    | none => []
    | some s => readLines s
  else []

/-- A line of a text, without its newline, that fits the buffer. -/
structure TextLine (l : CString) : Prop where
  fits : Fits bufSize l
  noNull : '\x00' ∉ l

/-- What stands behind the last newline of a text, as a line if there is anything. -/
def unended (last : CString) : List CString := if last = [] then [] else [last]

theorem takeLine_append (k : Nat) (s : CString) : (takeLine k s).1 ++ (takeLine k s).2 = s := by
  induction k generalizing s with
  | zero => rfl
  | succ k ih =>
    cases s with
    | nil => rfl
    | cons c s =>
      rw [takeLine]
      split
      · rfl
      · rw [List.cons_append, ih]

theorem takeLine_cons_ne_nil (k : Nat) (c : Char) (s : CString) :
    (takeLine (k + 1) (c :: s)).1 ≠ [] := by
  rw [takeLine]
  split
  · exact List.cons_ne_nil _ _
  · exact List.cons_ne_nil _ _

theorem takeLine_all {k : Nat} {l : CString} (h : '\n' ∉ l) (hl : l.length ≤ k) :
    takeLine k l = (l, []) := by
  induction l generalizing k with
  | nil => cases k <;> rfl
  | cons c l ih =>
    rw [List.mem_cons, not_or] at h
    cases k with
    | zero => cases hl
    | succ k =>
      rw [List.length_cons] at hl
      rw [takeLine, if_neg (Ne.symm h.1), ih h.2 (by omega)]

theorem fgets_length {s buf s' : CString} (h : fgets bufSize s = some (buf, s')) :
    s'.length < s.length := by
  cases s with
  | nil => cases h
  | cons c s =>
    have hsplit := takeLine_append 4095 (c :: s)
    have hne := takeLine_cons_ne_nil 4094 c s
    rw [fgets, Option.some.injEq] at h
    have h₁ : (takeLine 4095 (c :: s)).1 = buf := congrArg Prod.fst h
    have h₂ : (takeLine 4095 (c :: s)).2 = s' := congrArg Prod.snd h
    rw [h₁, h₂] at hsplit
    rw [h₁] at hne
    have hpos := List.length_pos_iff.mpr hne
    rw [← hsplit, List.length_append]
    omega

/-- The length of the stream is fuel enough. -/
theorem linesFrom_eq {k k' : Nat} {s : CString} (hk : s.length ≤ k) (hk' : s.length ≤ k') :
    linesFrom k s = linesFrom k' s := by
  have hnil (n : Nat) {s : CString} (hs : s.length ≤ 0) : linesFrom n s = [] := by
    rw [List.length_eq_zero_iff.mp (Nat.le_zero.mp hs)]
    cases n <;> rfl
  induction k generalizing k' s with
  | zero => rw [hnil 0 hk, hnil k' hk]
  | succ k ih =>
    cases k' with
    | zero => rw [hnil 0 hk', hnil (k + 1) hk']
    | succ k' =>
      rw [linesFrom, linesFrom]
      cases hget : fgets bufSize s with
      | none => rfl
      | some r =>
        obtain ⟨buf, s'⟩ := r
        have hlt := fgets_length hget
        exact congrArg (cstr buf :: ·) (ih (by omega) (by omega))

theorem readLines_nil : readLines [] = [] := rfl

theorem readLines_cons {s buf s' : CString} (h : fgets bufSize s = some (buf, s')) :
    readLines s = cstr buf :: readLines s' := by
  have hlt := fgets_length h
  obtain ⟨k, hk⟩ := Nat.exists_eq_succ_of_ne_zero (Nat.ne_zero_of_lt hlt)
  rw [readLines, hk, linesFrom, h]
  exact congrArg (cstr buf :: ·) (linesFrom_eq (by omega) (Nat.le_refl _))

theorem cstr_eq {buf : CString} (h : '\x00' ∉ buf) : cstr buf = buf := by
  refine List.takeWhile_eq_self_iff.mpr ?_
  intro c hc
  rw [bne_iff_ne]
  rintro rfl
  exact h hc

theorem TextLine.cstr_ended {l : CString} (h : TextLine l) : cstr (ended l) = ended l := by
  apply cstr_eq
  rw [ended, List.mem_append, not_or]
  exact ⟨h.noNull, by decide⟩

theorem readLines_last {last : CString} (h : ∀ l ∈ unended last, TextLine l) :
    readLines last = unended last := by
  cases last with
  | nil => rfl
  | cons c s =>
    have hl := h (c :: s) (List.mem_singleton_self _)
    have hlen : (c :: s).length + 2 ≤ 4096 := hl.fits.2
    have hget : fgets bufSize (c :: s) = some (c :: s, []) :=
      congrArg some (takeLine_all (k := 4095) hl.fits.1 (by omega))
    rw [readLines_cons hget, readLines_nil, cstr_eq hl.noNull]
    rfl

theorem readLines_text {ls : List CString} {last : CString}
    (h : ∀ l ∈ ls ++ unended last, TextLine l) :
    readLines (typed ls ++ last) = ls.map ended ++ unended last := by
  induction ls with
  | nil => exact readLines_last h
  | cons l ls ih =>
    rw [List.cons_append, List.forall_mem_cons] at h
    have hline : fgets bufSize (l ++ '\n' :: (typed ls ++ last)) =
        some (ended l, typed ls ++ last) := fgets_line h.1.fits _
    rw [typed, List.append_assoc, List.cons_append, readLines_cons hline, h.1.cstr_ended, ih h.2,
      List.map_cons, List.cons_append]

theorem cmdLoad_open {files : Files} {name s : CString} (h : fopen files name = some s)
    (hname : 4 ≤ name.length) (c : Char) : cmdLoad files (c :: name) = readLines s := by
  have hlen : 4 < (c :: name).length := by
    rw [List.length_cons]
    omega
  rw [cmdLoad, if_pos hlen, List.drop_succ_cons, List.drop_zero, h]

end LibSwitch.FileLines

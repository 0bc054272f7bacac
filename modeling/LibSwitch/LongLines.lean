import Mathlib.Data.List.Infix
import LibSwitch.FileLines
import LibSwitch.InputEnd

namespace LibSwitch.LongLines

open LibSwitch.PointerTable LibSwitch.CText LibSwitch.LineInput LibSwitch.FileLines
open LibSwitch.Common LibSwitch.CliShell LibSwitch.InputEnd

variable {H : Type}

def szPiece : Nat := szLine - 1

/-- A read takes the first text of the two: it goes up to a newline, or is as long as the buffer
can hold, or is all there is. -/
structure Cut (p s : CString) : Prop where
  nonempty : p ≠ []
  fits : p.length ≤ szPiece
  inner : '\n' ∉ p.dropLast
  ends : s = [] ∨ p.getLast? = some '\n' ∨ p.length = szPiece

/-- A text and what successive reads take of it. -/
inductive Pieces : CString → List CString → Prop
  | nil : Pieces [] []
  | cons {p s : CString} {ps : List CString} : Cut p s → Pieces s ps → Pieces (p ++ s) (p :: ps)

/-- What the rounds behind the end of the input interpret: the line that was left in the buffer,
one character shorter each time. -/
def stale (buf : CString) : List CString := buf.inits.dropLast.reverse

def leftover (buf : CString) (ps : List CString) : CString :=
  ((ps.map List.dropLast).getLast?).getD buf

variable {cliProtos : Table (Protocol H)} {buf p s : CString} {ps : List CString} {k : Nat}
variable {turns : List (List Event)} {t : Shell}

theorem takeLine_cut {k : Nat} (hlen : p.length ≤ k) (hin : '\n' ∉ p.dropLast)
    (hends : s = [] ∨ p.getLast? = some '\n' ∨ p.length = k) : takeLine k (p ++ s) = (p, s) := by
  induction p generalizing k with
  | nil =>
    cases k with
    | zero => rfl
    | succ k =>
      obtain rfl | hlast | hk := hends
      · rfl
      · cases hlast
      · cases hk
  | cons c p ih =>
    cases k with
    | zero => cases hlen
    | succ k =>
      rw [List.length_cons] at hlen hends
      rw [List.cons_append, takeLine]
      by_cases hc : c = '\n'
      · have hp : p = [] := by
          by_contra hne
          rw [List.dropLast_cons_of_ne_nil hne] at hin
          exact hin (hc ▸ List.mem_cons_self)
        rw [if_pos hc, hp, List.nil_append]
      · have hin' : '\n' ∉ p.dropLast := by
          cases p with
          | nil => exact List.not_mem_nil
          | cons d p => exact fun h => hin (List.mem_cons_of_mem c h)
        have hends' : s = [] ∨ p.getLast? = some '\n' ∨ p.length = k := by
          obtain h | h | h := hends
          · exact Or.inl h
          · cases p with
            | nil => exact absurd (Option.some.inj h) hc
            | cons d p => exact Or.inr (Or.inl (by rwa [List.getLast?_cons_cons] at h))
          · exact Or.inr (Or.inr (by omega))
        rw [if_neg hc, ih (by omega) hin' hends']

theorem takeLine_spec (k : Nat) (s : CString) :
    (takeLine k s).1.length ≤ k ∧ '\n' ∉ (takeLine k s).1.dropLast ∧
      ((takeLine k s).2 = [] ∨ (takeLine k s).1.getLast? = some '\n' ∨
        (takeLine k s).1.length = k) := by
  induction k generalizing s with
  | zero => exact ⟨Nat.le_refl 0, List.not_mem_nil, Or.inr (Or.inr rfl)⟩
  | succ k ih =>
    cases s with
    | nil => exact ⟨Nat.zero_le _, List.not_mem_nil, Or.inl rfl⟩
    | cons c s =>
      obtain ⟨hlen, hin, hends⟩ := ih s
      rw [takeLine]
      by_cases hc : c = '\n'
      · rw [if_pos hc, hc]
        exact ⟨Nat.succ_le_succ (Nat.zero_le k), List.not_mem_nil, Or.inr (Or.inl rfl)⟩
      · rw [if_neg hc]
        generalize takeLine k s = r at hlen hin hends
        obtain ⟨p, s'⟩ := r
        refine ⟨Nat.succ_le_succ hlen, ?_, ?_⟩
        · cases p with
          | nil => exact List.not_mem_nil
          | cons d p =>
            rw [List.dropLast_cons_of_ne_nil (List.cons_ne_nil d p), List.mem_cons, not_or]
            exact ⟨Ne.symm hc, hin⟩
        · obtain h | h | h := hends
          · exact Or.inl h
          · refine Or.inr (Or.inl ?_)
            cases p with
            | nil => cases h
            | cons d p => rwa [List.getLast?_cons_cons]
          · exact Or.inr (Or.inr (congrArg Nat.succ h))

/-- Every text is read in pieces. -/
theorem exists_pieces (s : CString) : ∃ ps, Pieces s ps := by
  induction hn : s.length using Nat.strong_induction_on generalizing s with
  | _ n ih =>
    cases s with
    | nil => exact ⟨[], .nil⟩
    | cons c s =>
      have hsplit := takeLine_append szPiece (c :: s)
      have hne : (takeLine szPiece (c :: s)).1 ≠ [] := takeLine_cons_ne_nil 4094 c s
      obtain ⟨hlen, hin, hends⟩ := takeLine_spec szPiece (c :: s)
      generalize takeLine szPiece (c :: s) = r at hsplit hne hlen hin hends
      obtain ⟨p, s'⟩ := r
      dsimp only at hsplit hne hlen hin hends
      have hpos := List.length_pos_iff.mpr hne
      have hsum := congrArg List.length hsplit
      rw [List.length_append] at hsum
      obtain ⟨ps, hps⟩ := ih s'.length (by omega) s' rfl
      rw [← hsplit]
      exact ⟨p :: ps, .cons ⟨hne, hlen, hin, hends⟩ hps⟩

theorem reads_cut (h : Cut p s) (k : Nat) :
    reads szLine (k + 1) (p ++ s) = some p :: reads szLine k s := by
  obtain ⟨c, q, rfl⟩ := List.exists_cons_of_ne_nil h.nonempty
  have hget : fgets szLine (c :: q ++ s) = some (c :: q, s) :=
    congrArg some (takeLine_cut h.fits h.inner h.ends)
  rw [reads, hget]

theorem inits_concat (s : CString) (c : Char) : (s ++ [c]).inits = s.inits ++ [s ++ [c]] := by
  rw [List.inits_append]
  rfl

theorem inits_eq_concat (s : CString) : s.inits = s.inits.dropLast ++ [s] := by
  obtain rfl | ⟨u, c, rfl⟩ := List.eq_nil_or_concat' s
  · rfl
  · rw [inits_concat, List.dropLast_concat]

theorem stale_cons (h : buf ≠ []) : stale buf = buf.dropLast :: stale buf.dropLast := by
  obtain ⟨s, c, rfl⟩ := (List.eq_nil_or_concat' buf).resolve_left h
  rw [List.dropLast_concat, stale, inits_concat, List.dropLast_concat, inits_eq_concat s,
    List.reverse_concat, stale]

/-- Behind the end of the input the shell interprets what was left in its buffer. -/
theorem commands_stale (h : Run cliProtos (.loop buf) (reads szLine k []) turns t) :
    commands turns.flatten = (stale buf).take k := by
  rw [reads_nil] at h
  induction k generalizing buf turns with
  | zero =>
    cases h
    rfl
  | succ k ih =>
    rw [List.replicate_succ] at h
    by_cases hbuf : buf = []
    · subst hbuf
      have hstep : step cliProtos (.loop []) none = some ([.fault .beforeBuf], .dead) := rfl
      obtain ⟨rest, rfl, hrest⟩ := (Reactive.Run.cons_iff hstep).mp h
      obtain ⟨-, rfl⟩ := run_stopped (Or.inr rfl) hrest
      rfl
    · have hstep : step cliProtos (.loop buf) none = some (.command buf.dropLast ::
          (interpret cliProtos buf.dropLast).1, (interpret cliProtos buf.dropLast).2) := by
        rw [step, turn, if_neg hbuf]
      obtain ⟨rest, rfl, hrest⟩ := (Reactive.Run.cons_iff hstep).mp h
      rw [commands_turns _ (commands_interpret cliProtos buf.dropLast), stale_cons hbuf,
        List.take_succ_cons]
      obtain hloop | hstop := interpret_next cliProtos buf.dropLast
      · rw [hloop] at hrest
        rw [ih hrest]
      · obtain ⟨hreads, rfl⟩ := run_stopped hstop hrest
        obtain rfl : k = 0 := by simpa using hreads
        rfl

theorem commands_pieces (hs : Pieces s ps)
    (h : Run cliProtos (.loop buf) (reads szLine k s) turns t) :
    commands turns.flatten = (ps.map List.dropLast ++ stale (leftover buf ps)).take k := by
  induction hs generalizing buf k turns with
  | nil => exact commands_stale h
  | @cons p s ps hcut _ ih =>
    cases k with
    | zero =>
      cases h
      rfl
    | succ k =>
      have hstep : step cliProtos (.loop buf) (some p) = some (.command p.dropLast ::
          (interpret cliProtos p.dropLast).1, (interpret cliProtos p.dropLast).2) := by
        rw [step, turn, if_neg hcut.nonempty]
      have hleft : leftover buf (p :: ps) = leftover p.dropLast ps := by
        rw [leftover, leftover, List.map_cons, List.getLast?_cons, Option.getD_some]
      rw [reads_cut hcut] at h
      obtain ⟨rest, rfl, hrest⟩ := (Reactive.Run.cons_iff hstep).mp h
      rw [commands_turns _ (commands_interpret cliProtos p.dropLast), List.map_cons,
        List.cons_append, List.take_succ_cons, hleft]
      obtain hloop | hstop := interpret_next cliProtos p.dropLast
      · rw [hloop] at hrest
        rw [ih hrest]
      · obtain ⟨hreads, rfl⟩ := run_stopped hstop hrest
        have hk : k = 0 := by rw [← length_reads szLine k s, hreads]; rfl
        rw [hk]
        rfl

/-- Whatever is typed, the shell interprets the pieces in which it is read, each without its last
character, whether that is the newline or not, and behind the end of the input what is left of the
last one. -/
theorem typed_commands (cliProtos : Table (Protocol H)) (buf s : CString) :
    ∃ ps, Pieces s ps ∧ ∀ k turns t,
      Run cliProtos (.loop buf) (reads szLine k s) turns t →
        commands turns.flatten = (ps.map List.dropLast ++ stale (leftover buf ps)).take k := by
  obtain ⟨ps, hps⟩ := exists_pieces s
  exact ⟨ps, hps, fun k turns t h => commands_pieces hps h⟩

end LibSwitch.LongLines

import LibSwitch.CliShell
import LibSwitch.Handlers

namespace LibSwitch.InputEnd

open LibSwitch.PointerTable LibSwitch.Common LibSwitch.CText LibSwitch.LineInput
open LibSwitch.Numeral LibSwitch.CliShell LibSwitch.Handlers

variable {H : Type}

def Ends (l : CString) : Prop := "quit".toList <+: l ∨ "exit".toList <+: l

/-- A `sec` line has a space, an index inside `cli_protos[]` behind it and, if a protocol is
registered there, two more characters at least. -/
def Runs (cliProtos : Table (Protocol H)) (l : CString) : Prop :=
  "sec".toList <+: l → ∃ subCmd, strstr [' '] l = some subCmd ∧
    (0 ≤ atoi (subCmd.drop 1) ∧ atoi (subCmd.drop 1) < maxObjects) ∧
    ((deref maxObjects cliProtos (atoi (subCmd.drop 1))).isSome → 3 ≤ subCmd.length)

def Clean (es : List Event) : Prop := commands es = [] ∧ ∀ f, Event.fault f ∉ es

theorem sec_cases (cliProtos : Table (Protocol H)) {l : CString} (h : "sec".toList <+: l) :
    (Runs cliProtos l ∧ ∃ es, sec cliProtos l = .ok es ∧ Clean es) ∨
    (¬ Runs cliProtos l ∧ ∃ f, sec cliProtos l = .error f) := by
  unfold sec
  cases hsub : strstr [' '] l with
  | none =>
    refine Or.inr ⟨?_, _, rfl⟩
    intro hruns
    obtain ⟨subCmd, hsome, -⟩ := hruns h
    rw [hsub] at hsome
    cases hsome
  | some subCmd =>
    have hruns : Runs cliProtos l ↔
        (0 ≤ atoi (subCmd.drop 1) ∧ atoi (subCmd.drop 1) < maxObjects) ∧
          ((deref maxObjects cliProtos (atoi (subCmd.drop 1))).isSome → 3 ≤ subCmd.length) := by
      simp only [Runs, h, hsub, Option.some.injEq, exists_eq_left', true_imp_iff]
    rw [hruns, deref]
    dsimp only
    by_cases hid : 0 ≤ atoi (subCmd.drop 1) ∧ atoi (subCmd.drop 1) < maxObjects
    · rw [PointerTable.read, if_pos hid, Option.join_some]
      cases cliProtos.slots (atoi (subCmd.drop 1)).toNat with
      | none => exact Or.inl ⟨⟨hid, fun h => by cases h⟩, _, rfl, rfl, by simp⟩
      | some p =>
        by_cases hlen : subCmd.length < 3
        · rw [if_pos hlen]
          exact Or.inr ⟨fun hr => absurd (hr.2 rfl) (by omega), _, rfl⟩
        · rw [if_neg hlen]
          exact Or.inl ⟨⟨hid, fun _ => by omega⟩, _, rfl, rfl, by simp⟩
    · rw [read_outside cliProtos hid]
      exact Or.inr ⟨fun hr => hid hr.1, _, rfl⟩

theorem not_both_start {a b : Char} (hab : a ≠ b) {s t l : CString} (h : a :: s <+: l) :
    ¬ b :: t <+: l := by
  rintro ⟨u, rfl⟩
  rw [List.cons_append, List.cons_prefix_cons] at h
  exact hab h.1

def Stopped (s : Shell) : Prop := s = .killed ∨ s = .dead

/-- A round ends the shell, returns to the loop or leaves defined behaviour. -/
theorem interpret_cases (cliProtos : Table (Protocol H)) (l : CString) :
    (Ends l ∧ ∃ es, interpret cliProtos l = (es, .killed) ∧ Clean es) ∨
    (¬ Ends l ∧ Runs cliProtos l ∧ ∃ es, interpret cliProtos l = (es, .loop l) ∧ Clean es) ∨
    (¬ Ends l ∧ ¬ Runs cliProtos l ∧ ∃ f, interpret cliProtos l = ([.fault f], .dead)) := by
  have h₁ : strncmpEq l "help".toList 4 = true ↔ "help".toList <+: l := strncmpEq_iff_starts
  have h₂ : strncmpEq l "quit".toList 4 = true ↔ "quit".toList <+: l := strncmpEq_iff_starts
  have h₃ : strncmpEq l "exit".toList 4 = true ↔ "exit".toList <+: l := strncmpEq_iff_starts
  have h₄ : strncmpEq l "sec".toList 3 = true ↔ "sec".toList <+: l := strncmpEq_iff_starts
  have hends (c : Char) (s : CString) (hq : 'q' ≠ c) (he : 'e' ≠ c) (hl : c :: s <+: l) :
      ¬ Ends l := by
    rintro (hquit | hexit)
    · exact not_both_start hq hquit hl
    · exact not_both_start he hexit hl
  by_cases hhelp : "help".toList <+: l
  · exact Or.inr (Or.inl ⟨hends _ _ (by decide) (by decide) hhelp,
      fun hs => absurd hs (not_both_start (by decide) hhelp), _, if_pos (h₁.mpr hhelp), rfl,
      by simp⟩)
  rw [interpret, if_neg (mt h₁.mp hhelp)]
  by_cases hquit : "quit".toList <+: l
  · exact Or.inl ⟨Or.inl hquit, _, if_pos (h₂.mpr hquit), rfl, by simp⟩
  rw [if_neg (mt h₂.mp hquit)]
  by_cases hexit : "exit".toList <+: l
  · exact Or.inl ⟨Or.inr hexit, _, if_pos (h₃.mpr hexit), rfl, by simp⟩
  rw [if_neg (mt h₃.mp hexit)]
  have hopen : ¬ Ends l := fun he => he.elim hquit hexit
  by_cases hsec : "sec".toList <+: l
  · rw [if_pos (h₄.mpr hsec)]
    obtain ⟨hruns, es, hes, hclean⟩ | ⟨hruns, f, hf⟩ := sec_cases cliProtos hsec
    · exact Or.inr (Or.inl ⟨hopen, hruns, es, by rw [hes], hclean⟩)
    · exact Or.inr (Or.inr ⟨hopen, hruns, f, by rw [hf]⟩)
  · rw [if_neg (mt h₄.mp hsec)]
    exact Or.inr (Or.inl ⟨hopen, fun h => absurd h hsec, _, rfl, rfl, by simp⟩)

theorem commands_interpret (cliProtos : Table (Protocol H)) (l : CString) :
    commands (interpret cliProtos l).1 = [] := by
  obtain ⟨-, es, hi, hclean⟩ | ⟨-, -, es, hi, hclean⟩ | ⟨-, -, f, hi⟩ :=
    interpret_cases cliProtos l
  · rw [hi, hclean.1]
  · rw [hi, hclean.1]
  · rw [hi]
    rfl

theorem interpret_next (cliProtos : Table (Protocol H)) (l : CString) :
    (interpret cliProtos l).2 = .loop l ∨ Stopped (interpret cliProtos l).2 := by
  obtain ⟨-, es, hi, -⟩ | ⟨-, -, es, hi, -⟩ | ⟨-, -, f, hi⟩ := interpret_cases cliProtos l
  · rw [hi]
    exact Or.inr (Or.inl rfl)
  · rw [hi]
    exact Or.inl rfl
  · rw [hi]
    exact Or.inr (Or.inr rfl)

/-- The typed lines are interpreted once each and in order, without leaving defined behaviour,
and behind the end of the input there is nothing more. -/
structure TypedOnce (cliProtos : Table (Protocol H)) (buf : CString) (lines : List CString) :
    Prop where
  each : ∀ k turns s, Run cliProtos (.loop buf) (reads szLine k (typed lines)) turns s →
    commands turns.flatten = lines.take k ∧ (∀ f, Event.fault f ∉ turns.flatten) ∧
      calls (turns.drop lines.length).flatten = []
  all : ∃ turns s, Run cliProtos (.loop buf) (reads szLine lines.length (typed lines)) turns s

theorem not_typedOnce_nil (cliProtos : Table (Protocol H)) (buf : CString) :
    ¬ TypedOnce cliProtos buf [] := by
  intro h
  have hrun : Run cliProtos (.loop buf) (reads szLine 1 (typed [])) [(turn cliProtos buf).1]
      (turn cliProtos buf).2 := .cons rfl (.nil _)
  obtain ⟨hcommands, hfaults, -⟩ := h.each 1 _ _ hrun
  by_cases hbuf : buf = []
  · apply hfaults .beforeBuf
    rw [turn, if_pos hbuf]
    simp
  · rw [turn, if_neg hbuf] at hcommands
    cases hcommands

/-- The run of a typed line, and of what comes after it. -/
theorem run_line_iff {cliProtos : Table (Protocol H)} {l : CString} (hl : Fits szLine l)
    {es : List Event} {t : Shell} (hi : interpret cliProtos l = (es, t)) (buf : CString)
    (lines : List CString) (k : Nat) {turns : List (List Event)} {s : Shell} :
    Run cliProtos (.loop buf) (reads szLine (k + 1) (typed (l :: lines))) turns s ↔
      ∃ rest, turns = (.command l :: es) :: rest ∧
        Run cliProtos t (reads szLine k (typed lines)) rest s := by
  have hreads : reads szLine (k + 1) (typed (l :: lines)) =
      some (l ++ ['\n']) :: reads szLine k (typed lines) := reads_cons hl k (typed lines)
  rw [hreads]
  apply Reactive.Run.cons_iff
  rw [step, turn_line, hi]

theorem run_stopped {cliProtos : Table (Protocol H)} {is : List (Option CString)}
    {turns : List (List Event)} {s t : Shell} (hs : Stopped s) (h : Run cliProtos s is turns t) :
    is = [] ∧ turns = [] := by
  cases h with
  | nil => exact ⟨rfl, rfl⟩
  | cons hstep _ => obtain rfl | rfl := hs <;> cases hstep

theorem length_reads (size k : Nat) (s : CString) : (reads size k s).length = k := by
  induction k generalizing s with
  | zero => rfl
  | succ k ih =>
    rw [reads]
    split <;> rw [List.length_cons, ih]

theorem typedOnce_ends {cliProtos : Table (Protocol H)} {l : CString} (hl : Fits szLine l)
    {es : List Event} (hi : interpret cliProtos l = (es, .killed)) (hclean : Clean es)
    (buf : CString) (lines : List CString) :
    TypedOnce cliProtos buf (l :: lines) ↔ lines = [] := by
  have hline := run_line_iff hl hi buf
  constructor
  · intro h
    obtain ⟨turns, s, hrun⟩ := h.all
    obtain ⟨rest, -, hrest⟩ := (hline lines lines.length).mp hrun
    have hlen := congrArg List.length (run_stopped (Or.inl rfl) hrest).1
    rw [length_reads] at hlen
    exact List.length_eq_zero_iff.mp hlen
  · rintro rfl
    refine ⟨?_, _, _, (hline [] 0).mpr ⟨[], rfl, .nil _⟩⟩
    intro k turns s hrun
    cases k with
    | zero =>
      cases hrun
      exact ⟨rfl, by simp, rfl⟩
    | succ k =>
      obtain ⟨rest, rfl, hrest⟩ := (hline [] k).mp hrun
      obtain ⟨-, rfl⟩ := run_stopped (Or.inl rfl) hrest
      refine ⟨?_, by simpa using hclean.2, rfl⟩
      rw [List.take_succ_cons, List.take_nil, ← hclean.1]
      simp [commands, command?]

theorem commands_turns (l : CString) {es : List Event} (h : commands es = [])
    (turns : List (List Event)) :
    commands ((.command l :: es) :: turns).flatten = l :: commands turns.flatten := by
  rw [List.flatten_cons, commands_append]
  change (l :: commands es) ++ _ = _
  rw [h]
  rfl

theorem typedOnce_runs {cliProtos : Table (Protocol H)} {l : CString} (hl : Fits szLine l)
    {es : List Event} (hi : interpret cliProtos l = (es, .loop l)) (hclean : Clean es)
    (buf : CString) (lines : List CString) :
    TypedOnce cliProtos buf (l :: lines) ↔ TypedOnce cliProtos l lines := by
  have hline := run_line_iff hl hi buf lines
  have hfaults (turns : List (List Event)) (f : Fault) :
      Event.fault f ∈ ((.command l :: es) :: turns).flatten ↔ Event.fault f ∈ turns.flatten := by
    simp [hclean.2 f]
  constructor
  · intro h
    constructor
    · intro k turns s hrun
      obtain ⟨hc, hf, hq⟩ := h.each _ _ _ ((hline k).mpr ⟨turns, rfl, hrun⟩)
      rw [commands_turns l hclean.1, List.take_succ_cons, List.cons.injEq] at hc
      exact ⟨hc.2, fun f hmem => hf f ((hfaults turns f).mpr hmem), hq⟩
    · obtain ⟨turns, s, hrun⟩ := h.all
      obtain ⟨rest, -, hrest⟩ := (hline lines.length).mp hrun
      exact ⟨rest, s, hrest⟩
  · intro h
    constructor
    · intro k turns s hrun
      cases k with
      | zero =>
        cases hrun
        exact ⟨rfl, by simp, by simp [calls]⟩
      | succ k =>
        obtain ⟨rest, rfl, hrest⟩ := (hline k).mp hrun
        obtain ⟨hc, hf, hq⟩ := h.each _ _ _ hrest
        refine ⟨?_, fun f hmem => hf f ((hfaults rest f).mp hmem), hq⟩
        rw [commands_turns l hclean.1, hc, List.take_succ_cons]
    · obtain ⟨turns, s, hrun⟩ := h.all
      exact ⟨_, s, (hline lines.length).mpr ⟨turns, rfl, hrun⟩⟩

theorem not_typedOnce_fault {cliProtos : Table (Protocol H)} {l : CString}
    (hl : Fits szLine l) {f : Fault} (hi : interpret cliProtos l = ([.fault f], .dead))
    (buf : CString) (lines : List CString) : ¬ TypedOnce cliProtos buf (l :: lines) := by
  intro h
  have hrun := (run_line_iff hl hi buf lines 0).mpr ⟨[], rfl, .nil _⟩
  exact (h.each 1 _ _ hrun).2.1 f (by simp)

theorem typedOnce_cons {cliProtos : Table (Protocol H)} {l : CString} (hl : Fits szLine l)
    (buf : CString) (lines : List CString) :
    TypedOnce cliProtos buf (l :: lines) ↔
      Ends l ∧ lines = [] ∨ ¬ Ends l ∧ Runs cliProtos l ∧ TypedOnce cliProtos l lines := by
  obtain ⟨he, es, hi, hclean⟩ | ⟨he, hr, es, hi, hclean⟩ | ⟨he, hr, f, hi⟩ :=
    interpret_cases cliProtos l
  · rw [typedOnce_ends hl hi hclean]
    simp only [he, true_and, not_true_eq_false, false_and, or_false]
  · rw [typedOnce_runs hl hi hclean]
    simp only [he, hr, false_and, not_false_eq_true, true_and, false_or]
  · refine iff_of_false (not_typedOnce_fault hl hi buf lines) ?_
    simp only [he, hr, false_and, and_false, or_false, not_false_eq_true]

/-- Every typed line runs once and nothing else runs exactly when the last line ends the shell
and the lines before it return to the loop: the loop does not see the end of its input, and
interprets the last line again, one character shorter each time. The lines are C strings, with
no null character inside, and the `cli_cmd` of a protocol returns. -/
theorem typedOnce_iff {cliProtos : Table (Protocol H)} {lines : List CString}
    (hlines : ∀ l ∈ lines, '\n' ∉ l ∧ l.length ≤ 4094) (buf : CString) :
    TypedOnce cliProtos buf lines ↔
      ∃ first last, lines = first ++ [last] ∧ Ends last ∧
        ∀ l ∈ first, ¬ Ends l ∧ Runs cliProtos l := by
  induction lines generalizing buf with
  | nil =>
    refine iff_of_false (not_typedOnce_nil cliProtos buf) ?_
    rintro ⟨first, last, h, -⟩
    simp at h
  | cons l lines ih =>
    rw [List.forall_mem_cons] at hlines
    have hl : Fits szLine l := ⟨hlines.1.1, Nat.add_le_add_right hlines.1.2 2⟩
    rw [typedOnce_cons hl, ih hlines.2]
    constructor
    · rintro (⟨he, rfl⟩ | ⟨he, hr, first, last, rfl, hlast, hfirst⟩)
      · exact ⟨[], l, rfl, he, by simp⟩
      · refine ⟨l :: first, last, rfl, hlast, ?_⟩
        rw [List.forall_mem_cons]
        exact ⟨⟨he, hr⟩, hfirst⟩
    · rintro ⟨first, last, h, hlast, hfirst⟩
      cases first with
      | nil =>
        obtain ⟨rfl, rfl⟩ := List.cons.inj h
        exact Or.inl ⟨hlast, rfl⟩
      | cons l' first =>
        obtain ⟨rfl, rfl⟩ := List.cons.inj h
        rw [List.forall_mem_cons] at hfirst
        exact Or.inr ⟨hfirst.1.1, hfirst.1.2, first, last, rfl, hlast, hfirst.2⟩

theorem quit_typedOnce :
    TypedOnce (ofList [bridge]) [] ["help".toList, "quit now".toList] :=
  (typedOnce_iff (by decide) []).mpr ⟨["help".toList], "quit now".toList, rfl,
    Or.inl ⟨" now".toList, rfl⟩, by unfold Ends Runs; decide⟩

/-- The bridge module is called a second time, for another bridge. -/
theorem stale_line_called :
    ¬ TypedOnce (ofList [bridge]) [] ["sec 0;del-br dev=0 br-id=12".toList] ∧
      ∃ turns s, Run (ofList [bridge]) (.loop [])
          (reads szLine 2 (typed ["sec 0;del-br dev=0 br-id=12".toList])) turns s ∧
        calls turns.flatten =
          [(0, "del-br dev=0 br-id=12".toList), (0, "del-br dev=0 br-id=1".toList)] := by
  constructor
  · rw [typedOnce_cons (by decide)]
    rintro (⟨he, -⟩ | ⟨-, -, h⟩)
    · revert he
      unfold Ends
      decide
    · exact not_typedOnce_nil _ _ h
  · exact ⟨_, _, .cons rfl (.cons rfl (.nil _)), by decide⟩

end LibSwitch.InputEnd

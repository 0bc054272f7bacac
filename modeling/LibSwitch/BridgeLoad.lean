import Mathlib.Data.List.Find
import Mathlib.Data.List.Forall2
import LibSwitch.BridgeLocals
import LibSwitch.FileLines

namespace LibSwitch.BridgeLoad

open LibSwitch.PointerTable LibSwitch.CText LibSwitch.LineInput LibSwitch.FileLines
open LibSwitch.TrailingNewline LibSwitch.Numeral LibSwitch.Common LibSwitch.Handlers
open LibSwitch.BridgeCommands LibSwitch.BridgeGrammar LibSwitch.BridgeLocals

variable {D : Type}

/-- A function called on one line after the other, each time with a memory of its own. There is
no result where a call does not end. -/
def eachLine {M O : Type} (run : M → CString → Option (List O)) :
    (Nat → M) → List CString → Option (List O)
  | _, [] => some []
  | mem, l :: ls =>
    match run (mem 0) l with
    | none => none
    | some os => (eachLine run (fun i => mem (i + 1)) ls).map (os ++ ·)

/-- A call of `cli_cmd` with the calls that `cmd_load` makes in turn, nested at most as deep as
the first number says: the outcomes of the other commands. The locals of the call for the i-th
line of a file are what the memory holds behind `i`. -/
def cliRun (files : Files) (devs : Table D) :
    Nat → (List Nat → Locals) → CString → Option (List (Outcome D))
  | 0, _, _ => none
  | k + 1, mem, cmdStr =>
    match cliCmd devs (mem []) cmdStr with
    | .loads cmd => eachLine (cliRun files devs k) (fun i p => mem (i :: p)) (cmdLoad files cmd)
    | o => some [o]

def deviceCall? : Outcome D → Option (D × BrCall)
  | .calls d c => some (d, c)
  | _ => none

def deviceCalls (os : List (Outcome D)) : List (D × BrCall) := os.filterMap deviceCall?

def commandWords : List CString :=
  ["add-br".toList, "del-br".toList, "add-br-if".toList, "del-br-if".toList, "set-age".toList]

/-- A command word followed by tokens that assign something, the required options among them. -/
structure CommandLine (l : CString) : Prop where
  text : TextLine l
  assigns : ∃ w ∈ commandWords, ∃ ts, tokens ' ' l = w :: ts ∧ ts ≠ [] ∧ ∀ t ∈ ts, '=' ∈ t
  complete : ∀ f, formOf l = some f → f.Complete (tokens ' ' l)

def commands : List Command := [addBr, delBr, addBrIf, delBrIf, setAge]

variable {c : Command} {devs : Table D} {files : Files} {l name last t : CString}
variable {ls ts : List CString} {k : Nat}

theorem words_plain : ∀ c ∈ commands, '\n' ∉ c.word ∧ '=' ∉ c.word ∧
    (c.word.length = c.wordLen ∨ c.word.length < c.wordLen) ∧ ∀ o ∈ c.opts, '\n' ∉ o.name := by
  decide

theorem word_ended (hc : c ∈ commands) (ht : '=' ∈ t) :
    strncmpEq (ended t) c.word c.wordLen = strncmpEq t c.word c.wordLen := by
  obtain ⟨hnl, heq, hlen | hlen, -⟩ := words_plain c hc
  · exact strncmpEq_ended hnl hlen t
  · have hno (u : CString) (hu : '=' ∈ u) : strncmpEq u c.word c.wordLen = false := by
      rw [Bool.eq_false_iff, ne_eq, strncmpEq_whole hlen]
      rintro rfl
      exact heq hu
    rw [hno (ended t) (List.mem_append_left _ ht), hno t ht]

theorem option_ended (hc : c ∈ commands) (ht : '=' ∈ t) (loc : Locals) :
    c.option devs (ended t) loc = c.option devs t loc := by
  have hdev : strncmpEq (ended t) "dev".toList 3 = strncmpEq t "dev".toList 3 :=
    strncmpEq_ended (by decide) rfl t
  have hfind : (c.opts.find? fun o => strncmpEq (ended t) o.name o.name.length) =
      c.opts.find? fun o => strncmpEq t o.name o.name.length :=
    List.find?_congr fun o ho => strncmpEq_ended ((words_plain c hc).2.2.2 o ho) rfl t
  rw [Command.option, Command.option, word_ended hc ht, hdev, hfind, optionShort_ended]

theorem options_ended (hc : c ∈ commands) (ht : '=' ∈ t) (loc : Locals) :
    c.options devs (ts ++ [ended t]) loc = c.options devs (ts ++ [t]) loc := by
  induction ts generalizing loc with
  | nil =>
    rw [List.nil_append, List.nil_append, Command.options, Command.options, option_ended hc ht]
  | cons u ts ih =>
    rw [List.cons_append, List.cons_append, Command.options, Command.options]
    cases c.option devs u loc with
    | none => rfl
    | some loc' => exact ih loc'

theorem run_ended (hc : c ∈ commands) (hts : tokens ' ' l = ts ++ [t]) (ht : '=' ∈ t)
    (loc : Locals) : c.run devs loc (ended l) = c.run devs loc l := by
  rw [Command.run, Command.run, tokens_ended hts, hts, options_ended hc ht]

theorem prefix_of_tokens {s : CString} (h : tokens ' ' s = t :: ts) : t <+: s := by
  induction s generalizing t ts with
  | nil =>
    cases h
    exact List.prefix_refl []
  | cons c s ih =>
    rw [tokens] at h
    split at h
    · cases h
      exact List.nil_prefix
    · split at h
      · next hnil => exact absurd hnil (tokens_ne_nil ' ' s)
      · next u us hcons =>
        cases h
        rw [List.cons_prefix_cons]
        exact ⟨rfl, ih hcons⟩

theorem CommandLine.starts (h : CommandLine l) : ∃ w ∈ commandWords, w <+: l := by
  obtain ⟨w, hw, ts, hts, -⟩ := h.assigns
  exact ⟨w, hw, prefix_of_tokens hts⟩

theorem CommandLine.formOf (h : CommandLine l) : ∃ f, formOf l = some f := by
  obtain ⟨w, hw, hp⟩ := h.starts
  simp only [BridgeGrammar.formOf, List.isPrefixOf_iff_prefix]
  split
  · exact ⟨_, rfl⟩
  split
  · exact ⟨_, rfl⟩
  split
  · exact ⟨_, rfl⟩
  split
  · exact ⟨_, rfl⟩
  split
  · exact ⟨_, rfl⟩
  · next h₁ h₂ h₃ h₄ h₅ =>
    simp only [commandWords, List.mem_cons, List.not_mem_nil, or_false] at hw
    obtain rfl | rfl | rfl | rfl | rfl := hw
    · exact absurd hp h₃
    · exact absurd hp h₄
    · exact absurd hp h₁
    · exact absurd hp h₂
    · exact absurd hp h₅

theorem CommandLine.last_assigns (h : CommandLine l) :
    ∃ ts t, tokens ' ' l = ts ++ [t] ∧ '=' ∈ t := by
  obtain ⟨w, -, ts, hts, hne, heq⟩ := h.assigns
  obtain ⟨us, t, rfl⟩ := (List.eq_nil_or_concat' ts).resolve_left hne
  exact ⟨w :: us, t, hts, heq t (List.mem_append_right _ (List.mem_singleton_self t))⟩

theorem CommandLine.not_load (h : CommandLine l) : strncmpEq l "load".toList 4 = false := by
  obtain ⟨w, hw, hp⟩ := h.starts
  simp only [commandWords, List.mem_cons, List.not_mem_nil, or_false] at hw
  obtain rfl | rfl | rfl | rfl | rfl := hw <;> obtain ⟨r, rfl⟩ := hp <;> rfl

theorem cliCmd_ended (h : CommandLine l) (loc : Locals) :
    cliCmd devs loc (ended l) = cliCmd devs loc l := by
  obtain ⟨ts, t, hts, ht⟩ := h.last_assigns
  have hword {w : CString} (n : Nat) (hw : '\n' ∉ w ∧ w.length = n) :
      strncmpEq (ended l) w n = strncmpEq l w n := strncmpEq_ended hw.1 hw.2 l
  have h₁ := hword (w := "help".toList) 4 (by decide)
  have h₂ := hword (w := "add-br-if".toList) 9 (by decide)
  have h₃ := hword (w := "del-br-if".toList) 9 (by decide)
  have h₄ := hword (w := "add-br".toList) 6 (by decide)
  have h₅ := hword (w := "del-br".toList) 6 (by decide)
  have h₆ := hword (w := "show".toList) 4 (by decide)
  have h₇ := hword (w := "set-age".toList) 7 (by decide)
  have h₈ := hword (w := "load".toList) 4 (by decide)
  have hrun (c : Command) (hc : c ∈ commands) : c.run devs loc (ended l) = c.run devs loc l :=
    run_ended hc hts ht loc
  rw [cliCmd, cliCmd, h₁, h₂, h₃, h₄, h₅, h₆, h₇, h₈, h.not_load]
  simp only [cmdAddBr, cmdDelBr, cmdAddBrIf, cmdDelBrIf, cmdSetAge,
    hrun addBr (by simp [commands]), hrun delBr (by simp [commands]),
    hrun addBrIf (by simp [commands]), hrun delBrIf (by simp [commands]),
    hrun setAge (by simp [commands])]
  rfl

theorem CommandLine.determined (hf : Filled maxObjects devs) (h : CommandLine l) :
    Determined devs l := by
  obtain ⟨f, hg⟩ := h.formOf
  exact determined_of_complete hf hg (h.complete f hg)

theorem CommandLine.cliCmd_eq (hf : Filled maxObjects devs) (h : CommandLine l) (loc : Locals) :
    cliCmd devs loc l = cliCmd devs zeroLocals l := by
  obtain ⟨o, -, ho⟩ := h.determined hf
  rw [ho, ho]

theorem cliCmd_load {cmd : CString} (h : "load".toList <+: cmd) (loc : Locals) :
    cliCmd devs loc cmd = .loads (cmd.drop 4) := by
  obtain ⟨r, rfl⟩ := h
  rfl

theorem run_ne_loads (c : Command) (loc : Locals) (cmd arg : CString) :
    c.run devs loc cmd ≠ .loads arg := by
  cases hl : c.options devs (tokens ' ' cmd) loc with
  | none => rw [run_nothing hl]; simp
  | some loc' => obtain h | ⟨d, h⟩ := run_acts hl <;> rw [h] <;> simp

theorem cliCmd_ne_loads {cmd : CString} (h : ¬ "load".toList <+: cmd) (loc : Locals)
    (arg : CString) : cliCmd devs loc cmd ≠ .loads arg := by
  have hload : ¬ strncmpEq cmd "load".toList 4 = true := mt strncmpEq_iff_starts.mp h
  rw [cliCmd, if_neg hload]
  split
  · simp
  split
  · exact run_ne_loads addBrIf loc cmd arg
  split
  · exact run_ne_loads delBrIf loc cmd arg
  split
  · exact run_ne_loads addBr loc cmd arg
  split
  · exact run_ne_loads delBr loc cmd arg
  split
  · simp
  split
  · exact run_ne_loads setAge loc cmd arg
  · simp

theorem cliRun_load {cmd : CString} (h : "load".toList <+: cmd) (mem : List Nat → Locals) :
    cliRun files devs (k + 1) mem cmd =
      eachLine (cliRun files devs k) (fun i p => mem (i :: p)) (cmdLoad files (cmd.drop 4)) := by
  rw [cliRun, cliCmd_load h]

theorem cliRun_plain {cmd : CString} (h : ¬ "load".toList <+: cmd) (mem : List Nat → Locals) :
    cliRun files devs (k + 1) mem cmd = some [cliCmd devs (mem []) cmd] := by
  rw [cliRun]
  split
  · next arg heq => exact absurd heq (cliCmd_ne_loads h _ arg)
  · rfl

theorem eachLine_forall₂ {M O : Type} {run : M → CString → Option (List O)}
    {us : List CString} {os : List O}
    (h : List.Forall₂ (fun u o => ∀ m, run m u = some [o]) us os) (mem : Nat → M) :
    eachLine run mem us = some os := by
  induction h generalizing mem with
  | nil => rfl
  | cons hu _ ih =>
    rw [eachLine, hu, ih]
    rfl

/-- What a command line leads to, with or without a newline, in any memory. -/
theorem CommandLine.cliRun_eq (hf : Filled maxObjects devs) (h : CommandLine l) (k : Nat)
    (mem : List Nat → Locals) :
    cliRun files devs (k + 1) mem l = some [cliCmd devs zeroLocals l] ∧
      cliRun files devs (k + 1) mem (ended l) = some [cliCmd devs zeroLocals l] := by
  have hno : ¬ "load".toList <+: l := by
    intro hp
    have hload : strncmpEq l "load".toList 4 = true := strncmpEq_iff_starts.mpr hp
    rw [h.not_load] at hload
    cases hload
  have hno' : ¬ "load".toList <+: ended l := mt (starts_ended (by decide) l).mp hno
  rw [cliRun_plain hno, cliRun_plain hno', cliCmd_ended h, h.cliCmd_eq hf]
  exact ⟨rfl, rfl⟩

def lineCalls (devs : Table D) (l : CString) : List (D × BrCall) :=
  deviceCalls [cliCmd devs zeroLocals l]

theorem deviceCalls_map : deviceCalls (ls.map (cliCmd devs zeroLocals)) =
    ls.flatMap (lineCalls devs) := by
  induction ls with
  | nil => rfl
  | cons l ls ih =>
    rw [List.map_cons, List.flatMap_cons, ← ih, lineCalls]
    exact List.filterMap_append (l := [_])

/-- Loading a file of command lines makes the calls that the lines make when typed, one line
after the other, whatever the memory holds. A rejected line makes none. -/
theorem load_eq_typed (hf : Filled maxObjects devs)
    (hopen : fopen files name = some (typed ls ++ last)) (hname : 4 ≤ name.length)
    (hlines : ∀ l ∈ ls ++ unended last, CommandLine l) (hk : 2 ≤ k)
    (mem : List Nat → Locals) (mem' : Nat → List Nat → Locals) :
    ∃ os os', cliRun files devs k mem ("load ".toList ++ name) = some os ∧
      eachLine (cliRun files devs k) mem' (ls ++ unended last) = some os' ∧
      deviceCalls os = deviceCalls os' ∧
      deviceCalls os = (ls ++ unended last).flatMap (lineCalls devs) ∧
      (∀ o ∈ os ++ os', o ≠ .absentDev) ∧
      ∀ l ∈ ls ++ unended last, ∀ f, formOf l = some f →
        ¬ Parses f devs.cnt (tokens ' ' l) → lineCalls devs l = [] := by
  obtain ⟨k, rfl⟩ := Nat.exists_eq_add_of_le' hk
  have hload : "load".toList <+: "load ".toList ++ name := ⟨' ' :: name, rfl⟩
  have hread := readLines_text fun l hl => (hlines l hl).text
  have hcmd : cmdLoad files (("load ".toList ++ name).drop 4) =
      ls.map ended ++ unended last := (cmdLoad_open hopen hname ' ').trans hread
  have hloaded : List.Forall₂
      (fun u o => ∀ m, cliRun files devs (k + 1) m u = some [o])
      (ls.map ended ++ unended last) ((ls ++ unended last).map (cliCmd devs zeroLocals)) := by
    rw [List.map_append]
    refine List.rel_append ?_ ?_
    · rw [List.forall₂_map_left_iff, List.forall₂_map_right_iff, List.forall₂_same]
      exact fun l hl m => ((hlines l (List.mem_append_left _ hl)).cliRun_eq hf k m).2
    · rw [List.forall₂_map_right_iff, List.forall₂_same]
      exact fun l hl m => ((hlines l (List.mem_append_right _ hl)).cliRun_eq hf k m).1
  have htyped : List.Forall₂ (fun l o => ∀ m, cliRun files devs (k + 2) m l = some [o])
      (ls ++ unended last) ((ls ++ unended last).map (cliCmd devs zeroLocals)) := by
    rw [List.forall₂_map_right_iff, List.forall₂_same]
    exact fun l hl m => ((hlines l hl).cliRun_eq hf (k + 1) m).1
  refine ⟨_, _, ?_, eachLine_forall₂ htyped mem', rfl, deviceCalls_map, ?_, ?_⟩
  · rw [cliRun_load hload, hcmd]
    exact eachLine_forall₂ hloaded _
  · rw [List.forall_mem_append, and_self, List.forall_mem_map]
    intro l hl
    obtain ⟨o, hne, ho⟩ := (hlines l hl).determined hf
    rwa [ho]
  · intro l _ f hg hp
    obtain ⟨c, hc, hrun⟩ := cliCmd_routed hg devs
    rw [lineCalls, hrun, run_unread hc hp]
    rfl

def addLine : CString := "add-br dev=0 br-id=7".toList

def rejectedLine : CString := "del-br br-id=7 dev=9".toList

def bridgeFiles : Files := [("bridges".toList, typed [rejectedLine] ++ addLine)]

theorem addLine_commandLine : CommandLine addLine where
  text := ⟨by decide, by decide⟩
  assigns := ⟨"add-br".toList, by decide, ["dev=0".toList, "br-id=7".toList], by decide⟩
  complete f hg := by
    obtain rfl : addBrForm = f := Option.some.inj hg
    have hall : ∀ n ∈ addBrForm.names, ∃ t ∈ tokens ' ' addLine, n <+: t := by decide
    exact hall

theorem rejectedLine_commandLine : CommandLine rejectedLine where
  text := ⟨by decide, by decide⟩
  assigns := ⟨"del-br".toList, by decide, ["br-id=7".toList, "dev=9".toList], by decide⟩
  complete f hg := by
    obtain rfl : delBrForm = f := Option.some.inj hg
    have hall : ∀ n ∈ delBrForm.names, ∃ t ∈ tokens ' ' rejectedLine, n <+: t := by decide
    exact hall

theorem bridgeFiles_load_eq_typed :
    ∃ os os', cliRun bridgeFiles (ofList [()]) 2 (fun _ => zeroLocals)
        ("load ".toList ++ "bridges".toList) = some os ∧
      eachLine (cliRun bridgeFiles (ofList [()]) 2) (fun _ _ => zeroLocals)
        ([rejectedLine] ++ unended addLine) = some os' ∧
      deviceCalls os = deviceCalls os' ∧
      deviceCalls os = ([rejectedLine] ++ unended addLine).flatMap (lineCalls (ofList [()])) ∧
      (∀ o ∈ os ++ os', o ≠ .absentDev) ∧
      ∀ l ∈ [rejectedLine] ++ unended addLine, ∀ f, formOf l = some f →
        ¬ Parses f 1 (tokens ' ' l) → lineCalls (ofList [()]) l = [] :=
  load_eq_typed (filled_ofList (show [()].length ≤ 256 by decide)) rfl (by decide)
    (List.forall_mem_cons.mpr ⟨rejectedLine_commandLine,
      List.forall_mem_singleton.mpr addLine_commandLine⟩) (Nat.le_refl 2) _ _

end LibSwitch.BridgeLoad

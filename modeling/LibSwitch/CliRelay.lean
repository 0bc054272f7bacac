import LibSwitch.CliShell
import LibSwitch.Handlers

namespace LibSwitch.CliRelay

open LibSwitch.PointerTable LibSwitch.Common LibSwitch.CText LibSwitch.LineInput
open LibSwitch.Numeral LibSwitch.CliShell LibSwitch.Handlers

variable {H : Type}

/-- A command for the protocol at an index of `cli_protos[]`. -/
structure SecLine where
  protoId : Nat
  cmd : CString

/-- `sec n;c` -/
def SecLine.text (l : SecLine) : CString :=
  "sec".toList ++ ' ' :: (Nat.toDigits 10 l.protoId ++ ';' :: l.cmd)

/-- What stands two characters behind the space. -/
def SecLine.arg (l : SecLine) : CString := (Nat.toDigits 10 l.protoId ++ ';' :: l.cmd).drop 2

theorem length_toDigits_pos (n : Nat) : 0 < (Nat.toDigits 10 n).length :=
  List.length_pos_iff.mpr Nat.toDigits_ne_nil

theorem length_toDigits_eq_one (n : Nat) : (Nat.toDigits 10 n).length = 1 ↔ n < 10 := by
  rw [Nat.toDigits_eq_if (by decide)]
  by_cases hn : n < 10
  · rw [if_pos hn]
    exact iff_of_true rfl hn
  · have hpos := length_toDigits_pos (n / 10)
    rw [if_neg hn, List.length_append, List.length_singleton]
    omega

/-- The fixed offset is right for an index of one digit only. -/
theorem SecLine.arg_eq_iff (l : SecLine) : l.arg = l.cmd ↔ l.protoId < 10 := by
  rw [← length_toDigits_eq_one, arg]
  constructor
  · intro h
    have hpos := length_toDigits_pos l.protoId
    have hlen := congrArg List.length h
    rw [List.length_drop, List.length_append, List.length_cons] at hlen
    omega
  · intro h
    have hdrop : (Nat.toDigits 10 l.protoId ++ ';' :: l.cmd).drop (1 + 1) =
        (';' :: l.cmd).drop 1 := by
      rw [← List.drop_drop, List.drop_left' h]
    exact hdrop

theorem SecLine.sec_text {cliProtos : Table (Protocol H)} (hp : Filled maxObjects cliProtos)
    {l : SecLine} (hl : l.protoId < cliProtos.cnt) :
    sec cliProtos l.text = .ok [.cliCmd l.protoId l.arg] := by
  obtain ⟨ps, hps, hle⟩ := hp
  have hmax : maxObjects = 256 := rfl
  rw [hps.cnt_eq] at hl
  have hid : atoi (Nat.toDigits 10 l.protoId ++ ';' :: l.cmd) = l.protoId :=
    atoi_append (spells_toDigits (by decide) (by decide) l.protoId) (by omega) rfl l.cmd
  have hsub : strstr [' '] l.text = some (' ' :: (Nat.toDigits 10 l.protoId ++ ';' :: l.cmd)) :=
    rfl
  have hread : read maxObjects cliProtos l.protoId = some (some ps[l.protoId]) := by
    rw [hps.read (by omega) (by omega), Int.toNat_natCast, List.getElem?_eq_getElem hl]
  have hlen : ¬ (' ' :: (Nat.toDigits 10 l.protoId ++ ';' :: l.cmd)).length < 3 := by
    have hpos := length_toDigits_pos l.protoId
    rw [List.length_cons, List.length_append, List.length_cons]
    omega
  rw [sec, hsub]
  simp only [List.drop_succ_cons, List.drop_zero, hid, hread, if_neg hlen, arg]

theorem SecLine.turn_text {cliProtos : Table (Protocol H)} (hp : Filled maxObjects cliProtos)
    {l : SecLine} (hl : l.protoId < cliProtos.cnt) :
    turn cliProtos (l.text ++ ['\n']) =
      ([.command l.text, .cliCmd l.protoId l.arg], .loop l.text) := by
  have hsec := l.sec_text hp hl
  rw [turn_line, text, interpret_sec, ← text, hsec]

theorem run_secLines {cliProtos : Table (Protocol H)} (hp : Filled maxObjects cliProtos)
    {ls : List SecLine} (hls : ∀ l ∈ ls, l.protoId < cliProtos.cnt) (buf : CString) :
    ∃ turns buf', Run cliProtos (.loop buf) (ls.map fun l => some (l.text ++ ['\n'])) turns
        (.loop buf') ∧ turns.map calls = ls.map fun l => [((l.protoId : Int), l.arg)] := by
  induction ls generalizing buf with
  | nil => exact ⟨[], buf, .nil _, rfl⟩
  | cons l ls ih =>
    rw [List.forall_mem_cons] at hls
    obtain ⟨turns, buf', hrun, hcalls⟩ := ih hls.2 l.text
    have hstep : step cliProtos (.loop buf) (some (l.text ++ ['\n'])) =
        some ([.command l.text, .cliCmd l.protoId l.arg], .loop l.text) := by
      rw [step, l.turn_text hp hls.1]
    refine ⟨_, buf', .cons hstep hrun, ?_⟩
    rw [List.map_cons, List.map_cons, hcalls]
    rfl

theorem SecLine.text_fits {l : SecLine} (hnl : '\n' ∉ l.cmd) (hlen : l.text.length ≤ 4094) :
    Fits szLine l.text := by
  have hdigits : '\n' ∉ Nat.toDigits 10 l.protoId :=
    (spells_toDigits (by decide) (by decide) l.protoId).notMem rfl
  refine ⟨?_, Nat.add_le_add_right hlen 2⟩
  rw [text]
  simp only [List.mem_append, List.mem_cons, not_or]
  exact ⟨by decide, by decide, hdigits, by decide, hnl⟩

theorem run_typed {cliProtos : Table (Protocol H)} (hp : Filled maxObjects cliProtos)
    {ls : List SecLine} (hls : ∀ l ∈ ls, l.protoId < cliProtos.cnt ∧ '\n' ∉ l.cmd ∧
      l.text.length ≤ 4094) (buf rest : CString) :
    ∃ turns buf', Run cliProtos (.loop buf)
        (reads szLine ls.length (typed (ls.map SecLine.text) ++ rest)) turns (.loop buf') ∧
      turns.map calls = ls.map fun l => [((l.protoId : Int), l.arg)] := by
  have hfits : ∀ t ∈ ls.map SecLine.text, Fits szLine t := by
    intro t ht
    obtain ⟨l, hl, rfl⟩ := List.mem_map.mp ht
    exact SecLine.text_fits (hls l hl).2.1 (hls l hl).2.2
  have hreads := reads_typed hfits rest
  rw [List.length_map, List.map_map] at hreads
  rw [hreads]
  exact run_secLines hp (fun l hl => (hls l hl).1) buf

/-- The relay hands the protocols exactly the commands typed for them, in order, when all are
among the first ten. Behind a longer index the command keeps a part of its prefix. The lines are
C strings, with no null character inside, and each `cli_cmd` returns. -/
theorem relayed_iff {cliProtos : Table (Protocol H)} (hp : Filled maxObjects cliProtos)
    {ls : List SecLine} (hls : ∀ l ∈ ls, l.protoId < cliProtos.cnt ∧ '\n' ∉ l.cmd ∧
      l.text.length ≤ 4094) (buf rest : CString) :
    ∃ turns buf', Run cliProtos (.loop buf)
        (reads szLine ls.length (typed (ls.map SecLine.text) ++ rest)) turns (.loop buf') ∧
      (turns.map calls = (ls.map fun l => [((l.protoId : Int), l.cmd)]) ↔
        ∀ l ∈ ls, l.protoId < 10) := by
  obtain ⟨turns, buf', hrun, hcalls⟩ := run_typed hp hls buf rest
  refine ⟨turns, buf', hrun, ?_⟩
  rw [hcalls, List.map_inj_left]
  apply forall₂_congr
  intro l hl
  rw [← l.arg_eq_iff, List.cons.injEq, Prod.mk.injEq]
  simp only [true_and, and_true]

def elevenProtos : Table (Protocol Handler) := ofList (List.replicate 11 bridge)

theorem filled_elevenProtos : Filled maxObjects elevenProtos := filled_ofList (by decide)

theorem two_relayed : ∃ turns buf', Run elevenProtos (.loop [])
      (reads szLine 2 (typed [SecLine.text ⟨9, "show".toList⟩, SecLine.text ⟨0, "help".toList⟩] ++
        ['q'])) turns (.loop buf') ∧
    turns.map calls = [[(9, "show".toList)], [(0, "help".toList)]] := by
  have hls : ∀ l ∈ [SecLine.mk 9 "show".toList, ⟨0, "help".toList⟩],
      l.protoId < elevenProtos.cnt ∧ '\n' ∉ l.cmd ∧ l.text.length ≤ 4094 := by decide
  obtain ⟨turns, buf', hrun, hcalls⟩ := relayed_iff filled_elevenProtos hls [] ['q']
  exact ⟨turns, buf', hrun, hcalls.mpr (by decide)⟩

/-- The eleventh is called with a command that still has its semicolon. -/
theorem ten_not_relayed : ∃ turns buf', Run elevenProtos (.loop [])
      (reads szLine 1 (typed [SecLine.text ⟨10, "show".toList⟩])) turns (.loop buf') ∧
    turns.map calls = [[(10, ";show".toList)]] ∧
    turns.map calls ≠ [[(10, "show".toList)]] := by
  have hls : ∀ l ∈ [SecLine.mk 10 "show".toList], l.protoId < elevenProtos.cnt ∧
      '\n' ∉ l.cmd ∧ l.text.length ≤ 4094 := by decide
  obtain ⟨turns, buf', hrun, hcalls⟩ := run_typed filled_elevenProtos hls [] []
  have hcalls' : turns.map calls = [[(10, ";show".toList)]] := hcalls
  rw [List.append_nil] at hrun
  refine ⟨turns, buf', hrun, hcalls', ?_⟩
  rw [hcalls']
  decide

end LibSwitch.CliRelay

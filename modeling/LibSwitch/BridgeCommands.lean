import LibSwitch.Handlers
import LibSwitch.Numeral

namespace LibSwitch.BridgeCommands

open LibSwitch.PointerTable LibSwitch.ByteOrder LibSwitch.CText LibSwitch.Numeral
open LibSwitch.Common LibSwitch.Handlers

variable {D : Type}

/-- The locals of the command parsers, which start with whatever the stack holds. -/
structure Locals where
  devId : Int
  brId : Int
  ifId : Int
  age : Int

/-- An option besides `dev`: its name and the local that takes its number. -/
structure Opt where
  name : CString
  store : Locals → Int → Locals

def brIdOpt : Opt := ⟨"br-id".toList, fun l v => { l with brId := v }⟩

def ifIdOpt : Opt := ⟨"if-id".toList, fun l v => { l with ifId := v }⟩

def ageOpt : Opt := ⟨"age".toList, fun l v => { l with age := v }⟩

/-- What the parsers differ in: the command word with the length it is compared to, the
options and the device operation called at the end. -/
structure Command where
  word : CString
  wordLen : Nat
  opts : List Opt
  op : Locals → BrCall

def Command.option (c : Command) (devs : Table D) (option : CString) (l : Locals) :
    Option Locals :=
  if strncmpEq option c.word c.wordLen then some l
  else if strncmpEq option "dev".toList 3 then
    match optionShort option with
    | none => none
    | some v => if (devs.cnt : Int) - 1 < v ∨ v < 0 then none else some { l with devId := v }
  else
    match c.opts.find? fun o => strncmpEq option o.name o.name.length with
    | none => none
    | some o => (optionShort option).map (o.store l)

def Command.options (c : Command) (devs : Table D) : List CString → Locals → Option Locals
  | [], l => some l
  | option :: rest, l =>
    match c.option devs option l with
    | none => none
    | some l' => c.options devs rest l'

/-- What a command leads to. Only `load` reads further commands from a file. -/
inductive Outcome (D : Type)
  | nothing
  | calls (d : D) (c : BrCall)
  | absentDev
  | loads (cmd : CString)

def Command.run (c : Command) (devs : Table D) (l : Locals) (cmd : CString) : Outcome D :=
  match c.options devs (tokens ' ' cmd) l with
  | none => .nothing
  | some l' =>
    match deref maxObjects devs l'.devId with
    | none => .absentDev
    | some d => .calls d (c.op l')

def addBr : Command := ⟨"add-br".toList, 9, [brIdOpt], fun l => .addBr l.brId⟩

def delBr : Command := ⟨"del-br".toList, 9, [brIdOpt], fun l => .delBr l.brId⟩

def addBrIf : Command :=
  ⟨"add-br-if".toList, 9, [brIdOpt, ifIdOpt], fun l => .addBrIf l.brId l.ifId⟩

def delBrIf : Command :=
  ⟨"del-br-if".toList, 9, [brIdOpt, ifIdOpt], fun l => .delBrIf l.brId l.ifId⟩

def setAge : Command := ⟨"set-age".toList, 7, [brIdOpt, ageOpt], fun l => .setAge l.brId l.age⟩

def cmdAddBr : Table D → Locals → CString → Outcome D := addBr.run

def cmdDelBr : Table D → Locals → CString → Outcome D := delBr.run

def cmdAddBrIf : Table D → Locals → CString → Outcome D := addBrIf.run

def cmdDelBrIf : Table D → Locals → CString → Outcome D := delBrIf.run

def cmdSetAge : Table D → Locals → CString → Outcome D := setAge.run

def cliCmd (devs : Table D) (l : Locals) (cmdStr : CString) : Outcome D :=
  if strncmpEq cmdStr "help".toList 4 then .nothing
  else if strncmpEq cmdStr "add-br-if".toList 9 then cmdAddBrIf devs l cmdStr
  else if strncmpEq cmdStr "del-br-if".toList 9 then cmdDelBrIf devs l cmdStr
  else if strncmpEq cmdStr "add-br".toList 6 then cmdAddBr devs l cmdStr
  else if strncmpEq cmdStr "del-br".toList 6 then cmdDelBr devs l cmdStr
  else if strncmpEq cmdStr "show".toList 4 then .nothing
  else if strncmpEq cmdStr "set-age".toList 7 then cmdSetAge devs l cmdStr
  else if strncmpEq cmdStr "load".toList 4 then .loads (cmdStr.drop 4)
  else .nothing

/-- An option of a command is told from its word, from `dev` and from its other options. -/
structure Command.Knows (c : Command) (o : Opt) : Prop where
  noEq : '=' ∉ o.name
  noSpace : ' ' ∉ o.name
  notWord : ∀ t, strncmpEq (assign o.name t) c.word c.wordLen = false
  notDev : ∀ t, strncmpEq (assign o.name t) "dev".toList 3 = false
  found : ∀ t, (c.opts.find? fun o' => strncmpEq (assign o.name t) o'.name o'.name.length) =
    some o
  store_devId : ∀ l v, (o.store l v).devId = l.devId

structure Command.Distinct (c : Command) : Prop where
  word : strncmpEq c.word c.word c.wordLen = true
  noSpace : ' ' ∉ c.word
  devNotWord : ∀ t, strncmpEq (assign "dev".toList t) c.word c.wordLen = false
  knows : ∀ o ∈ c.opts, c.Knows o

theorem Command.Knows.option {c : Command} {o : Opt} (h : c.Knows o) (devs : Table D)
    {t : CString} (l : Locals) {v : Int} (ht : SpellsInt t v) (hl : -32768 ≤ v) (hu : v < 32768) :
    c.option devs (assign o.name t) l = some (o.store l v) := by
  rw [Command.option, h.notWord, if_neg Bool.false_ne_true, h.notDev, if_neg Bool.false_ne_true,
    h.found, optionShort_assign h.noEq ht hl hu]
  rfl

theorem Command.Distinct.option_dev {c : Command} (h : c.Distinct) {devs : Table D}
    (hc : devs.cnt ≤ maxObjects) {t : CString} (l : Locals) {v : Int} (ht : SpellsInt t v)
    (h0 : 0 ≤ v) (hv : v < devs.cnt) :
    c.option devs (assign "dev".toList t) l = some { l with devId := v } := by
  rw [maxObjects] at hc
  have hshort := optionShort_assign (show '=' ∉ "dev".toList by decide) ht (by omega) (by omega)
  have hd : strncmpEq (assign "dev".toList t) "dev".toList 3 = true := strncmpEq_assign _ t
  rw [Command.option, h.devNotWord, if_neg Bool.false_ne_true, if_pos hd, hshort]
  exact if_neg (by omega)

structure Setting where
  opt : Opt
  text : CString
  num : Int
  spells : SpellsInt text num
  mem : -32768 ≤ num ∧ num < 32768

def Setting.token (s : Setting) : CString := assign s.opt.name s.text

def settle (l : Locals) (ss : List Setting) : Locals :=
  ss.foldl (fun l s => s.opt.store l s.num) l

theorem Command.Distinct.options_settle {c : Command} (h : c.Distinct) (devs : Table D)
    (ss : List Setting) (hss : ∀ s ∈ ss, s.opt ∈ c.opts) (l : Locals) :
    c.options devs (ss.map Setting.token) l = some (settle l ss) := by
  induction ss generalizing l with
  | nil => rfl
  | cons s ss ih =>
    have hs := (h.knows s.opt (hss s (by simp))).option devs l s.spells s.mem.1 s.mem.2
    rw [List.map_cons, Command.options, Setting.token, hs]
    exact ih (fun s' hs' => hss s' (by simp [hs'])) _

theorem Command.Distinct.settle_devId {c : Command} (h : c.Distinct) {ss : List Setting}
    (hss : ∀ s ∈ ss, s.opt ∈ c.opts) (l : Locals) : (settle l ss).devId = l.devId := by
  induction ss generalizing l with
  | nil => rfl
  | cons s ss ih =>
    exact (ih (fun s' hs' => hss s' (by simp [hs'])) _).trans
      ((h.knows s.opt (hss s (by simp))).store_devId l s.num)

def Command.line (c : Command) (dev : CString) (ss : List Setting) : CString :=
  join ' ' (c.word :: assign "dev".toList dev :: ss.map Setting.token)

theorem Command.Distinct.tokens_line {c : Command} (h : c.Distinct) {dev : CString} {b : Int}
    (hdev : SpellsInt dev b) (ss : List Setting) (hss : ∀ s ∈ ss, s.opt ∈ c.opts) :
    tokens ' ' (c.line dev ss) = c.word :: assign "dev".toList dev :: ss.map Setting.token := by
  apply tokens_join
  · exact List.cons_ne_nil _ _
  · intro t ht
    obtain rfl | ht := List.mem_cons.mp ht
    · exact h.noSpace
    obtain rfl | ht := List.mem_cons.mp ht
    · exact notMem_assign (by decide) (by decide) (hdev.notMem (by decide) (by decide))
    · obtain ⟨s, hs, rfl⟩ := List.mem_map.mp ht
      exact notMem_assign (h.knows s.opt (hss s hs)).noSpace (by decide)
        (s.spells.notMem (by decide) (by decide))

theorem Command.Distinct.run_line {c : Command} (h : c.Distinct) {devs : Table D}
    (hc : devs.cnt ≤ maxObjects) (l : Locals) {dev : CString} {b : Int} (hdev : SpellsInt dev b)
    (h0 : 0 ≤ b) (hb : b < devs.cnt) {d : D} (hd : deref maxObjects devs b = some d)
    (ss : List Setting) (hss : ∀ s ∈ ss, s.opt ∈ c.opts) :
    c.run devs l (c.line dev ss) = .calls d (c.op (settle { l with devId := b } ss)) := by
  have hword : c.option devs c.word l = some l := by rw [Command.option, if_pos h.word]
  rw [Command.run, h.tokens_line hdev ss hss, Command.options, hword]
  simp only [Command.options, h.option_dev hc l hdev h0 hb, h.options_settle devs ss hss,
    h.settle_devId hss, hd]

theorem addBr_distinct : addBr.Distinct := by
  refine ⟨rfl, by decide, fun _ => rfl, ?_⟩
  intro o ho
  rw [List.mem_singleton.mp ho]
  exact ⟨by decide, by decide, fun _ => rfl, fun _ => rfl, fun _ => rfl, fun _ _ => rfl⟩

theorem delBr_distinct : delBr.Distinct := by
  refine ⟨rfl, by decide, fun _ => rfl, ?_⟩
  intro o ho
  rw [List.mem_singleton.mp ho]
  exact ⟨by decide, by decide, fun _ => rfl, fun _ => rfl, fun _ => rfl, fun _ _ => rfl⟩

theorem addBrIf_distinct : addBrIf.Distinct := by
  refine ⟨rfl, by decide, fun _ => rfl, ?_⟩
  intro o ho
  obtain rfl | rfl := List.mem_pair.mp ho <;>
    exact ⟨by decide, by decide, fun _ => rfl, fun _ => rfl, fun _ => rfl, fun _ _ => rfl⟩

theorem delBrIf_distinct : delBrIf.Distinct := by
  refine ⟨rfl, by decide, fun _ => rfl, ?_⟩
  intro o ho
  obtain rfl | rfl := List.mem_pair.mp ho <;>
    exact ⟨by decide, by decide, fun _ => rfl, fun _ => rfl, fun _ => rfl, fun _ _ => rfl⟩

theorem setAge_distinct : setAge.Distinct := by
  refine ⟨rfl, by decide, fun _ => rfl, ?_⟩
  intro o ho
  obtain rfl | rfl := List.mem_pair.mp ho <;>
    exact ⟨by decide, by decide, fun _ => rfl, fun _ => rfl, fun _ => rfl, fun _ _ => rfl⟩

end LibSwitch.BridgeCommands

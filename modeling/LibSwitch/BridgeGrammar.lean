import LibSwitch.ListRuns
import LibSwitch.BridgeCommands

namespace LibSwitch.BridgeGrammar

open LibSwitch.PointerTable LibSwitch.ByteOrder LibSwitch.CText LibSwitch.ListRuns
open LibSwitch.Numeral LibSwitch.Common LibSwitch.Handlers LibSwitch.BridgeCommands

variable {D : Type}

def devName : CString := "dev".toList

def brIdName : CString := "br-id".toList

def ifIdName : CString := "if-id".toList

def ageName : CString := "age".toList

/-- The form of a command: its word, which stands alone or may be continued, the options it
takes besides `dev`, and the operation it names when each option has a number. -/
structure Form where
  word : CString
  whole : Bool
  args : List CString
  op : (CString → Int) → BrCall

def addBrForm : Form := ⟨"add-br".toList, true, [brIdName], fun v => .addBr (v brIdName)⟩

def delBrForm : Form := ⟨"del-br".toList, true, [brIdName], fun v => .delBr (v brIdName)⟩

def addBrIfForm : Form :=
  ⟨"add-br-if".toList, false, [brIdName, ifIdName], fun v => .addBrIf (v brIdName) (v ifIdName)⟩

def delBrIfForm : Form :=
  ⟨"del-br-if".toList, false, [brIdName, ifIdName], fun v => .delBrIf (v brIdName) (v ifIdName)⟩

def setAgeForm : Form :=
  ⟨"set-age".toList, false, [brIdName, ageName], fun v => .setAge (v brIdName) (v ageName)⟩

/-- The form a line is read in. The longer words come first. -/
def formOf (cmd : CString) : Option Form :=
  if "add-br-if".toList.isPrefixOf cmd then some addBrIfForm
  else if "del-br-if".toList.isPrefixOf cmd then some delBrIfForm
  else if "add-br".toList.isPrefixOf cmd then some addBrForm
  else if "del-br".toList.isPrefixOf cmd then some delBrForm
  else if "set-age".toList.isPrefixOf cmd then some setAgeForm
  else none

def Form.names (f : Form) : List CString := devName :: f.args

def Form.IsWord (f : Form) (t : CString) : Prop := if f.whole then t = f.word else f.word <+: t

def optionNumber (t : CString) : Option Int := (optionValue t).map atoi

/-- Every token is the command word or assigns to one of the options, and every device exists. -/
structure Form.Accepts (f : Form) (devCnt : Nat) (ts : List CString) : Prop where
  known : ∀ t ∈ ts, f.IsWord t ∨ (∃ n ∈ f.names, n <+: t) ∧ '=' ∈ t
  devs : ∀ t ∈ ts, devName <+: t → ∀ v, optionNumber t = some v → 0 ≤ v ∧ v < devCnt

def lastToken (n : CString) (ts : List CString) : Option CString :=
  (ts.filter fun t => n.isPrefixOf t).getLast?

def lastNumber (n : CString) (ts : List CString) : Option Int :=
  (lastToken n ts).bind optionNumber

def numberOf (l : Locals) (n : CString) : Int :=
  if n = devName then l.devId
  else if n = brIdName then l.brId
  else if n = ifIdName then l.ifId
  else l.age

def setNumber (n : CString) (v : Int) (l : Locals) : Locals :=
  if n = devName then { l with devId := v }
  else if n = brIdName then { l with brId := v }
  else if n = ifIdName then { l with ifId := v }
  else { l with age := v }

theorem numberOf_setNumber {n m : CString} (hn : n ∈ [devName, brIdName, ifIdName, ageName])
    (hm : m ∈ [devName, brIdName, ifIdName, ageName]) (v : Int) (l : Locals) :
    numberOf (setNumber n v l) m = if m = n then v else numberOf l m := by
  simp only [List.mem_cons, List.not_mem_nil, or_false] at hn hm
  obtain rfl | rfl | rfl | rfl := hn <;> obtain rfl | rfl | rfl | rfl := hm <;> rfl

/-- A command of the code reads the form. -/
structure Implements (c : Command) (f : Form) : Prop where
  word : ∀ t, strncmpEq t c.word c.wordLen = true ↔ f.IsWord t
  opts : c.opts.map Opt.name = f.args
  apart : ∀ t, f.IsWord t → ∀ n ∈ f.names, ¬ n <+: t
  free : ∀ a ∈ f.names, ∀ b ∈ f.names, a <+: b → a = b
  known : ∀ n ∈ f.names, n ∈ [devName, brIdName, ifIdName, ageName]
  store : ∀ o ∈ c.opts, ∀ l v, o.store l v = setNumber o.name v l
  op : ∀ l, c.op l = f.op (numberOf l)

variable {c : Command} {f : Form} {devs : Table D} {t : CString} {p ts : List CString}
variable {l l' : Locals}

theorem Implements.name_unique (h : Implements c f) {a b : CString} (ha : a ∈ f.names)
    (hb : b ∈ f.names) (hat : a <+: t) (hbt : b <+: t) : a = b := by
  obtain hab | hba := List.prefix_or_prefix_of_prefix hat hbt
  · exact h.free a ha b hb hab
  · exact (h.free b hb a ha hba).symm

theorem Implements.option_word (h : Implements c f) (hw : f.IsWord t) (l : Locals) :
    c.option devs t l = some l := by
  rw [Command.option, if_pos ((h.word t).mpr hw)]

theorem Implements.option_dev (h : Implements c f) (hw : ¬ f.IsWord t) (hd : devName <+: t) :
    c.option devs t l = some l' ↔
      ∃ v, optionShort t = some v ∧ (0 ≤ v ∧ v < devs.cnt) ∧ l' = { l with devId := v } := by
  have hdev : strncmpEq t "dev".toList 3 = true := strncmpEq_iff_starts.mpr hd
  rw [Command.option, if_neg (mt (h.word t).mp hw), if_pos hdev]
  cases hv : optionShort t with
  | none => simp
  | some v =>
    simp only [Option.some.injEq, exists_eq_left']
    split
    · simp only [reduceCtorEq, false_iff]
      omega
    · have hmem : 0 ≤ v ∧ v < devs.cnt := by omega
      simp only [Option.some.injEq, hmem, and_self, true_and]
      exact eq_comm

theorem Implements.find_some (h : Implements c f) {o : Opt}
    (ho : (c.opts.find? fun o => strncmpEq t o.name o.name.length) = some o) :
    o ∈ c.opts ∧ o.name ∈ f.args ∧ o.name <+: t := by
  have hmem := List.mem_of_find?_eq_some ho
  have hfound := List.find?_some ho
  refine ⟨hmem, ?_, strncmpEq_iff_starts.mp hfound⟩
  rw [← h.opts]
  exact List.mem_map_of_mem hmem

theorem Implements.find_name (h : Implements c f) {n : CString} (hn : n ∈ f.args)
    (hp : n <+: t) :
    ∃ o, (c.opts.find? fun o => strncmpEq t o.name o.name.length) = some o ∧ o.name = n := by
  cases hfind : c.opts.find? fun o => strncmpEq t o.name o.name.length with
  | none =>
    rw [← h.opts] at hn
    obtain ⟨o, ho, rfl⟩ := List.mem_map.mp hn
    exact absurd (strncmpEq_iff_starts.mpr hp) (List.find?_eq_none.mp hfind o ho)
  | some o =>
    obtain ⟨-, ho, hp'⟩ := h.find_some hfind
    exact ⟨o, rfl, h.name_unique (List.mem_cons_of_mem _ ho) (List.mem_cons_of_mem _ hn) hp' hp⟩

theorem Implements.option_arg (h : Implements c f) (hw : ¬ f.IsWord t) (hd : ¬ devName <+: t) :
    c.option devs t l = some l' ↔
      ∃ n ∈ f.args, n <+: t ∧ ∃ v, optionShort t = some v ∧ l' = setNumber n v l := by
  have hdev : ¬ strncmpEq t "dev".toList 3 = true := mt strncmpEq_iff_starts.mp hd
  rw [Command.option, if_neg (mt (h.word t).mp hw), if_neg hdev]
  constructor
  · intro heq
    cases hfind : c.opts.find? fun o => strncmpEq t o.name o.name.length with
    | none =>
      rw [hfind] at heq
      cases heq
    | some o =>
      obtain ⟨ho, hmem, hp⟩ := h.find_some hfind
      simp only [hfind, Option.map_eq_some_iff] at heq
      obtain ⟨v, hv, rfl⟩ := heq
      exact ⟨o.name, hmem, hp, v, hv, h.store o ho l v⟩
  · rintro ⟨n, hn, hp, v, hv, rfl⟩
    obtain ⟨o, hfind, rfl⟩ := h.find_name hn hp
    simp only [hfind, hv, Option.map_some, h.store o (h.find_some hfind).1 l v]

/-- What a token does to the locals when the parser goes on. -/
theorem Implements.option_iff (h : Implements c f) :
    c.option devs t l = some l' ↔ (f.IsWord t ∧ l' = l) ∨
      ∃ n ∈ f.names, n <+: t ∧ ∃ v, optionShort t = some v ∧
        (n = devName → 0 ≤ v ∧ v < devs.cnt) ∧ l' = setNumber n v l := by
  have hdevmem : devName ∈ f.names := List.mem_cons_self
  by_cases hw : f.IsWord t
  · rw [h.option_word hw]
    constructor
    · intro heq
      cases heq
      exact Or.inl ⟨hw, rfl⟩
    · rintro (⟨-, rfl⟩ | ⟨n, hn, hp, -⟩)
      · rfl
      · exact absurd hp (h.apart t hw n hn)
  simp only [hw, false_and, false_or]
  by_cases hd : devName <+: t
  · rw [h.option_dev hw hd]
    constructor
    · rintro ⟨v, hv, hmem, rfl⟩
      exact ⟨devName, hdevmem, hd, v, hv, fun _ => hmem, rfl⟩
    · rintro ⟨n, hn, hp, v, hv, hmem, rfl⟩
      obtain rfl := h.name_unique hdevmem hn hd hp
      exact ⟨v, hv, hmem rfl, rfl⟩
  · rw [h.option_arg hw hd]
    constructor
    · rintro ⟨n, hn, hp, v, hv, rfl⟩
      refine ⟨n, List.mem_cons_of_mem _ hn, hp, v, hv, ?_, rfl⟩
      rintro rfl
      exact absurd hp hd
    · rintro ⟨n, hn, hp, v, hv, -, rfl⟩
      obtain rfl | hn := List.mem_cons.mp hn
      · exact absurd hp hd
      · exact ⟨n, hn, hp, v, hv, rfl⟩

theorem options_iff : c.options devs ts l = some l' ↔
    Steps (fun t l l' => c.option devs t l = some l') ts l l' := by
  apply loop_iff_steps (E := fun ts l l' => c.options devs ts l = some l')
  · intro l l'
    rw [Command.options, Option.some.injEq]
    exact eq_comm
  · intro t ts l l'
    rw [Command.options]
    cases c.option devs t l <;> simp

/-- A token the parser goes on behind. -/
def Form.Takes (f : Form) (devCnt : Nat) (t : CString) : Prop :=
  f.IsWord t ∨ ∃ n ∈ f.names, n <+: t ∧ ∃ v, optionShort t = some v ∧
    (n = devName → 0 ≤ v ∧ v < devCnt)

theorem Implements.takes_iff (h : Implements c f) (l : Locals) :
    (∃ l', c.option devs t l = some l') ↔ f.Takes devs.cnt t := by
  constructor
  · rintro ⟨l', hl⟩
    obtain ⟨hw, -⟩ | ⟨n, hn, hp, v, hv, hmem, -⟩ := h.option_iff.mp hl
    · exact Or.inl hw
    · exact Or.inr ⟨n, hn, hp, v, hv, hmem⟩
  · rintro (hw | ⟨n, hn, hp, v, hv, hmem⟩)
    · exact ⟨l, h.option_iff.mpr (Or.inl ⟨hw, rfl⟩)⟩
    · exact ⟨_, h.option_iff.mpr (Or.inr ⟨n, hn, hp, v, hv, hmem, rfl⟩)⟩

theorem Implements.options_isSome (h : Implements c f) :
    (∃ l', c.options devs ts l = some l') ↔ ∀ t ∈ ts, f.Takes devs.cnt t := by
  induction ts generalizing l with
  | nil => exact iff_of_true ⟨l, rfl⟩ (List.forall_mem_nil _)
  | cons t ts ih =>
    rw [List.forall_mem_cons, ← h.takes_iff l, Command.options]
    cases hopt : c.option devs t l with
    | none => simp
    | some u =>
      rw [← ih (l := u)]
      exact (and_iff_right ⟨u, rfl⟩).symm

/-- The locals hold the number of the last token of each option. -/
def Holding (f : Form) (p : List CString) (l : Locals) : Prop :=
  ∀ n ∈ f.names, ∀ t v, lastToken n p = some t → optionShort t = some v → numberOf l n = v

theorem lastToken_concat_of {n : CString} (h : n <+: t) : lastToken n (p ++ [t]) = some t := by
  have hp : n.isPrefixOf t = true := List.isPrefixOf_iff_prefix.mpr h
  rw [lastToken, List.filter_append, List.filter_cons_of_pos hp, List.filter_nil,
    List.getLast?_concat]

theorem lastToken_concat_not {n : CString} (h : ¬ n <+: t) :
    lastToken n (p ++ [t]) = lastToken n p := by
  have hp : ¬ n.isPrefixOf t = true := fun hp => h (List.isPrefixOf_iff_prefix.mp hp)
  rw [lastToken, List.filter_append, List.filter_cons_of_neg hp, List.filter_nil,
    List.append_nil, lastToken]

theorem lastToken_mem {n : CString} (h : lastToken n ts = some t) : t ∈ ts ∧ n <+: t := by
  have hmem := List.mem_filter.mp (List.mem_of_getLast? h)
  exact ⟨hmem.1, List.isPrefixOf_iff_prefix.mp hmem.2⟩

theorem Implements.holding_step (h : Implements c f) (hl : c.option devs t l = some l')
    (hp : Holding f p l) : Holding f (p ++ [t]) l' := by
  intro n hn u v hu hv
  obtain ⟨hw, rfl⟩ | ⟨m, hm, hmt, w, hw, -, rfl⟩ := h.option_iff.mp hl
  · rw [lastToken_concat_not (h.apart t hw n hn)] at hu
    exact hp n hn u v hu hv
  · rw [numberOf_setNumber (h.known m hm) (h.known n hn)]
    by_cases hnm : n = m
    · subst hnm
      rw [lastToken_concat_of hmt] at hu
      cases hu
      rw [if_pos rfl]
      exact Option.some.inj (hw.symm.trans hv)
    · have hnt : ¬ n <+: t := fun hnt => hnm (h.name_unique hn hm hnt hmt)
      rw [lastToken_concat_not hnt] at hu
      rw [if_neg hnm]
      exact hp n hn u v hu hv

theorem Implements.holding (h : Implements c f) (hl : c.options devs ts l = some l') :
    Holding f ts l' := by
  have h0 : Holding f [] l := by
    intro n _ t v ht
    cases ht
  exact (options_iff.mp hl).track (Holding f) (fun _ _ _ _ => h.holding_step) h0

theorem run_calls_iff {cmd : CString} {d : D} {call : BrCall} :
    c.run devs l cmd = .calls d call ↔ ∃ l', c.options devs (tokens ' ' cmd) l = some l' ∧
      deref maxObjects devs l'.devId = some d ∧ call = c.op l' := by
  rw [Command.run]
  cases c.options devs (tokens ' ' cmd) l with
  | none => simp
  | some l' =>
    cases hd : deref maxObjects devs l'.devId with
    | none => simp [hd]
    | some e => simp [hd, eq_comm]

/-- The line has a token for every option of the form. -/
def Form.Complete (f : Form) (ts : List CString) : Prop := ∀ n ∈ f.names, ∃ t ∈ ts, n <+: t

def Form.InRange (f : Form) (ts : List CString) : Prop :=
  ∀ t ∈ ts, (∃ n ∈ f.names, n <+: t) → ∀ v, optionNumber t = some v → -32768 ≤ v ∧ v ≤ 32767

theorem Form.InRange.short_eq (h : f.InRange ts) (ht : t ∈ ts) (hn : ∃ n ∈ f.names, n <+: t) :
    optionShort t = optionNumber t := by
  rw [optionShort, optionNumber]
  apply Option.map_congr
  intro text htext
  have hnum : optionNumber t = some (atoi text) := by
    rw [optionNumber, Option.mem_def.mp htext, Option.map_some]
  obtain ⟨hlow, hup⟩ := h t ht hn (atoi text) hnum
  exact toShort_of_mem hlow (by omega)

theorem optionNumber_isSome : (optionNumber t).isSome ↔ '=' ∈ t := by
  rw [optionNumber, Option.isSome_map, optionValue_isSome]

theorem Implements.accepts_iff (h : Implements c f) (hr : f.InRange ts) (devCnt : Nat) :
    f.Accepts devCnt ts ↔ ∀ t ∈ ts, f.Takes devCnt t := by
  constructor
  · rintro hacc t ht
    obtain hw | ⟨⟨n, hn, hp⟩, heq⟩ := hacc.known t ht
    · exact Or.inl hw
    · obtain ⟨v, hv⟩ := Option.isSome_iff_exists.mp (optionNumber_isSome.mpr heq)
      refine Or.inr ⟨n, hn, hp, v, (hr.short_eq ht ⟨n, hn, hp⟩).trans hv, ?_⟩
      rintro rfl
      exact hacc.devs t ht hp v hv
  · intro htakes
    constructor
    · intro t ht
      obtain hw | ⟨n, hn, hp, v, hv, -⟩ := htakes t ht
      · exact Or.inl hw
      · rw [hr.short_eq ht ⟨n, hn, hp⟩] at hv
        exact Or.inr ⟨⟨n, hn, hp⟩, optionNumber_isSome.mp (by rw [hv]; rfl)⟩
    · intro t ht hdev v hv
      have hdevmem : devName ∈ f.names := List.mem_cons_self
      obtain hw | ⟨n, hn, hp, w, hw, hmem⟩ := htakes t ht
      · exact absurd hdev (h.apart t hw devName hdevmem)
      · rw [hr.short_eq ht ⟨n, hn, hp⟩, hv] at hw
        cases hw
        exact hmem (h.name_unique hn hdevmem hp hdev)

theorem Implements.last_eq (h : Implements c f) (hr : f.InRange ts) (hreq : f.Complete ts)
    (hl : c.options devs ts l = some l') {n : CString} (hn : n ∈ f.names) :
    lastNumber n ts = some (numberOf l' n) := by
  obtain ⟨u, hu, hnu⟩ := hreq n hn
  have hne : (ts.filter fun t => n.isPrefixOf t) ≠ [] :=
    List.ne_nil_of_mem (List.mem_filter.mpr ⟨hu, List.isPrefixOf_iff_prefix.mpr hnu⟩)
  have hlast : lastToken n ts = some _ := List.getLast?_eq_some_getLast hne
  obtain ⟨ht, hp⟩ := lastToken_mem hlast
  obtain hw | ⟨m, hm, hmt, v, hv, -⟩ := h.options_isSome.mp ⟨l', hl⟩ _ ht
  · exact absurd hp (h.apart _ hw n hn)
  · rw [lastNumber, hlast, Option.bind_some, ← hr.short_eq ht ⟨n, hn, hp⟩, hv,
      h.holding hl n hn _ v hlast hv]

theorem Implements.run_grammar (h : Implements c f) (hf : Filled maxObjects devs) (l : Locals)
    {cmd : CString} (hreq : f.Complete (tokens ' ' cmd)) (hr : f.InRange (tokens ' ' cmd)) :
    ((∃ d call, c.run devs l cmd = .calls d call) ↔ f.Accepts devs.cnt (tokens ' ' cmd)) ∧
      ∀ d call, c.run devs l cmd = .calls d call →
        ∃ v : CString → Int, (∀ n ∈ f.names, lastNumber n (tokens ' ' cmd) = some (v n)) ∧
          deref maxObjects devs (v devName) = some d ∧ call = f.op v := by
  have hdevmem : devName ∈ f.names := List.mem_cons_self
  constructor
  · rw [h.accepts_iff hr, ← h.options_isSome (l := l)]
    constructor
    · rintro ⟨d, call, hcall⟩
      obtain ⟨l', hl, -⟩ := run_calls_iff.mp hcall
      exact ⟨l', hl⟩
    · rintro ⟨l', hl⟩
      have hlast := h.last_eq hr hreq hl hdevmem
      rw [lastNumber, Option.bind_eq_some_iff] at hlast
      obtain ⟨t, ht, hv⟩ := hlast
      obtain ⟨hmem, hp⟩ := lastToken_mem ht
      have hacc := (h.accepts_iff hr devs.cnt).mpr (h.options_isSome.mp ⟨l', hl⟩)
      have hdev := (hf.deref_isSome _).mpr (hacc.devs t hmem hp _ hv)
      obtain ⟨d, hd⟩ := Option.isSome_iff_exists.mp hdev
      exact ⟨d, c.op l', run_calls_iff.mpr ⟨l', hl, hd, rfl⟩⟩
  · intro d call hcall
    obtain ⟨l', hl, hd, rfl⟩ := run_calls_iff.mp hcall
    exact ⟨numberOf l', fun n hn => h.last_eq hr hreq hl hn, hd, h.op l'⟩

theorem word_apart {w : CString} {ns : List CString}
    (hw : ∀ n ∈ ns, ¬ n <+: w ∧ ¬ w <+: n) (h : w <+: t) : ∀ n ∈ ns, ¬ n <+: t := by
  intro n hn hp
  obtain hpre | hpre := List.prefix_or_prefix_of_prefix hp h
  · exact (hw n hn).1 hpre
  · exact (hw n hn).2 hpre

theorem strncmpEq_whole {w : CString} {n : Nat} (h : w.length < n) :
    strncmpEq t w n = true ↔ t = w := by
  rw [strncmpEq, beq_iff_eq, List.take_of_length_le (Nat.le_of_lt h)]
  constructor
  · intro heq
    have hlen := congrArg List.length heq
    rw [List.length_take] at hlen
    rwa [List.take_of_length_le (by omega)] at heq
  · rintro rfl
    exact List.take_of_length_le (Nat.le_of_lt h)

theorem addBr_implements : Implements addBr addBrForm where
  word _ := strncmpEq_whole (by decide)
  opts := rfl
  apart t hw := by
    obtain rfl : t = "add-br".toList := hw
    decide
  free := by decide
  known := by decide
  store o ho := by
    rw [List.mem_singleton.mp ho]
    exact fun _ _ => rfl
  op _ := rfl

theorem delBr_implements : Implements delBr delBrForm where
  word _ := strncmpEq_whole (by decide)
  opts := rfl
  apart t hw := by
    obtain rfl : t = "del-br".toList := hw
    decide
  free := by decide
  known := by decide
  store o ho := by
    rw [List.mem_singleton.mp ho]
    exact fun _ _ => rfl
  op _ := rfl

theorem addBrIf_implements : Implements addBrIf addBrIfForm where
  word _ := strncmpEq_iff_starts
  opts := rfl
  apart t hw := by
    have hp : "add-br-if".toList <+: t := hw
    exact word_apart (by decide) hp
  free := by decide
  known := by decide
  store o ho := by obtain rfl | rfl := List.mem_pair.mp ho <;> exact fun _ _ => rfl
  op _ := rfl

theorem delBrIf_implements : Implements delBrIf delBrIfForm where
  word _ := strncmpEq_iff_starts
  opts := rfl
  apart t hw := by
    have hp : "del-br-if".toList <+: t := hw
    exact word_apart (by decide) hp
  free := by decide
  known := by decide
  store o ho := by obtain rfl | rfl := List.mem_pair.mp ho <;> exact fun _ _ => rfl
  op _ := rfl

theorem setAge_implements : Implements setAge setAgeForm where
  word _ := strncmpEq_iff_starts
  opts := rfl
  apart t hw := by
    have hp : "set-age".toList <+: t := hw
    exact word_apart (by decide) hp
  free := by decide
  known := by decide
  store o ho := by obtain rfl | rfl := List.mem_pair.mp ho <;> exact fun _ _ => rfl
  op _ := rfl

theorem cliCmd_routed {cmd : CString} (hg : formOf cmd = some f) (devs : Table D) :
    ∃ c, Implements c f ∧ ∀ l, cliCmd devs l cmd = Command.run c devs l cmd := by
  simp only [formOf, List.isPrefixOf_iff_prefix] at hg
  split at hg
  · next h =>
    obtain ⟨r, rfl⟩ := h
    cases hg
    exact ⟨addBrIf, addBrIf_implements, fun _ => rfl⟩
  split at hg
  · next h =>
    obtain ⟨r, rfl⟩ := h
    cases hg
    exact ⟨delBrIf, delBrIf_implements, fun _ => rfl⟩
  split at hg
  · next hno _ h =>
    cases hg
    have hif : strncmpEq cmd "add-br-if".toList 9 = false := by
      rw [Bool.eq_false_iff, ne_eq]
      exact fun heq => hno (strncmpEq_iff_starts.mp heq)
    obtain ⟨r, rfl⟩ := h
    refine ⟨addBr, addBr_implements, fun l => ?_⟩
    rw [cliCmd, hif]
    rfl
  split at hg
  · next _ hno _ h =>
    cases hg
    have hif : strncmpEq cmd "del-br-if".toList 9 = false := by
      rw [Bool.eq_false_iff, ne_eq]
      exact fun heq => hno (strncmpEq_iff_starts.mp heq)
    obtain ⟨r, rfl⟩ := h
    refine ⟨delBr, delBr_implements, fun l => ?_⟩
    rw [cliCmd, hif]
    rfl
  split at hg
  · next h =>
    obtain ⟨r, rfl⟩ := h
    cases hg
    exact ⟨setAge, setAge_implements, fun _ => rfl⟩
  · cases hg

/-- A complete line of one of the five commands calls a device operation exactly when it is of
the command's form, and then the one it names, with the last numbers it gives. -/
theorem cliCmd_grammar {cmd : CString} (hf : Filled maxObjects devs) (l : Locals)
    (hg : formOf cmd = some f) (hreq : f.Complete (tokens ' ' cmd))
    (hr : f.InRange (tokens ' ' cmd)) :
    ((∃ d call, cliCmd devs l cmd = .calls d call) ↔ f.Accepts devs.cnt (tokens ' ' cmd)) ∧
      ∀ d call, cliCmd devs l cmd = .calls d call →
        ∃ v : CString → Int, (∀ n ∈ f.names, lastNumber n (tokens ' ' cmd) = some (v n)) ∧
          deref maxObjects devs (v devName) = some d ∧ call = f.op v := by
  obtain ⟨c, hc, hrun⟩ := cliCmd_routed hg devs
  rw [hrun]
  exact hc.run_grammar hf l hreq hr

def addBrIfLine : CString := "add-br-if dev=0 br-id=2 if-id=3 br-id=4".toList

def zeroLocals : Locals := ⟨0, 0, 0, 0⟩

theorem addBrIfLine_inRange : addBrIfForm.InRange (tokens ' ' addBrIfLine) := by
  intro t ht _ v hv
  have hmem : t ∈ ["add-br-if".toList, "dev=0".toList, "br-id=2".toList, "if-id=3".toList,
      "br-id=4".toList] := ht
  simp only [List.mem_cons, List.not_mem_nil, or_false] at hmem
  obtain rfl | rfl | rfl | rfl | rfl := hmem <;> cases hv <;> decide

theorem addBrIfLine_grammar :
    ((∃ d call, cliCmd (ofList [()]) zeroLocals addBrIfLine = .calls d call) ↔
      addBrIfForm.Accepts 1 (tokens ' ' addBrIfLine)) ∧
    ∀ d call, cliCmd (ofList [()]) zeroLocals addBrIfLine = .calls d call →
      ∃ v : CString → Int,
        (∀ n ∈ addBrIfForm.names, lastNumber n (tokens ' ' addBrIfLine) = some (v n)) ∧
        deref maxObjects (ofList [()]) (v devName) = some d ∧ call = addBrIfForm.op v :=
  cliCmd_grammar (filled_ofList (show [()].length ≤ 256 by decide)) zeroLocals rfl
    (show ∀ n ∈ addBrIfForm.names, ∃ t ∈ tokens ' ' addBrIfLine, n <+: t by decide)
    addBrIfLine_inRange

end LibSwitch.BridgeGrammar

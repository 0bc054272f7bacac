import Mathlib.Data.List.Basic

namespace LibSwitch.CText

/-- A C string without its terminating null. -/
abbrev CString := List Char

/-- `strncmp(s, lit, n) == 0`: a literal shorter than `n` must be met up to its end. -/
def strncmpEq (s lit : CString) (n : Nat) : Bool := s.take n == lit.take n

/-- The part of the string from the first occurrence of the pattern on. -/
def strstr (pat : CString) : CString → Option CString
  | [] => if pat.isEmpty then some [] else none
  | c :: s => if pat.isPrefixOf (c :: s) then some (c :: s) else strstr pat s

/-- What successive calls of `strsep` with a single delimiter return: the stretches between
the delimiters, empty ones included. -/
def tokens (delim : Char) : CString → List CString
  | [] => [[]]
  | c :: s =>
    if c = delim then [] :: tokens delim s
    else
      match tokens delim s with
      | [] => [[c]]
      | t :: ts => (c :: t) :: ts

def join (delim : Char) : List CString → CString
  | [] => []
  | [t] => t
  | t :: u :: ts => t ++ delim :: join delim (u :: ts)

theorem strncmpEq_iff_take {s lit : CString} {n : Nat} (h : n ≤ lit.length) :
    strncmpEq s lit n = true ↔ lit.take n <+: s := by
  rw [strncmpEq, beq_iff_eq, List.prefix_iff_eq_take, List.length_take_of_le h]
  exact eq_comm

theorem strncmpEq_iff_starts {s lit : CString} :
    strncmpEq s lit lit.length = true ↔ lit <+: s := by
  rw [strncmpEq_iff_take (Nat.le_refl _), List.take_length]

theorem tokens_of_notMem {delim : Char} {s : CString} (h : delim ∉ s) : tokens delim s = [s] := by
  induction s with
  | nil => rfl
  | cons c s ih =>
    rw [List.mem_cons, not_or] at h
    rw [tokens, if_neg (Ne.symm h.1), ih h.2]

theorem tokens_ne_nil (delim : Char) (s : CString) : tokens delim s ≠ [] := by
  induction s with
  | nil => exact List.cons_ne_nil _ _
  | cons c s ih =>
    rw [tokens]
    split
    · exact List.cons_ne_nil _ _
    · split
      · exact List.cons_ne_nil _ _
      · exact List.cons_ne_nil _ _

theorem tokens_eq_concat (delim : Char) (s : CString) : ∃ ts t, tokens delim s = ts ++ [t] :=
  (List.eq_nil_or_concat' _).resolve_left (tokens_ne_nil delim s)

theorem notMem_tokens {delim : Char} {s t : CString} (ht : t ∈ tokens delim s) : delim ∉ t := by
  induction s generalizing t with
  | nil =>
    rw [tokens, List.mem_singleton] at ht
    rw [ht]
    exact List.not_mem_nil
  | cons c s ih =>
    rw [tokens] at ht
    split at ht
    · rw [List.mem_cons] at ht
      obtain rfl | ht := ht
      · exact List.not_mem_nil
      · exact ih ht
    · next hc =>
      split at ht
      · next hnil => exact absurd hnil (tokens_ne_nil delim s)
      · next u us hcons =>
        rw [hcons] at ih
        rw [List.mem_cons] at ht
        obtain rfl | ht := ht
        · rw [List.mem_cons, not_or]
          exact ⟨Ne.symm hc, ih List.mem_cons_self⟩
        · exact ih (List.mem_cons_of_mem u ht)

theorem tokens_append {delim : Char} {t : CString} (h : delim ∉ t) (s : CString) :
    tokens delim (t ++ delim :: s) = t :: tokens delim s := by
  induction t with
  | nil => rw [List.nil_append, tokens, if_pos rfl]
  | cons c t ih =>
    rw [List.mem_cons, not_or] at h
    rw [List.cons_append, tokens, if_neg (Ne.symm h.1), ih h.2]

theorem tokens_join {delim : Char} {ts : List CString} (hne : ts ≠ [])
    (h : ∀ t ∈ ts, delim ∉ t) : tokens delim (join delim ts) = ts := by
  induction ts with
  | nil => exact absurd rfl hne
  | cons t ts ih =>
    cases ts with
    | nil => exact tokens_of_notMem (h t (by simp))
    | cons u ts =>
      rw [join, tokens_append (h t (by simp)), ih (by simp) fun v hv => h v (by simp [hv])]

theorem notMem_join {delim c : Char} (hc : c ≠ delim) {ts : List CString}
    (h : ∀ t ∈ ts, c ∉ t) : c ∉ join delim ts := by
  induction ts with
  | nil => exact List.not_mem_nil
  | cons t ts ih =>
    rw [List.forall_mem_cons] at h
    cases ts with
    | nil => exact h.1
    | cons u ts =>
      rw [join, List.mem_append, List.mem_cons, not_or, not_or]
      exact ⟨h.1, hc, ih h.2⟩

/-- `strstr(option, "=")` and the step past it: what an option assigns, if anything. -/
def optionValue (s : CString) : Option CString := (strstr ['='] s).map fun r => r.drop 1

theorem optionValue_isSome {s : CString} : (optionValue s).isSome ↔ '=' ∈ s := by
  induction s with
  | nil => simp [optionValue, strstr]
  | cons c s ih =>
    rw [optionValue, Option.isSome_map] at ih ⊢
    rw [strstr]
    by_cases hc : c = '='
    · simp [hc, List.isPrefixOf]
    · have hp : List.isPrefixOf ['='] (c :: s) = false := by
        simp [List.isPrefixOf, Ne.symm hc]
      rw [hp, if_neg Bool.false_ne_true, ih]
      simp [Ne.symm hc]

theorem optionValue_append {name : CString} (h : '=' ∉ name) (v : CString) :
    optionValue (name ++ '=' :: v) = some v := by
  induction name with
  | nil => simp [optionValue, strstr, List.isPrefixOf]
  | cons c s ih =>
    rw [List.mem_cons, not_or] at h
    have hp : List.isPrefixOf ['='] (c :: (s ++ '=' :: v)) = false := by
      simp [List.isPrefixOf, h.1]
    rw [List.cons_append, optionValue, strstr, hp, if_neg Bool.false_ne_true]
    exact ih h.2

def assign (name v : CString) : CString := name ++ '=' :: v

theorem prefix_assign (name v : CString) : name <+: assign name v := List.prefix_append name _

theorem strncmpEq_assign (name v : CString) :
    strncmpEq (assign name v) name name.length = true :=
  strncmpEq_iff_starts.mpr (prefix_assign name v)

theorem notMem_assign {c : Char} {name v : CString} (hn : c ∉ name) (he : c ≠ '=')
    (hv : c ∉ v) : c ∉ assign name v := by
  rw [assign, List.mem_append, List.mem_cons, not_or, not_or]
  exact ⟨hn, he, hv⟩

end LibSwitch.CText

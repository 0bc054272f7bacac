import Mathlib.Data.Nat.Digits.Defs
import Mathlib.Tactic.Common
import LibSwitch.ByteOrder
import LibSwitch.CText

namespace LibSwitch.Numeral

open LibSwitch.ByteOrder LibSwitch.CText

def isSpace (c : Char) : Bool :=
  c == ' ' || c == '\t' || c == '\n' || c == '\x0b' || c == '\x0c' || c == '\r'

def digitVal (c : Char) : Option Nat :=
  if '0' ≤ c ∧ c ≤ '9' then some (c.toNat - 48)
  else if 'a' ≤ c ∧ c ≤ 'z' then some (c.toNat - 87)
  else if 'A' ≤ c ∧ c ≤ 'Z' then some (c.toNat - 55)
  else none

def digit? (base : Nat) (c : Char) : Option Nat := (digitVal c).filter fun d => d < base

/-- The number read from the longest run of digits at the front of a string. -/
def scan (base : Nat) : Nat → CString → Nat
  | acc, [] => acc
  | acc, c :: s =>
    match digit? base c with
    | none => acc
    | some d => scan base (acc * base + d) s

def dropHexPrefix : CString → CString
  | '0' :: 'x' :: s => s
  | '0' :: 'X' :: s => s
  | s => s

def magnitude (base : Nat) (s : CString) : Nat :=
  scan base 0 (if base = 16 then dropHexPrefix s else s)

/-- A 64-bit `long` saturates. -/
def clampLong (v : Int) : Int := max (-9223372036854775808) (min v 9223372036854775807)

def strtol (base : Nat) (s : CString) : Int :=
  match s.dropWhile isSpace with
  | '-' :: t => clampLong (-magnitude base t)
  | '+' :: t => clampLong (magnitude base t)
  | t => clampLong (magnitude base t)

def atoi (s : CString) : Int := toInt (strtol 10 s)

/-- The number an option assigns, `(short)(atoi(val+1))` where `val` is its first `=`. -/
def optionShort (option : CString) : Option Int :=
  (optionValue option).map fun v => toShort (atoi v)

def value (base : Nat) : Nat → CString → Option Nat
  | acc, [] => some acc
  | acc, c :: s =>
    match digit? base c with
    | none => none
    | some d => value base (acc * base + d) s

/-- The string writes the number in the given base, with any number of leading zeros. -/
structure Spells (base : Nat) (s : CString) (n : Nat) : Prop where
  nonempty : s ≠ []
  value_eq : value base 0 s = some n

inductive SpellsInt : CString → Int → Prop
  | nonneg {s : CString} {n : Nat} (h : Spells 10 s n) : SpellsInt s n
  | neg {s : CString} {n : Nat} (h : Spells 10 s n) : SpellsInt ('-' :: s) (-n)

def decimal (v : Int) : CString :=
  if v < 0 then '-' :: Nat.toDigits 10 v.natAbs else Nat.toDigits 10 v.natAbs

theorem digitVal_digitChar : ∀ d < 16, digitVal (Nat.digitChar d) = some d := by decide

theorem digit?_digitChar {base d : Nat} (hd : d < base) (hb : base ≤ 16) :
    digit? base (Nat.digitChar d) = some d := by
  rw [digit?, digitVal_digitChar d (Nat.lt_of_lt_of_le hd hb)]
  simpa using hd

theorem digit?_eq_none {base : Nat} {c : Char} (h : digitVal c = none) :
    digit? base c = none := by
  rw [digit?, h]
  rfl

theorem value_append (base acc : Nat) (s t : CString) :
    value base acc (s ++ t) = (value base acc s).bind fun n => value base n t := by
  induction s generalizing acc with
  | nil => rfl
  | cons c s ih =>
    rw [List.cons_append, value, value]
    cases digit? base c with
    | none => rfl
    | some d => exact ih _

theorem scan_of_value {base acc n : Nat} {s : CString} (h : value base acc s = some n) :
    scan base acc s = n := by
  induction s generalizing acc with
  | nil => exact Option.some.inj h
  | cons c s ih =>
    rw [value] at h
    rw [scan]
    cases hd : digit? base c with
    | none =>
      rw [hd] at h
      cases h
    | some d =>
      rw [hd] at h
      exact ih h

theorem digit?_of_mem {base acc n : Nat} {s : CString} (h : value base acc s = some n) {c : Char}
    (hc : c ∈ s) : ∃ d, digit? base c = some d := by
  induction s generalizing acc with
  | nil => cases hc
  | cons b s ih =>
    rw [value] at h
    cases hd : digit? base b with
    | none =>
      rw [hd] at h
      cases h
    | some d =>
      rw [hd] at h
      cases hc with
      | head => exact ⟨d, hd⟩
      | tail _ hc => exact ih h hc

theorem Spells.notMem {base n : Nat} {s : CString} (h : Spells base s n) {c : Char}
    (hc : digit? base c = none) : c ∉ s := by
  intro hmem
  obtain ⟨d, hd⟩ := digit?_of_mem h.value_eq hmem
  rw [hc] at hd
  cases hd

theorem Spells.noSpace {base n : Nat} {s : CString} (h : Spells base s n) : ' ' ∉ s :=
  h.notMem (digit?_eq_none rfl)

theorem spells_toDigits {base : Nat} (h1 : 1 < base) (h16 : base ≤ 16) (n : Nat) :
    Spells base (Nat.toDigits base n) n := by
  refine ⟨Nat.toDigits_ne_nil, ?_⟩
  induction n using Nat.strong_induction_on with
  | _ n ih =>
    rw [Nat.toDigits_eq_if h1]
    by_cases hn : n < base
    · rw [if_pos hn, value, digit?_digitChar hn h16]
      simp [value]
    · rw [if_neg hn, value_append, ih (n / base) (Nat.div_lt_self (by omega) h1)]
      rw [Option.bind_some, value, digit?_digitChar (Nat.mod_lt n (by omega)) h16]
      simp only [value, Nat.mul_comm, Nat.div_add_mod]

theorem spellsInt_decimal (v : Int) : SpellsInt (decimal v) v := by
  have hd := spells_toDigits (show 1 < 10 by decide) (by decide) v.natAbs
  rw [decimal]
  by_cases hv : v < 0
  · rw [if_pos hv]
    have hn : -(v.natAbs : Int) = v := by omega
    have hs := SpellsInt.neg hd
    rwa [hn] at hs
  · rw [if_neg hv]
    have hn : (v.natAbs : Int) = v := by omega
    have hs := SpellsInt.nonneg hd
    rwa [hn] at hs

theorem clampLong_of_mem {v : Int} (hl : -9223372036854775808 ≤ v)
    (hu : v ≤ 9223372036854775807) : clampLong v = v := by
  rw [clampLong]
  omega

theorem digitVal_isSpace {c : Char} (h : isSpace c = true) : digitVal c = none := by
  simp only [isSpace, Bool.or_eq_true, beq_iff_eq] at h
  obtain ((((rfl | rfl) | rfl) | rfl) | rfl) | rfl := h <;> decide

theorem Spells.head {base n : Nat} {s : CString} (h : Spells base s n) :
    ∃ c t, s = c :: t ∧ isSpace c = false ∧ c ≠ '-' ∧ c ≠ '+' := by
  cases s with
  | nil => exact absurd rfl h.nonempty
  | cons c t =>
    have hc (b : Char) (hb : digitVal b = none) : c ≠ b := by
      rintro rfl
      exact h.notMem (digit?_eq_none hb) List.mem_cons_self
    refine ⟨c, t, rfl, ?_, hc '-' (by decide), hc '+' (by decide)⟩
    by_contra hs
    rw [Bool.not_eq_false] at hs
    exact h.notMem (digit?_eq_none (digitVal_isSpace hs)) List.mem_cons_self

theorem strtol_unsigned (base : Nat) {c : Char} {t : CString} (hs : isSpace c = false)
    (hm : c ≠ '-') (hp : c ≠ '+') :
    strtol base (c :: t) = clampLong (magnitude base (c :: t)) := by
  rw [strtol, List.dropWhile_cons_of_neg (by rw [hs]; exact Bool.false_ne_true)]
  split
  · next heq => exact absurd (List.cons.inj heq).1 hm
  · next heq => exact absurd (List.cons.inj heq).1 hp
  · rfl

theorem dropHexPrefix_of_notMem {s : CString} (hl : 'x' ∉ s) (hu : 'X' ∉ s) :
    dropHexPrefix s = s := by
  unfold dropHexPrefix
  split
  · exact absurd (by simp) hl
  · exact absurd (by simp) hu
  · rfl

theorem magnitude_spells {base n : Nat} {s : CString} (h : Spells base s n) (h16 : base ≤ 16) :
    magnitude base s = n := by
  have hx (c : Char) (d : Nat) (hc : digitVal c = some d) (hd : 16 ≤ d) : c ∉ s := by
    apply h.notMem
    rw [digit?, hc, Option.filter_some_eq_none]
    simpa using Nat.le_trans h16 hd
  have hprefix := dropHexPrefix_of_notMem (hx 'x' 33 rfl (by decide)) (hx 'X' 33 rfl (by decide))
  rw [magnitude, hprefix, ite_self]
  exact scan_of_value h.value_eq

theorem strtol_spells {base n : Nat} {s : CString} (h : Spells base s n) (h16 : base ≤ 16)
    (hn : n ≤ 9223372036854775807) : strtol base s = n := by
  obtain ⟨c, t, rfl, hs, hm, hp⟩ := h.head
  rw [strtol_unsigned base hs hm hp, magnitude_spells h h16, clampLong_of_mem (by omega) (by omega)]

theorem strtol_hexPrefix {n : Nat} {s : CString} (h : Spells 16 s n)
    (hn : n ≤ 9223372036854775807) : strtol 16 ('0' :: 'x' :: s) = n := by
  rw [strtol_unsigned 16 (by decide) (by decide) (by decide)]
  change clampLong (scan 16 0 s) = n
  rw [scan_of_value h.value_eq, clampLong_of_mem (by omega) (by omega)]

theorem atoi_spells {s : CString} {v : Int} (h : SpellsInt s v) (hl : -2147483648 ≤ v)
    (hu : v < 2147483648) : atoi s = v := by
  cases h with
  | nonneg h => rw [atoi, strtol_spells h (by decide) (by omega), toInt_of_mem hl hu]
  | neg h =>
    have hd := magnitude_spells h (by decide)
    rw [atoi]
    change toInt (clampLong (-magnitude 10 _)) = _
    rw [hd, clampLong_of_mem (by omega) (by omega), toInt_of_mem hl hu]

theorem scan_append {base acc n : Nat} {s : CString} (h : value base acc s = some n) {c : Char}
    (hc : digit? base c = none) (t : CString) : scan base acc (s ++ c :: t) = n := by
  induction s generalizing acc with
  | nil =>
    rw [List.nil_append, scan, hc]
    exact Option.some.inj h
  | cons b s ih =>
    rw [value] at h
    rw [List.cons_append, scan]
    cases hd : digit? base b with
    | none =>
      rw [hd] at h
      cases h
    | some d =>
      rw [hd] at h
      exact ih h

theorem atoi_append {s : CString} {n : Nat} (h : Spells 10 s n) (hn : n < 2147483648) {c : Char}
    (hc : digit? 10 c = none) (t : CString) : atoi (s ++ c :: t) = n := by
  have hscan : magnitude 10 (s ++ c :: t) = n := scan_append h.value_eq hc t
  obtain ⟨b, s', rfl, hs, hm, hp⟩ := h.head
  rw [List.cons_append] at hscan ⊢
  rw [atoi, strtol_unsigned 10 hs hm hp, hscan, clampLong_of_mem (by omega) (by omega),
    toInt_of_mem (by omega) (by omega)]

theorem SpellsInt.notMem {s : CString} {v : Int} (h : SpellsInt s v) {c : Char}
    (hc : digitVal c = none) (hm : c ≠ '-') : c ∉ s := by
  cases h with
  | nonneg h => exact h.notMem (digit?_eq_none hc)
  | neg h =>
    rw [List.mem_cons, not_or]
    exact ⟨hm, h.notMem (digit?_eq_none hc)⟩

theorem optionShort_assign {name t : CString} (hn : '=' ∉ name) {v : Int} (ht : SpellsInt t v)
    (hl : -32768 ≤ v) (hu : v < 32768) : optionShort (assign name t) = some v := by
  rw [optionShort, assign, optionValue_append hn, Option.map_some,
    atoi_spells ht (by omega) (by omega), toShort_of_mem hl hu]

end LibSwitch.Numeral

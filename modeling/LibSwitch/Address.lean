import LibSwitch.ByteBuffer
import LibSwitch.Numeral

namespace LibSwitch.Address

open LibSwitch.ByteBuffer LibSwitch.CText LibSwitch.Numeral

def consByte {n : Nat} (b : UInt8) (v : Buffer n) : Buffer (n + 1) :=
  ⟨b :: v.bytes, by rw [List.length_cons, v.length_eq]⟩

/-- An octet of a MAC address ends after its first digit before a colon, the last one at the
end of the string or before white space. -/
def octetEnds (last : Bool) : CString → Bool
  | [] => last
  | c :: _ => if last then isSpace c else c == ':'

/-- One octet and what follows the character behind it. What stands behind two digits of the
last octet is not looked at. -/
def octet (last : Bool) : CString → Option (Nat × CString)
  | [] => none
  | c :: s =>
    match digit? 16 c with
    | none => none
    | some d =>
      if octetEnds last s then some (d, s.drop 1)
      else
        match s with
        | [] => none
        | e :: t =>
          match digit? 16 e with
          | none => none
          | some d' =>
            if last || t.head? == some ':' then some (d * 16 + d', t.drop 1) else none

def octets : (n : Nat) → CString → Option (Buffer n)
  | 0, _ => some (zeros 0)
  | n + 1, s =>
    match octet (n == 0) s with
    | none => none
    | some (b, t) => (octets n t).map (consByte (UInt8.ofNat b))

/-- `ether_aton`, as the C library reads the hex-digits-and-colons notation. -/
def etherAton (s : CString) : Option (Buffer 6) := octets 6 s

/-- The rest of a dotted address behind the octets `done` and the digits, if any, of the
octet under way. -/
def dotted (done : List UInt8) : Option Nat → CString → Option (Buffer 4)
  | none, [] => none
  | some v, [] =>
    if h : done.length = 3 then some ⟨done ++ [UInt8.ofNat v], by simp [h]⟩ else none
  | cur, c :: s =>
    match digit? 10 c with
    | some d =>
      match cur with
      | none => dotted done (some d) s
      | some v => if v = 0 ∨ 255 < v * 10 + d then none else dotted done (some (v * 10 + d)) s
    | none =>
      match cur with
      | none => none
      | some v =>
        if c = '.' ∧ done.length < 3 then dotted (done ++ [UInt8.ofNat v]) none s else none

/-- `inet_pton(AF_INET, ...)`, absent where it does not return 1 and stores nothing. -/
def inetPton (s : CString) : Option (Buffer 4) := dotted [] none s

structure OctetText (t : CString) (b : UInt8) : Prop where
  spells : Spells 16 t b.toNat
  length_le : t.length ≤ 2

inductive MacText : List CString → List UInt8 → Prop
  | nil : MacText [] []
  | cons {t : CString} {b : UInt8} {ts : List CString} {bs : List UInt8} :
      OctetText t b → MacText ts bs → MacText (t :: ts) (b :: bs)

theorem OctetText.digits {t : CString} {b : UInt8} (h : OctetText t b) :
    (∃ c d, t = [c] ∧ digit? 16 c = some d ∧ UInt8.ofNat d = b) ∨
      ∃ c d e d', t = [c, e] ∧ digit? 16 c = some d ∧ digit? 16 e = some d' ∧
        UInt8.ofNat (d * 16 + d') = b := by
  obtain ⟨⟨hne, hv⟩, hlen⟩ := h
  cases t with
  | nil => exact absurd rfl hne
  | cons c t =>
    obtain ⟨d, hd⟩ := digit?_of_mem hv List.mem_cons_self
    rw [value, hd] at hv
    cases t with
    | nil =>
      have hb := Option.some.inj hv
      refine Or.inl ⟨c, d, rfl, hd, ?_⟩
      rw [← UInt8.ofNat_toNat (x := b), ← hb, Nat.zero_mul, Nat.zero_add]
    | cons e t =>
      obtain rfl : t = [] := by
        apply List.length_eq_zero_iff.mp
        simp only [List.length_cons] at hlen
        omega
      obtain ⟨d', hd'⟩ := digit?_of_mem hv List.mem_cons_self
      simp only [value, hd'] at hv
      have hb := Option.some.inj hv
      refine Or.inr ⟨c, d, e, d', rfl, hd, hd', ?_⟩
      rw [← UInt8.ofNat_toNat (x := b), ← hb, Nat.zero_mul, Nat.zero_add]

theorem octetEnds_digit {last : Bool} {c : Char} {d : Nat} (hd : digit? 16 c = some d)
    (s : CString) : octetEnds last (c :: s) = false := by
  cases last with
  | true =>
    change isSpace c = false
    by_contra hs
    rw [Bool.not_eq_false] at hs
    rw [digit?_eq_none (digitVal_isSpace hs)] at hd
    cases hd
  | false =>
    change (c == ':') = false
    rw [beq_eq_false_iff_ne]
    rintro rfl
    cases hd

theorem octet_colon {t : CString} {b : UInt8} (h : OctetText t b) (s : CString) :
    ∃ n, octet false (t ++ ':' :: s) = some (n, s) ∧ UInt8.ofNat n = b := by
  obtain ⟨c, d, rfl, hd, hb⟩ | ⟨c, d, e, d', rfl, hd, hd', hb⟩ := h.digits
  · refine ⟨d, ?_, hb⟩
    rw [List.singleton_append, octet, hd]
    rfl
  · refine ⟨d * 16 + d', ?_, hb⟩
    rw [List.cons_append, List.singleton_append, octet, hd]
    simp only [octetEnds_digit hd', hd']
    rfl

theorem octet_last {t : CString} {b : UInt8} (h : OctetText t b) :
    ∃ n s, octet true t = some (n, s) ∧ UInt8.ofNat n = b := by
  obtain ⟨c, d, rfl, hd, hb⟩ | ⟨c, d, e, d', rfl, hd, hd', hb⟩ := h.digits
  · refine ⟨d, [], ?_, hb⟩
    rw [octet, hd]
    rfl
  · refine ⟨d * 16 + d', [], ?_, hb⟩
    rw [octet, hd]
    simp only [octetEnds_digit hd', hd']
    rfl

theorem octets_succ {n m : Nat} {s t : CString} {v : Buffer n}
    (h : octet (n == 0) s = some (m, t)) (hv : octets n t = some v) :
    octets (n + 1) s = some (consByte (UInt8.ofNat m) v) := by
  rw [octets, h]
  simp only [hv, Option.map_some]

theorem octets_join {ts : List CString} {bs : List UInt8} (h : MacText ts bs) {n : Nat}
    (hn : bs.length = n) : ∃ v : Buffer n, octets n (join ':' ts) = some v ∧ v.bytes = bs := by
  induction h generalizing n with
  | nil =>
    subst hn
    exact ⟨_, rfl, rfl⟩
  | @cons t b ts bs ht hts ih =>
    cases n with
    | zero => cases hn
    | succ n =>
      have hbs : bs.length = n := Nat.succ.inj hn
      obtain ⟨v, hv, hvb⟩ := ih hbs
      cases hts with
      | nil =>
        subst hbs
        obtain ⟨m, s, hm, rfl⟩ := octet_last ht
        exact ⟨consByte (UInt8.ofNat m) (zeros 0), octets_succ hm rfl, rfl⟩
      | @cons u c us cs hu hus =>
        subst hbs
        obtain ⟨m, hm, rfl⟩ := octet_colon ht (join ':' (u :: us))
        exact ⟨consByte (UInt8.ofNat m) v, octets_succ hm hv, congrArg (List.cons _) hvb⟩

theorem etherAton_join {ts : List CString} {mac : Buffer 6} (h : MacText ts mac.bytes) :
    etherAton (join ':' ts) = some mac := by
  obtain ⟨v, hv, hb⟩ := octets_join h mac.length_eq
  rw [etherAton, hv, ext hb]

def dottedText (ip : Buffer 4) : CString :=
  join '.' (ip.bytes.map fun b => Nat.toDigits 10 b.toNat)

theorem dotted_toDigits (done : List UInt8) {n : Nat} (hn : n ≤ 255) (s : CString) :
    dotted done none (Nat.toDigits 10 n ++ s) = dotted done (some n) s := by
  induction n using Nat.strong_induction_on generalizing s with
  | _ n ih =>
    rw [Nat.toDigits_eq_if (by decide)]
    by_cases hlt : n < 10
    · rw [if_pos hlt, List.singleton_append, dotted, digit?_digitChar hlt (by decide)]
    · rw [if_neg hlt, List.append_assoc, ih (n / 10) (by omega) (by omega),
        List.singleton_append, dotted, digit?_digitChar (Nat.mod_lt n (by decide)) (by decide)]
      have hok : ¬ (n / 10 = 0 ∨ 255 < n / 10 * 10 + n % 10) := by omega
      simp only [if_neg hok]
      congr 2
      omega

theorem dotted_octet (done : List UInt8) (b : UInt8) (s : CString) (h : done.length < 3) :
    dotted done none (Nat.toDigits 10 b.toNat ++ '.' :: s) = dotted (done ++ [b]) none s := by
  have hdot : digit? 10 '.' = none := rfl
  rw [dotted_toDigits done (Nat.le_of_lt_succ b.toNat_lt), dotted, hdot]
  simp only [h, and_self, if_true, UInt8.ofNat_toNat]

theorem inetPton_dottedText (ip : Buffer 4) : inetPton (dottedText ip) = some ip := by
  obtain ⟨bytes, hlen⟩ := ip
  match bytes, hlen with
  | [a, b, c, d], _ =>
    have hlast := dotted_toDigits [a, b, c] (Nat.le_of_lt_succ d.toNat_lt) []
    rw [List.append_nil] at hlast
    change dotted [] none (Nat.toDigits 10 a.toNat ++ '.' :: (Nat.toDigits 10 b.toNat ++ '.' ::
      (Nat.toDigits 10 c.toNat ++ '.' :: Nat.toDigits 10 d.toNat))) = _
    rw [dotted_octet [] a _ (by simp), dotted_octet _ b _ (by simp), dotted_octet _ c _ (by simp)]
    change dotted [a, b, c] none _ = _
    rw [hlast]
    simp [dotted]

theorem MacText.noSpace {ts : List CString} {bs : List UInt8} (h : MacText ts bs) :
    ∀ t ∈ ts, ' ' ∉ t := by
  induction h with
  | nil => exact List.forall_mem_nil _
  | cons ht _ ih => exact List.forall_mem_cons.mpr ⟨ht.spells.noSpace, ih⟩

theorem dottedText_noSpace (a : Buffer 4) : ' ' ∉ dottedText a := by
  apply notMem_join (by decide)
  intro t ht
  obtain ⟨b, -, rfl⟩ := List.mem_map.mp ht
  exact (spells_toDigits (by decide) (by decide) b.toNat).noSpace

end LibSwitch.Address

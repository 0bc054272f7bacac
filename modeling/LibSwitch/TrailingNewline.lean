import LibSwitch.Address

namespace LibSwitch.TrailingNewline

open LibSwitch.ByteOrder LibSwitch.ByteBuffer LibSwitch.CText LibSwitch.Numeral LibSwitch.Address

def ended (s : CString) : CString := s ++ ['\n']

theorem ended_cons (c : Char) (s : CString) : ended (c :: s) = c :: ended s := rfl

theorem starts_ended {w : CString} (hw : '\n' ∉ w) (s : CString) : w <+: ended s ↔ w <+: s := by
  rw [ended, List.prefix_concat_iff, or_iff_right]
  rintro rfl
  exact hw (List.mem_append_right s (List.mem_singleton_self _))

theorem strncmpEq_ended {w : CString} {n : Nat} (hw : '\n' ∉ w) (hn : w.length = n)
    (s : CString) : strncmpEq (ended s) w n = strncmpEq s w n := by
  subst hn
  rw [Bool.eq_iff_iff, strncmpEq_iff_starts, strncmpEq_iff_starts]
  exact starts_ended hw s

theorem tokens_ended {s t : CString} {ts : List CString} (h : tokens ' ' s = ts ++ [t]) :
    tokens ' ' (ended s) = ts ++ [ended t] := by
  induction s generalizing ts t with
  | nil =>
    obtain ⟨rfl, h⟩ := List.append_inj' (show [] ++ [[]] = ts ++ [t] from h) rfl
    cases h
    rfl
  | cons c s ih =>
    rw [ended_cons, tokens]
    rw [tokens] at h
    obtain ⟨us, u, hs⟩ := tokens_eq_concat ' ' s
    rw [ih hs]
    rw [hs] at h
    by_cases hc : c = ' '
    · rw [if_pos hc] at h ⊢
      obtain ⟨rfl, ht⟩ := List.append_inj' (show ([] :: us) ++ [u] = ts ++ [t] from h) rfl
      cases ht
      rfl
    · rw [if_neg hc] at h ⊢
      cases us with
      | nil =>
        obtain ⟨rfl, ht⟩ := List.append_inj' (show [] ++ [c :: u] = ts ++ [t] from h) rfl
        cases ht
        rfl
      | cons v us =>
        obtain ⟨rfl, ht⟩ :=
          List.append_inj' (show ((c :: v) :: us) ++ [u] = ts ++ [t] from h) rfl
        cases ht
        rfl

theorem optionValue_ended (t : CString) :
    optionValue (ended t) = (optionValue t).map ended := by
  induction t with
  | nil => rfl
  | cons c t ih =>
    rw [optionValue, optionValue] at ih ⊢
    rw [ended_cons, strstr, strstr]
    by_cases hc : c = '='
    · simp [hc, List.isPrefixOf]
    · have hp (s : CString) : List.isPrefixOf ['='] (c :: s) = false := by
        simp [List.isPrefixOf, Ne.symm hc]
      rw [hp, hp, if_neg Bool.false_ne_true, if_neg Bool.false_ne_true, ih]

theorem digit?_newline (base : Nat) : digit? base '\n' = none := digit?_eq_none rfl

theorem scan_ended (base acc : Nat) (s : CString) : scan base acc (ended s) = scan base acc s := by
  induction s generalizing acc with
  | nil =>
    change scan base acc ['\n'] = acc
    rw [scan, digit?_newline]
  | cons c s ih =>
    rw [ended_cons, scan, scan]
    cases digit? base c with
    | none => rfl
    | some d => exact ih _

theorem dropHexPrefix_ended (s : CString) :
    dropHexPrefix (ended s) = ended (dropHexPrefix s) := by
  match s with
  | [] => rfl
  | [c] =>
    have h₁ : dropHexPrefix [c] = [c] := by
      unfold dropHexPrefix
      split
      · next heq => cases heq
      · next heq => cases heq
      · rfl
    have h₂ : dropHexPrefix [c, '\n'] = [c, '\n'] := by
      unfold dropHexPrefix
      split
      · next heq => cases heq
      · next heq => cases heq
      · rfl
    rw [h₁]
    exact h₂
  | c :: d :: s =>
    unfold dropHexPrefix
    rw [ended_cons, ended_cons]
    split
    · next heq =>
      cases heq
      rfl
    · next heq =>
      cases heq
      rfl
    · next hx hX =>
      split
      · next heq =>
        cases heq
        exact absurd rfl (hx _)
      · next heq =>
        cases heq
        exact absurd rfl (hX _)
      · rfl

theorem magnitude_ended (base : Nat) (s : CString) :
    magnitude base (ended s) = magnitude base s := by
  rw [magnitude, magnitude]
  split
  · rw [dropHexPrefix_ended, scan_ended]
  · rw [scan_ended]

/-- A number ends before the newline, also where there is none. -/
theorem strtol_ended (base : Nat) (s : CString) : strtol base (ended s) = strtol base s := by
  rw [strtol, strtol, ended, List.dropWhile_append]
  cases s.dropWhile isSpace with
  | nil => rfl
  | cons c u =>
    rw [List.isEmpty_cons, if_neg Bool.false_ne_true]
    split
    · next t heq =>
      cases heq
      exact congrArg (fun n : Nat => clampLong (-n)) (magnitude_ended base u)
    · next t heq =>
      cases heq
      exact congrArg (fun n : Nat => clampLong n) (magnitude_ended base u)
    · next hm hp =>
      split
      · next t heq =>
        cases heq
        exact absurd rfl (hm _)
      · next t heq =>
        cases heq
        exact absurd rfl (hp _)
      · exact congrArg (fun n : Nat => clampLong n) (magnitude_ended base (c :: u))

theorem atoi_ended (s : CString) : atoi (ended s) = atoi s := by
  rw [atoi, strtol_ended, atoi]

theorem optionShort_ended (t : CString) : optionShort (ended t) = optionShort t := by
  rw [optionShort, optionValue_ended, Option.map_map, optionShort]
  exact congrArg (Option.map · (optionValue t)) (funext fun v => congrArg toShort (atoi_ended v))

theorem octetEnds_ended (c : Char) (last : Bool) (s : CString) :
    octetEnds last (ended (c :: s)) = octetEnds last (c :: s) := by
  rw [ended_cons, octetEnds, octetEnds]

theorem octet_ended (s : CString) :
    octet false (ended s) = (octet false s).map fun r => (r.1, ended r.2) := by
  cases s with
  | nil => rfl
  | cons c s =>
    rw [ended_cons, octet, octet]
    cases digit? 16 c with
    | none => rfl
    | some d =>
      cases s with
      | nil => rfl
      | cons e t =>
        dsimp only
        rw [octetEnds_ended]
        by_cases hend : octetEnds false (e :: t) = true
        · rw [if_pos hend, if_pos hend]
          rfl
        · rw [if_neg hend, if_neg hend, ended_cons]
          dsimp only
          cases digit? 16 e with
          | none => rfl
          | some d' =>
            cases t with
            | nil => rfl
            | cons b t =>
              rw [ended_cons]
              cases hb : b == ':' with
              | true => simp [hb, ended]
              | false => simp [hb]

theorem octet_last_ended (s : CString) :
    (octet true (ended s)).map Prod.fst = (octet true s).map Prod.fst := by
  cases s with
  | nil => rfl
  | cons c s =>
    rw [ended_cons, octet, octet]
    cases digit? 16 c with
    | none => rfl
    | some d =>
      cases s with
      | nil => rfl
      | cons e t =>
        dsimp only
        rw [octetEnds_ended]
        by_cases hend : octetEnds true (e :: t) = true
        · rw [if_pos hend, if_pos hend]
          rfl
        · rw [if_neg hend, if_neg hend, ended_cons]
          dsimp only
          cases digit? 16 e with
          | none => rfl
          | some d' => rfl

theorem octets_bind (n : Nat) (s : CString) : octets (n + 1) s =
    (octet (n == 0) s).bind fun r => (octets n r.2).map (consByte (UInt8.ofNat r.1)) := by
  rw [octets]
  cases octet (n == 0) s <;> rfl

theorem octets_one (s : CString) : octets 1 s =
    ((octet true s).map Prod.fst).map fun b => consByte (UInt8.ofNat b) (zeros 0) := by
  rw [octets_bind, beq_self_eq_true]
  cases octet true s <;> rfl

theorem octets_ended (n : Nat) (s : CString) : octets (n + 1) (ended s) = octets (n + 1) s := by
  induction n generalizing s with
  | zero => rw [octets_one, octets_one, octet_last_ended]
  | succ n ih =>
    have hfirst : (n + 1 == 0) = false := rfl
    rw [octets_bind, octets_bind, hfirst, octet_ended]
    cases octet false s with
    | none => rfl
    | some r => exact congrArg (Option.map (consByte (UInt8.ofNat r.1))) (ih r.2)

theorem etherAton_ended (s : CString) : etherAton (ended s) = etherAton s := octets_ended 5 s

theorem dotted_ended (done : List UInt8) (cur : Option Nat) (s : CString) :
    dotted done cur (ended s) = none := by
  induction s generalizing done cur with
  | nil => cases cur <;> rfl
  | cons c s ih =>
    rw [ended_cons]
    cases cur with
    | none =>
      rw [dotted]
      cases digit? 10 c with
      | none => rfl
      | some d => exact ih _ _
    | some v =>
      rw [dotted]
      cases digit? 10 c with
      | none =>
        dsimp only
        split
        · exact ih _ _
        · rfl
      | some d =>
        dsimp only
        split
        · rfl
        · exact ih _ _

theorem inetPton_ended (s : CString) : inetPton (ended s) = none := dotted_ended [] none s

end LibSwitch.TrailingNewline

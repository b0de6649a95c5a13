import Mathlib
import WebIdl.Proofs.Lexing.Numerals

/-!
# The longest numeral

The documented patterns of floats and integers as regular expressions, and the lengths that the
scans answer: each is that of the longest prefix in the language of its pattern. The patterns are
first shown to describe the texts that `IsFloat` and `IsInteger` describe, and the languages of
these are then followed along the scans.
-/

namespace WebIdl.Numeral

open Text RegularExpression

/-- `[…]`: one character out of some. -/
def oneOf (cs : List Char) : RegularExpression Char :=
  cs.foldr (fun c r => char c + r) 0

/-- `r?` -/
def optional (r : RegularExpression Char) : RegularExpression Char :=
  1 + r

/-- `r+` -/
def repeated (r : RegularExpression Char) : RegularExpression Char :=
  r * star r

/-- `[0-9]` -/
def digitPattern : RegularExpression Char :=
  oneOf "0123456789".toList

/-- `[Ee][-+]?[0-9]+` -/
def exponentPattern : RegularExpression Char :=
  oneOf ['E', 'e'] * (optional (oneOf ['-', '+']) * repeated digitPattern)

/-- `([0-9]+\.[0-9]*|[0-9]*\.[0-9]+)([Ee][-+]?[0-9]+)?|[0-9]+[Ee][-+]?[0-9]+` -/
def decimalPattern : RegularExpression Char :=
  (repeated digitPattern * (char '.' * star digitPattern) +
      star digitPattern * (char '.' * repeated digitPattern)) * optional exponentPattern +
    repeated digitPattern * exponentPattern

/-- `0([Xx][0-9A-Fa-f]+|[0-7]*)|[1-9][0-9]*` -/
def wholePattern : RegularExpression Char :=
  char '0' * (oneOf ['X', 'x'] * repeated (oneOf "0123456789ABCDEFabcdef".toList) +
      star (oneOf "01234567".toList)) +
    oneOf "123456789".toList * star digitPattern

/-- `-?(([0-9]+\.[0-9]*|[0-9]*\.[0-9]+)([Ee][-+]?[0-9]+)?|[0-9]+[Ee][-+]?[0-9]+)` -/
def floatPattern : RegularExpression Char :=
  optional (char '-') * decimalPattern

/-- `-?(0([Xx][0-9A-Fa-f]+|[0-7]*)|[1-9][0-9]*)` -/
def integerPattern : RegularExpression Char :=
  optional (char '-') * wholePattern

/-- No prefix of the text that is in the language is longer than `n`, and `n` is the length of one
unless it is zero, which says that there is none. -/
structure IsLongest (L : Language Char) (cs : List Char) (n : Nat) : Prop where
  mem : n ≠ 0 → n ≤ cs.length ∧ cs.take n ∈ L
  le : ∀ p ∈ L, p <+: cs → p.length ≤ n
  eq_zero_iff : n = 0 ↔ ∀ p ∈ L, ¬p <+: cs

section Patterns

variable {cs : List Char} {r s : RegularExpression Char}

theorem mem_oneOf {l : List Char} : cs ∈ (oneOf l).matches' ↔ ∃ c ∈ l, cs = [c] := by
  induction l with
  | nil => simp [oneOf]
  | cons a l ih =>
    have hcons : oneOf (a :: l) = char a + oneOf l := rfl
    rw [hcons, matches'_add, Language.mem_add, ih, List.exists_mem_cons_iff]
    rfl

theorem mem_mul_pattern : cs ∈ (r * s).matches' ↔ ∃ a ∈ r.matches', ∃ b ∈ s.matches', a ++ b = cs :=
  Language.mem_mul

theorem mem_add_pattern : cs ∈ (r + s).matches' ↔ cs ∈ r.matches' ∨ cs ∈ s.matches' :=
  Language.mem_add ..

theorem mem_optional : cs ∈ (optional r).matches' ↔ cs = [] ∨ cs ∈ r.matches' := by
  rw [optional, mem_add_pattern]
  rfl

/-- The texts over some characters. -/
theorem mem_star_oneOf {l : List Char} : cs ∈ (star (oneOf l)).matches' ↔ ∀ c ∈ cs, c ∈ l := by
  rw [matches'_star, Language.mem_kstar]
  constructor
  · rintro ⟨words, rfl, hwords⟩ c hc
    obtain ⟨word, hmem, hc⟩ := List.mem_flatten.mp hc
    obtain ⟨a, ha, rfl⟩ := mem_oneOf.mp (hwords word hmem)
    obtain rfl : c = a := List.mem_singleton.mp hc
    exact ha
  · intro hcs
    refine ⟨cs.map fun c => [c], ?_, ?_⟩
    · induction cs with
      | nil => rfl
      | cons c cs ih =>
        rw [List.map_cons, List.flatten_cons, ← ih fun d hd => hcs d (List.mem_cons_of_mem c hd)]
        rfl
    · intro word hword
      obtain ⟨c, hc, rfl⟩ := List.mem_map.mp hword
      exact mem_oneOf.mpr ⟨c, hcs c hc, rfl⟩

theorem mem_repeated_oneOf {l : List Char} :
    cs ∈ (repeated (oneOf l)).matches' ↔ (∀ c ∈ cs, c ∈ l) ∧ cs ≠ [] := by
  rw [repeated, mem_mul_pattern]
  constructor
  · rintro ⟨a, ha, b, hb, rfl⟩
    obtain ⟨c, hc, rfl⟩ := mem_oneOf.mp ha
    rw [mem_star_oneOf] at hb
    exact ⟨List.forall_mem_cons.mpr ⟨hc, hb⟩, List.cons_ne_nil c b⟩
  · rintro ⟨hcs, hne⟩
    cases cs with
    | nil => exact absurd rfl hne
    | cons c cs =>
      obtain ⟨hc, hrest⟩ := List.forall_mem_cons.mp hcs
      exact ⟨[c], mem_oneOf.mpr ⟨c, hc, rfl⟩, cs, mem_star_oneOf.mpr hrest, rfl⟩

end Patterns

section Classes

variable {c : Char}

theorem isDigit_iff_mem : c.isDigit ↔ c ∈ "0123456789".toList := by
  constructor
  · intro h
    obtain ⟨hlo, hhi⟩ : 48 ≤ c.toNat ∧ c.toNat ≤ 57 := by
      simp only [Char.isDigit, Bool.and_eq_true, decide_eq_true_eq, ge_iff_le] at h
      exact h
    rw [← Char.ofNat_toNat c]
    generalize c.toNat = n at hlo hhi ⊢
    interval_cases n <;> decide
  · intro h
    have hall : ∀ d ∈ "0123456789".toList, d.isDigit := by simp
    exact hall c h

theorem isOctalDigit_iff_mem : isOctalDigit c ↔ c ∈ "01234567".toList := by
  constructor
  · intro h
    obtain ⟨hlo, hhi⟩ : 48 ≤ c.toNat ∧ c.toNat ≤ 55 := by
      simp only [isOctalDigit, Bool.and_eq_true, decide_eq_true_eq] at h
      exact h
    rw [← Char.ofNat_toNat c]
    generalize c.toNat = n at hlo hhi ⊢
    interval_cases n <;> decide
  · intro h
    have hall : ∀ d ∈ "01234567".toList, isOctalDigit d := by simp [isOctalDigit]
    exact hall c h

theorem isHexDigit_iff_mem : isHexDigit c ↔ c ∈ "0123456789ABCDEFabcdef".toList := by
  constructor
  · intro h
    have hrange : (48 ≤ c.toNat ∧ c.toNat ≤ 57 ∨ 97 ≤ c.toNat ∧ c.toNat ≤ 102) ∨
        65 ≤ c.toNat ∧ c.toNat ≤ 70 := by
      simp only [isHexDigit, Char.isDigit, Bool.and_eq_true, Bool.or_eq_true, decide_eq_true_eq,
        ge_iff_le] at h
      exact h
    rw [← Char.ofNat_toNat c]
    generalize c.toNat = n at hrange ⊢
    rcases hrange with (⟨hlo, hhi⟩ | ⟨hlo, hhi⟩) | ⟨hlo, hhi⟩
    · interval_cases n <;> decide
    · interval_cases n <;> decide
    · interval_cases n <;> decide
  · intro h
    have hall : ∀ d ∈ "0123456789ABCDEFabcdef".toList, isHexDigit d := by simp [isHexDigit]
    exact hall c h

theorem digits_iff_mem {cs : List Char} : Digits cs ↔ ∀ c ∈ cs, c ∈ "0123456789".toList := by
  constructor
  · intro h c hc
    exact isDigit_iff_mem.mp (h c hc)
  · intro h c hc
    exact isDigit_iff_mem.mpr (h c hc)

/-- The digits but zero. -/
theorem mem_leadingDigits : c ∈ "123456789".toList ↔ c.isDigit ∧ c ≠ '0' := by
  rw [isDigit_iff_mem]
  have hzero : "0123456789".toList = '0' :: "123456789".toList := by decide
  rw [hzero, List.mem_cons]
  constructor
  · intro h
    refine ⟨Or.inr h, ?_⟩
    rintro rfl
    revert h
    decide
  · rintro ⟨h, hne⟩
    exact h.resolve_left hne

end Classes

section Languages

variable {cs : List Char}

theorem mem_exponentPattern : cs ∈ exponentPattern.matches' ↔ IsExponent cs := by
  rw [exponentPattern, mem_mul_pattern]
  constructor
  · rintro ⟨a, ha, b, hb, rfl⟩
    obtain ⟨e, he, rfl⟩ := mem_oneOf.mp ha
    obtain ⟨sign, hsign, digits, hdigits, rfl⟩ := mem_mul_pattern.mp hb
    obtain ⟨hdigits, hne⟩ := mem_repeated_oneOf.mp hdigits
    apply IsExponent.intro _ _ (digits_iff_mem.mpr hdigits) hne
    · simpa [or_comm] using he
    · rcases mem_optional.mp hsign with rfl | hsign
      · exact Or.inl rfl
      · obtain ⟨c, hc, rfl⟩ := mem_oneOf.mp hsign
        simpa using hc
  · rintro ⟨he, hsign, hdigits, hne⟩
    rename_i e sign digits
    refine ⟨[e], mem_oneOf.mpr ⟨e, by simpa [or_comm] using he, rfl⟩, sign ++ digits, ?_, rfl⟩
    apply mem_mul_pattern.mpr
    refine ⟨sign, mem_optional.mpr ?_, digits, ?_, rfl⟩
    · apply hsign.imp_right
      intro h
      apply mem_oneOf.mpr
      rcases h with rfl | rfl
      · exact ⟨'-', by simp, rfl⟩
      · exact ⟨'+', by simp, rfl⟩
    · exact mem_repeated_oneOf.mpr ⟨digits_iff_mem.mp hdigits, hne⟩

theorem mem_optional_exponentPattern :
    cs ∈ (optional exponentPattern).matches' ↔ cs = [] ∨ IsExponent cs := by
  rw [mem_optional, mem_exponentPattern]

/-- Two patterns with a point between them. -/
theorem mem_pointPattern {r s : RegularExpression Char} :
    cs ∈ (r * (char '.' * s)).matches' ↔
      ∃ whole ∈ r.matches', ∃ fraction ∈ s.matches', whole ++ '.' :: fraction = cs := by
  rw [mem_mul_pattern]
  constructor
  · rintro ⟨whole, hwhole, _, hrest, rfl⟩
    obtain ⟨point, rfl, fraction, hfraction, rfl⟩ := mem_mul_pattern.mp hrest
    exact ⟨whole, hwhole, fraction, hfraction, rfl⟩
  · rintro ⟨whole, hwhole, fraction, hfraction, rfl⟩
    have hrest : '.' :: fraction ∈ (char '.' * s).matches' :=
      mem_mul_pattern.mpr ⟨['.'], rfl, fraction, hfraction, rfl⟩
    exact ⟨whole, hwhole, '.' :: fraction, hrest, rfl⟩

theorem mem_decimalPattern : cs ∈ decimalPattern.matches' ↔ IsDecimal cs := by
  rw [decimalPattern, mem_add_pattern, mem_mul_pattern, mem_mul_pattern]
  constructor
  · rintro (⟨a, ha, exponent, hexponent, rfl⟩ | ⟨whole, hwhole, exponent, hexponent, rfl⟩)
    · rw [mem_optional_exponentPattern] at hexponent
      rw [mem_add_pattern, mem_pointPattern, mem_pointPattern] at ha
      rcases ha with
        ⟨whole, hwhole, fraction, hfraction, rfl⟩ | ⟨whole, hwhole, fraction, hfraction, rfl⟩
      · obtain ⟨hwhole, hne⟩ := mem_repeated_oneOf.mp hwhole
        rw [List.append_assoc]
        exact .point (digits_iff_mem.mpr hwhole) (digits_iff_mem.mpr (mem_star_oneOf.mp hfraction))
          (Or.inl hne) hexponent
      · obtain ⟨hfraction, hne⟩ := mem_repeated_oneOf.mp hfraction
        rw [List.append_assoc]
        exact .point (digits_iff_mem.mpr (mem_star_oneOf.mp hwhole)) (digits_iff_mem.mpr hfraction)
          (Or.inr hne) hexponent
    · obtain ⟨hwhole, hne⟩ := mem_repeated_oneOf.mp hwhole
      exact .scaled (digits_iff_mem.mpr hwhole) hne (mem_exponentPattern.mp hexponent)
  · intro h
    cases h with
    | @point whole fraction exponent hwhole hfraction hne hexponent =>
      apply Or.inl
      refine ⟨whole ++ '.' :: fraction, mem_add_pattern.mpr ?_, exponent,
        mem_optional_exponentPattern.mpr hexponent, by simp⟩
      rw [mem_pointPattern, mem_pointPattern]
      rw [digits_iff_mem] at hwhole hfraction
      rcases hne with hne | hne
      · exact Or.inl ⟨whole, mem_repeated_oneOf.mpr ⟨hwhole, hne⟩, fraction,
          mem_star_oneOf.mpr hfraction, rfl⟩
      · exact Or.inr ⟨whole, mem_star_oneOf.mpr hwhole, fraction,
          mem_repeated_oneOf.mpr ⟨hfraction, hne⟩, rfl⟩
    | @scaled whole exponent hwhole hne hexponent =>
      exact Or.inr ⟨whole, mem_repeated_oneOf.mpr ⟨digits_iff_mem.mp hwhole, hne⟩, exponent,
        mem_exponentPattern.mpr hexponent, rfl⟩

theorem mem_wholePattern : cs ∈ wholePattern.matches' ↔ IsWhole cs := by
  rw [wholePattern, mem_add_pattern, mem_mul_pattern, mem_mul_pattern]
  constructor
  · rintro (⟨_, rfl, rest, hrest, rfl⟩ | ⟨a, ha, digits, hdigits, rfl⟩)
    · rcases mem_add_pattern.mp hrest with hrest | hrest
      · obtain ⟨b, hb, digits, hdigits, rfl⟩ := mem_mul_pattern.mp hrest
        obtain ⟨x, hx, rfl⟩ := mem_oneOf.mp hb
        obtain ⟨hdigits, hne⟩ := mem_repeated_oneOf.mp hdigits
        exact .hex (by simpa [or_comm] using hx)
          (fun c hc => isHexDigit_iff_mem.mpr (hdigits c hc)) hne
      · rw [mem_star_oneOf] at hrest
        exact .octal fun c hc => isOctalDigit_iff_mem.mpr (hrest c hc)
    · obtain ⟨d, hd, rfl⟩ := mem_oneOf.mp ha
      obtain ⟨hd, hzero⟩ := mem_leadingDigits.mp hd
      exact .decimal hd hzero (digits_iff_mem.mpr (mem_star_oneOf.mp hdigits))
  · intro h
    cases h with
    | @hex x digits hx hdigits hne =>
      apply Or.inl
      refine ⟨['0'], rfl, x :: digits, mem_add_pattern.mpr (Or.inl ?_), rfl⟩
      apply mem_mul_pattern.mpr
      refine ⟨[x], mem_oneOf.mpr ⟨x, by simpa [or_comm] using hx, rfl⟩, digits, ?_, rfl⟩
      exact mem_repeated_oneOf.mpr ⟨fun c hc => isHexDigit_iff_mem.mp (hdigits c hc), hne⟩
    | @octal digits hdigits =>
      apply Or.inl
      refine ⟨['0'], rfl, digits, mem_add_pattern.mpr (Or.inr ?_), rfl⟩
      exact mem_star_oneOf.mpr fun c hc => isOctalDigit_iff_mem.mp (hdigits c hc)
    | @decimal d digits hd hzero hdigits =>
      apply Or.inr
      exact ⟨[d], mem_oneOf.mpr ⟨d, mem_leadingDigits.mpr ⟨hd, hzero⟩, rfl⟩, digits,
        mem_star_oneOf.mpr (digits_iff_mem.mp hdigits), rfl⟩

/-- A minus or none in front of a pattern. -/
theorem mem_signedPattern {P : List Char → Prop} {r : RegularExpression Char}
    (h : ∀ cs, cs ∈ r.matches' ↔ P cs) :
    cs ∈ (optional (char '-') * r).matches' ↔ Signed P cs := by
  rw [mem_mul_pattern]
  constructor
  · rintro ⟨sign, hsign, body, hbody, rfl⟩
    rcases mem_optional.mp hsign with rfl | rfl
    · exact .plain ((h body).mp hbody)
    · exact .minus ((h body).mp hbody)
  · intro hcs
    cases hcs with
    | plain hbody => exact ⟨[], mem_optional.mpr (Or.inl rfl), cs, (h cs).mpr hbody, rfl⟩
    | @minus body hbody =>
      exact ⟨['-'], mem_optional.mpr (Or.inr rfl), body, (h body).mpr hbody, rfl⟩

theorem mem_floatPattern : cs ∈ floatPattern.matches' ↔ IsFloat cs :=
  mem_signedPattern fun _ => mem_decimalPattern

theorem mem_integerPattern : cs ∈ integerPattern.matches' ↔ IsInteger cs :=
  mem_signedPattern fun _ => mem_wholePattern

end Languages

section Scans

variable {cs rest : List Char}

/-- A run goes at least as far as the characters of its class do. -/
theorem length_le_run {p : Char → Bool} (h : ∀ c ∈ cs, p c) : cs.length ≤ run p (cs ++ rest) := by
  rw [run, List.takeWhile_append_of_pos h, List.length_append]
  omega

theorem signLength_append {sign digits : List Char}
    (hsign : sign = [] ∨ sign = ['-'] ∨ sign = ['+']) (hdigits : Digits digits)
    (hne : digits ≠ []) : signLength (sign ++ (digits ++ rest)) = sign.length := by
  rcases hsign with rfl | rfl | rfl
  · cases digits with
    | nil => exact absurd rfl hne
    | cons d digits =>
      have hd : d.isDigit := hdigits d List.mem_cons_self
      show signLength (d :: (digits ++ rest)) = 0
      unfold signLength
      split
      · next h => cases h; simp at hd
      · next h => cases h; simp at hd
      · rfl
  · rfl
  · rfl

theorem IsExponent.length_le (h : IsExponent cs) : cs.length ≤ exponentLength (cs ++ rest) := by
  obtain ⟨he, hsign, hdigits, hne⟩ := h
  rename_i e sign digits
  have hrun : digits.length ≤ run Char.isDigit (digits ++ rest) := length_le_run hdigits
  have hpos : 0 < digits.length := List.length_pos_of_ne_nil hne
  have hlength : signLength (sign ++ (digits ++ rest)) = sign.length :=
    signLength_append hsign hdigits hne
  have hscan : exponentLength (e :: (sign ++ digits) ++ rest) =
      1 + sign.length + run Char.isDigit (digits ++ rest) := by
    rw [List.cons_append, List.append_assoc]
    simp only [exponentLength, if_pos he, hlength, List.drop_left]
    rw [if_neg (by omega)]
  rw [hscan, List.length_cons, List.length_append]
  omega

theorem IsExponent.head_not_digit (h : IsExponent cs) :
    ∀ c ∈ (cs ++ rest).head?, c.isDigit = false ∧ c ≠ '.' := by
  obtain ⟨he, -, -, -⟩ := h
  rintro c ⟨⟩
  rcases he with rfl | rfl
  · decide
  · decide

theorem IsDecimal.length_le (h : IsDecimal cs) : cs.length ≤ decimalLength (cs ++ rest) := by
  cases h with
  | @point whole fraction exponent hwhole hfraction hne hexponent =>
    have hrun : run Char.isDigit (whole ++ '.' :: (fraction ++ (exponent ++ rest))) =
        whole.length := run_append_stop hwhole (by simp)
    have hscan : decimalLength (whole ++ '.' :: (fraction ++ exponent) ++ rest) =
        whole.length + 1 + run Char.isDigit (fraction ++ (exponent ++ rest)) +
          exponentLength ((fraction ++ (exponent ++ rest)).drop
            (run Char.isDigit (fraction ++ (exponent ++ rest)))) := by
      have hnot : ¬(whole.length = 0 ∧ run Char.isDigit (fraction ++ (exponent ++ rest)) = 0) := by
        rintro ⟨hw, hf⟩
        have hle : fraction.length ≤ run Char.isDigit (fraction ++ (exponent ++ rest)) :=
          length_le_run hfraction
        rcases hne with hne | hne
        · exact hne (List.length_eq_zero_iff.mp hw)
        · exact hne (List.length_eq_zero_iff.mp (by omega))
      simp only [List.append_assoc, List.cons_append, decimalLength, hrun, List.drop_left]
      rw [if_neg hnot]
    rw [hscan]
    simp only [List.length_append, List.length_cons]
    rcases hexponent with rfl | hexponent
    · have hle : fraction.length ≤ run Char.isDigit (fraction ++ ([] ++ rest)) :=
        length_le_run hfraction
      simp only [List.length_nil]
      omega
    · -- the letter of the exponent ends the digits in front of it
      have hstop : run Char.isDigit (fraction ++ (exponent ++ rest)) = fraction.length :=
        run_append_stop hfraction fun c hc => (hexponent.head_not_digit c hc).1
      have hle : exponent.length ≤ exponentLength (exponent ++ rest) := hexponent.length_le
      rw [hstop, List.drop_left]
      omega
  | @scaled whole exponent hwhole hne hexponent =>
    have hhead : ∀ c ∈ (exponent ++ rest).head?, c.isDigit = false ∧ c ≠ '.' :=
      hexponent.head_not_digit
    have hle : exponent.length ≤ exponentLength (exponent ++ rest) := hexponent.length_le
    have hrun : run Char.isDigit (whole ++ (exponent ++ rest)) = whole.length :=
      run_append_stop hwhole fun c hc => (hhead c hc).1
    have hpos : 0 < exponent.length := by
      obtain ⟨-, -, -, -⟩ := hexponent
      simp
    have hwhole : 0 < whole.length := List.length_pos_of_ne_nil hne
    simp only [List.append_assoc, decimalLength, hrun, List.drop_left]
    split
    · next tail heq => exact absurd rfl (hhead '.' (by rw [heq]; rfl)).2
    · rw [if_neg (by omega), List.length_append]
      omega

theorem IsWhole.length_le (h : IsWhole cs) : cs.length ≤ wholeLength (cs ++ rest) := by
  cases h with
  | @hex x digits hx hdigits hne =>
    have hrun : digits.length ≤ run isHexDigit (digits ++ rest) := length_le_run hdigits
    have hpos : 0 < digits.length := List.length_pos_of_ne_nil hne
    simp only [List.cons_append, wholeLength]
    rw [if_pos ⟨hx, by omega⟩]
    simp only [List.length_cons]
    omega
  | @octal digits hdigits =>
    have hrun : digits.length ≤ run isOctalDigit (digits ++ rest) := length_le_run hdigits
    rw [List.cons_append, List.length_cons]
    cases hafter : digits ++ rest with
    | nil =>
      obtain rfl : digits = [] := (List.append_eq_nil_iff.mp hafter).1
      exact Nat.le_refl 1
    | cons x more =>
      rw [hafter] at hrun
      simp only [wholeLength]
      split
      · next hx =>
        -- an octal digit is no `x`, so only the zero is given away for the hexadecimal number
        cases digits with
        | nil => simp only [List.length_nil]; omega
        | cons d digits =>
          obtain rfl : d = x := (List.cons.inj hafter).1
          have hd := hdigits d List.mem_cons_self
          rcases hx.1 with rfl | rfl
          · exact absurd hd (by decide)
          · exact absurd hd (by decide)
      · omega
  | @decimal d digits hd hzero hdigits =>
    have hall : ∀ c ∈ d :: digits, c.isDigit := List.forall_mem_cons.mpr ⟨hd, hdigits⟩
    have hrun : (d :: digits).length ≤ run Char.isDigit (d :: digits ++ rest) := length_le_run hall
    rw [List.cons_append] at hrun ⊢
    unfold wholeLength
    split
    · next h => cases h; exact absurd rfl hzero
    · next h => cases h; rwa [if_pos hd]
    · next h => cases h

/-- A scan with a minus in front goes as far as the scan behind the minus does. -/
theorem Signed.length_le {P : List Char → Prop} {length : List Char → Nat} (h : Signed P cs)
    (hbody : ∀ cs, P cs → cs.length ≤ length (cs ++ rest)) (hne : ∀ cs, P cs → cs ≠ [])
    (hhead : ∀ cs, P cs → ∀ c ∈ cs.head?, c ≠ '-') :
    let sign := minusLength (cs ++ rest)
    let body := length ((cs ++ rest).drop sign)
    cs.length ≤ if body = 0 then 0 else sign + body := by
  cases h with
  | plain h =>
    have hminus : minusLength (cs ++ rest) = 0 := by
      apply minusLength_eq_zero
      rw [head?_append_of_ne_nil (hne cs h)]
      exact hhead cs h
    have hle := hbody cs h
    have hpos : 0 < cs.length := List.length_pos_of_ne_nil (hne cs h)
    simp only [hminus, List.drop_zero]
    rw [if_neg (by omega)]
    omega
  | @minus body h =>
    have hle := hbody body h
    have hpos : 0 < body.length := List.length_pos_of_ne_nil (hne body h)
    simp only [List.cons_append, minusLength, List.drop_succ_cons, List.drop_zero]
    rw [if_neg (by omega), List.length_cons]
    omega

theorem IsFloat.length_le (h : IsFloat cs) : cs.length ≤ floatLength (cs ++ rest) :=
  Signed.length_le h (fun _ h => h.length_le) (fun _ h => h.ne_nil) fun _ h => h.head_ne_minus

theorem IsInteger.length_le (h : IsInteger cs) : cs.length ≤ integerLength (cs ++ rest) := by
  apply Signed.length_le h (fun _ h => h.length_le) (fun _ h => h.ne_nil)
  rintro whole hwhole c hc rfl
  exact absurd (hwhole.head_isDigit _ hc) (by decide)

end Scans

/-- A scan that is sound and goes as far as any text of the language answers the longest prefix. -/
theorem isLongest_of_sound {P : List Char → Prop} {L : Language Char} {length : List Char → Nat}
    (hL : ∀ cs, cs ∈ L ↔ P cs) (hbound : ∀ cs, length cs ≤ cs.length)
    (hsound : ∀ cs, length cs ≠ 0 → P (cs.take (length cs))) (hne : ∀ cs, P cs → cs ≠ [])
    (hle : ∀ cs rest, P cs → cs.length ≤ length (cs ++ rest)) (cs : List Char) :
    IsLongest L cs (length cs) := by
  have hprefix : ∀ p ∈ L, p <+: cs → p.length ≤ length cs := by
    rintro p hp ⟨rest, rfl⟩
    exact hle p rest ((hL p).mp hp)
  refine ⟨?_, hprefix, ?_⟩
  · intro h
    exact ⟨hbound cs, (hL _).mpr (hsound cs h)⟩
  · constructor
    · intro hzero p hp hpre
      have hlen := hprefix p hp hpre
      exact hne p ((hL p).mp hp) (List.length_eq_zero_iff.mp (by omega))
    · intro hnone
      by_contra hpos
      exact hnone _ ((hL _).mpr (hsound cs hpos)) (List.take_prefix _ cs)

/-- The scans for numerals answer the longest prefixes that match their patterns. -/
theorem isLongest_numerals (cs : List Char) :
    IsLongest floatPattern.matches' cs (floatLength cs) ∧
      IsLongest integerPattern.matches' cs (integerLength cs) := by
  constructor
  · exact isLongest_of_sound (fun _ => mem_floatPattern) floatLength_le (fun _ => isFloat_take)
      (fun _ h => h.ne_nil) (fun _ _ h => h.length_le) cs
  · exact isLongest_of_sound (fun _ => mem_integerPattern) integerLength_le
      (fun _ => isInteger_take) (fun _ h => h.ne_nil) (fun _ _ h => h.length_le) cs

/-- Behind the digits of an octal number no 8 is read, and a letter without digits ends the number
in front of it. -/
example : integerLength "08".toList = 1 ∧ integerLength "0x".toList = 1 ∧
    floatLength "1e+".toList = 0 ∧ floatLength "-.5e3.".toList = 5 := by
  decide

end WebIdl.Numeral

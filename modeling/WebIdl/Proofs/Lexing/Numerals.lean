import Mathlib
import WebIdl.Token.Numeral

/-!
# The language of numerals

`IsFloat` and `IsInteger` say which texts are numerals, without scanning. A scan that answers a
length has such a numeral in front of it, and a numeral is scanned to its end whenever what
follows cannot belong to one.
-/

namespace WebIdl.Numeral

open Text

theorem takeWhile_append_stop {p : Char → Bool} {xs ys : List Char} (hx : ∀ c ∈ xs, p c)
    (hy : ∀ c ∈ ys.head?, p c = false) : (xs ++ ys).takeWhile p = xs := by
  rw [List.takeWhile_append_of_pos hx]
  cases ys with
  | nil => simp
  | cons y ys => simp [hy y rfl]

theorem dropWhile_append_stop {p : Char → Bool} {xs ys : List Char} (hx : ∀ c ∈ xs, p c)
    (hy : ∀ c ∈ ys.head?, p c = false) : (xs ++ ys).dropWhile p = ys := by
  rw [List.dropWhile_append_of_pos hx]
  cases ys with
  | nil => rfl
  | cons y ys => simp [hy y rfl]

theorem run_append_stop {p : Char → Bool} {xs ys : List Char} (hx : ∀ c ∈ xs, p c)
    (hy : ∀ c ∈ ys.head?, p c = false) : run p (xs ++ ys) = xs.length := by
  rw [run, takeWhile_append_stop hx hy]

theorem run_eq_zero {p : Char → Bool} {cs : List Char} (h : ∀ c ∈ cs.head?, p c = false) :
    run p cs = 0 :=
  @run_append_stop p [] cs (by simp) h

theorem take_run (p : Char → Bool) (cs : List Char) : cs.take (run p cs) = cs.takeWhile p :=
  (List.prefix_iff_eq_take.mp (List.takeWhile_prefix p)).symm

theorem run_le_length (p : Char → Bool) (cs : List Char) : run p cs ≤ cs.length :=
  (List.takeWhile_sublist p).length_le

theorem take_run_all (p : Char → Bool) (cs : List Char) : ∀ c ∈ cs.take (run p cs), p c := by
  rw [take_run]
  intro c hc
  exact List.all_eq_true.mp List.all_takeWhile c hc

theorem dropWhile_head {p : Char → Bool} {cs : List Char} : ∀ c ∈ (cs.dropWhile p).head?, p c = false := by
  intro c hc
  have h := List.head?_dropWhile_not p cs
  simp only [Option.mem_def] at hc
  simpa [hc] using h

theorem take_ne_nil {cs : List Char} {n : Nat} (hn : n ≠ 0) (hle : n ≤ cs.length) :
    cs.take n ≠ [] := by
  intro hnil
  have := congrArg List.length hnil
  rw [List.length_take, List.length_nil] at this
  omega

/-- Only digits. -/
def Digits (cs : List Char) : Prop :=
  ∀ c ∈ cs, c.isDigit

/-- `[Ee][-+]?[0-9]+` -/
inductive IsExponent : List Char → Prop
  | intro {e : Char} {sign digits : List Char} (he : e = 'e' ∨ e = 'E')
      (hs : sign = [] ∨ sign = ['-'] ∨ sign = ['+']) (hd : Digits digits) (hne : digits ≠ []) :
      IsExponent (e :: (sign ++ digits))

/-- `([0-9]+\.[0-9]*|[0-9]*\.[0-9]+)([Ee][-+]?[0-9]+)?|[0-9]+[Ee][-+]?[0-9]+` -/
inductive IsDecimal : List Char → Prop
  | point {whole fraction exponent : List Char} (hw : Digits whole) (hf : Digits fraction)
      (hne : whole ≠ [] ∨ fraction ≠ []) (he : exponent = [] ∨ IsExponent exponent) :
      IsDecimal (whole ++ '.' :: (fraction ++ exponent))
  | scaled {whole exponent : List Char} (hw : Digits whole) (hne : whole ≠ [])
      (he : IsExponent exponent) : IsDecimal (whole ++ exponent)

/-- `0([Xx][0-9A-Fa-f]+|[0-7]*)|[1-9][0-9]*` -/
inductive IsWhole : List Char → Prop
  | hex {x : Char} {digits : List Char} (hx : x = 'x' ∨ x = 'X') (hd : ∀ c ∈ digits, isHexDigit c)
      (hne : digits ≠ []) : IsWhole ('0' :: x :: digits)
  | octal {digits : List Char} (hd : ∀ c ∈ digits, isOctalDigit c) : IsWhole ('0' :: digits)
  | decimal {d : Char} {digits : List Char} (hd : d.isDigit) (h0 : d ≠ '0') (hs : Digits digits) :
      IsWhole (d :: digits)

/-- An optional minus in front of a text of some kind. -/
inductive Signed (P : List Char → Prop) : List Char → Prop
  | plain {cs : List Char} (h : P cs) : Signed P cs
  | minus {cs : List Char} (h : P cs) : Signed P ('-' :: cs)

def IsFloat (cs : List Char) : Prop :=
  Signed IsDecimal cs

def IsInteger (cs : List Char) : Prop :=
  Signed IsWhole cs

/-- What follows belongs to no numeral in front of it. -/
def Stops (rest : List Char) : Prop :=
  ∀ c ∈ rest.head?, isWordPart c = false ∧ c ≠ '.'

theorem stops_nil : Stops [] := by
  simp [Stops]

theorem isDigit_of_isOctalDigit {c : Char} (h : isOctalDigit c) : c.isDigit := by
  simp only [isOctalDigit, Bool.and_eq_true, decide_eq_true_eq, Char.le_def] at h
  simp only [Char.isDigit, Bool.and_eq_true, decide_eq_true_eq, ge_iff_le]
  exact ⟨h.1, UInt32.le_trans h.2 (by decide)⟩

theorem isWordPart_of_isHexDigit {c : Char} (h : isHexDigit c) : isWordPart c := by
  simp only [isHexDigit, Bool.or_eq_true, Bool.and_eq_true, decide_eq_true_eq, Char.le_def] at h
  simp only [isWordPart, Char.isAlphanum, Char.isAlpha, Char.isUpper, Char.isLower,
    Bool.or_eq_true, Bool.and_eq_true, decide_eq_true_eq, ge_iff_le]
  rcases h with (h | h) | h
  · exact Or.inl (Or.inr h)
  · exact Or.inl (Or.inl (Or.inr ⟨h.1, UInt32.le_trans h.2 (by decide)⟩))
  · exact Or.inl (Or.inl (Or.inl ⟨h.1, UInt32.le_trans h.2 (by decide)⟩))

section WordParts

variable {c : Char} (h : isWordPart c = false)
include h

theorem not_isDigit_of_not_isWordPart : c.isDigit = false := by
  simp only [isWordPart, Char.isAlphanum, Bool.or_eq_false_iff] at h
  exact h.1.2

theorem not_isOctalDigit_of_not_isWordPart : isOctalDigit c = false := by
  rw [Bool.eq_false_iff]
  intro hoctal
  have hdigit := isDigit_of_isOctalDigit hoctal
  rw [not_isDigit_of_not_isWordPart h] at hdigit
  cases hdigit

theorem not_isHexDigit_of_not_isWordPart : isHexDigit c = false := by
  rw [Bool.eq_false_iff]
  intro hhex
  rw [isWordPart_of_isHexDigit hhex] at h
  cases h

end WordParts

theorem Stops.not_digit {rest : List Char} (h : Stops rest) : ∀ c ∈ rest.head?, c.isDigit = false :=
  fun c hc => not_isDigit_of_not_isWordPart (h c hc).1

theorem exponentLength_append {cs rest : List Char} (h : IsExponent cs) (hr : Stops rest) :
    exponentLength (cs ++ rest) = cs.length := by
  obtain ⟨he, hs, hd, hne⟩ := h
  rename_i e sign digits
  have hdigits : run Char.isDigit (digits ++ rest) = digits.length :=
    run_append_stop hd hr.not_digit
  have hpos : digits.length ≠ 0 := by simpa using hne
  rcases hs with rfl | rfl | rfl
  · cases digits with
    | nil => exact absurd rfl hne
    | cons d ds =>
      have hdd : d.isDigit := hd d List.mem_cons_self
      have hsign : signLength (d :: ds ++ rest) = 0 := by
        unfold signLength
        split
        · next h => cases h; simp at hdd
        · next h => cases h; simp at hdd
        · rfl
      simp only [List.nil_append, List.cons_append, exponentLength, he, if_true]
      rw [← List.cons_append, hsign, List.drop_zero, hdigits]
      simp
      omega
  all_goals
    simp only [List.cons_append, List.nil_append, exponentLength, he, if_true, signLength,
      List.drop_succ_cons, List.drop_zero, hdigits, if_neg hpos, List.length_cons]
    omega

theorem exponentLength_eq_zero {cs : List Char} (h : ∀ c ∈ cs.head?, c ≠ 'e' ∧ c ≠ 'E') :
    exponentLength cs = 0 := by
  cases cs with
  | nil => rfl
  | cons c cs =>
    obtain ⟨h1, h2⟩ := h c rfl
    simp [exponentLength, h1, h2]

theorem isExponent_take {cs : List Char} (h : exponentLength cs ≠ 0) :
    IsExponent (cs.take (exponentLength cs)) := by
  cases cs with
  | nil => simp [exponentLength] at h
  | cons e cs =>
    simp only [exponentLength] at h ⊢
    by_cases he : e = 'e' ∨ e = 'E'
    · rw [if_pos he] at h ⊢
      by_cases hd : run Char.isDigit (cs.drop (signLength cs)) = 0
      · simp [hd] at h
      · rw [if_neg hd] at h ⊢
        have htake : cs.take (signLength cs + run Char.isDigit (cs.drop (signLength cs))) =
            cs.take (signLength cs) ++
              (cs.drop (signLength cs)).take (run Char.isDigit (cs.drop (signLength cs))) :=
          List.take_add
        rw [Nat.add_assoc, Nat.add_comm 1, List.take_succ_cons, htake]
        refine .intro he ?_ (take_run_all _ _) ?_
        · unfold signLength
          split <;> simp
        · exact take_ne_nil hd (run_le_length _ _)
    · simp [if_neg he] at h

theorem decimalLength_append {cs rest : List Char} (h : IsDecimal cs) (hr : Stops rest) :
    decimalLength (cs ++ rest) = cs.length := by
  cases h with
  | @point whole fraction exponent hw hf hne he =>
    have hexp : exponentLength (exponent ++ rest) = exponent.length := by
      rcases he with rfl | he
      · refine exponentLength_eq_zero fun c hc => ⟨?_, ?_⟩ <;>
          rintro rfl <;> exact absurd (hr _ hc).1 (by decide)
      · exact exponentLength_append he hr
    have hstop : ∀ c ∈ (exponent ++ rest).head?, c.isDigit = false := by
      rcases he with rfl | ⟨he, _, _, _⟩
      · exact hr.not_digit
      · rcases he with rfl | rfl <;> simp
    have hfrac : run Char.isDigit (fraction ++ (exponent ++ rest)) = fraction.length :=
      run_append_stop hf hstop
    have hwhole : run Char.isDigit (whole ++ '.' :: (fraction ++ (exponent ++ rest))) =
        whole.length := run_append_stop hw (by simp)
    have hpos : ¬ (whole.length = 0 ∧ fraction.length = 0) := by
      simpa using fun hn => hne.resolve_left (by simp [hn])
    simp only [List.append_assoc, List.cons_append, decimalLength, hwhole, List.drop_left, hfrac,
      if_neg hpos, hexp, List.length_append, List.length_cons]
    omega
  | @scaled whole exponent hw hne he =>
    have hexp := exponentLength_append he hr
    obtain ⟨hee, _, _, _⟩ := he
    rename_i e sign digits _ _ _
    have hwhole : run Char.isDigit (whole ++ (e :: (sign ++ digits) ++ rest)) = whole.length :=
      run_append_stop hw (by rcases hee with rfl | rfl <;> simp)
    have hpos : ¬ (whole.length = 0 ∨ (e :: (sign ++ digits)).length = 0) := by simpa using hne
    simp only [List.append_assoc, decimalLength] at hwhole hexp ⊢
    rw [hwhole, List.drop_left]
    split
    · next h => rcases hee with rfl | rfl <;> simp at h
    · rw [hexp, if_neg hpos, List.length_append]

theorem decimalLength_eq_zero_of_digits {whole rest : List Char} (hw : Digits whole)
    (hr : ∀ c ∈ rest.head?, c.isDigit = false ∧ c ≠ '.' ∧ c ≠ 'e' ∧ c ≠ 'E') :
    decimalLength (whole ++ rest) = 0 := by
  have hwhole : run Char.isDigit (whole ++ rest) = whole.length :=
    run_append_stop hw fun c hc => (hr c hc).1
  simp only [decimalLength, hwhole, List.drop_left]
  split
  · next tail => exact absurd rfl (hr '.' rfl).2.1
  · rw [exponentLength_eq_zero fun c hc => (hr c hc).2.2]
    simp

theorem isDecimal_take {cs : List Char} (h : decimalLength cs ≠ 0) :
    IsDecimal (cs.take (decimalLength cs)) := by
  have hwhole := take_run_all Char.isDigit cs
  have hsplit := List.take_append_drop (run Char.isDigit cs) cs
  have hlen := run_le_length Char.isDigit cs
  simp only [decimalLength] at h ⊢
  generalize run Char.isDigit cs = n at *
  split at h
  · next rest hd =>
    rw [hd] at hsplit
    by_cases hz : n = 0 ∧ run Char.isDigit rest = 0
    · simp [hz] at h
    · rw [if_neg hz]
      generalize hk : exponentLength (rest.drop (run Char.isDigit rest)) = k
      have htake : cs.take (n + 1 + run Char.isDigit rest + k) =
          cs.take n ++ '.' :: (rest.take (run Char.isDigit rest) ++
            (rest.drop (run Char.isDigit rest)).take k) := by
        rw [show n + 1 + run Char.isDigit rest + k = n + (run Char.isDigit rest + k + 1) by omega,
          List.take_add, hd, List.take_succ_cons, List.take_add]
      rw [htake]
      refine .point hwhole (take_run_all _ _) ?_ ?_
      · by_cases hn : n = 0
        · exact Or.inr (take_ne_nil (fun hf => hz ⟨hn, hf⟩) (run_le_length _ _))
        · exact Or.inl (take_ne_nil hn hlen)
      · by_cases hk0 : k = 0
        · exact Or.inl (by simp [hk0])
        · subst hk
          exact Or.inr (isExponent_take hk0)
  · next hd =>
    generalize hrest : cs.drop n = rest at *
    by_cases hz : n = 0 ∨ exponentLength rest = 0
    · simp [hz] at h
    · rw [if_neg hz]
      have htake : cs.take (n + exponentLength rest) =
          cs.take n ++ rest.take (exponentLength rest) := by
        rw [List.take_add, hrest]
      rw [htake]
      exact .scaled hwhole (take_ne_nil (fun hn => hz (Or.inl hn)) hlen)
        (isExponent_take fun he => hz (Or.inr he))

theorem IsDecimal.ne_nil {cs : List Char} (h : IsDecimal cs) : cs ≠ [] := by
  cases h with
  | point => simp
  | scaled _ hne _ => simp [hne]

theorem IsDecimal.head_ne_minus {cs : List Char} (h : IsDecimal cs) : ∀ c ∈ cs.head?, c ≠ '-' := by
  cases h with
  | @point whole fraction exponent hw hf hne he =>
    cases whole with
    | nil => simp
    | cons d ds =>
      have := hw d List.mem_cons_self
      rintro _ ⟨⟩ rfl
      simp at this
  | @scaled whole exponent hw hne he =>
    cases whole with
    | nil => exact absurd rfl hne
    | cons d ds =>
      have := hw d List.mem_cons_self
      rintro _ ⟨⟩ rfl
      simp at this

theorem minusLength_eq_zero {cs : List Char} (h : ∀ c ∈ cs.head?, c ≠ '-') :
    minusLength cs = 0 := by
  unfold minusLength
  split
  · exact absurd rfl (h '-' rfl)
  · rfl

theorem head?_append_of_ne_nil {xs ys : List Char} (h : xs ≠ []) :
    (xs ++ ys).head? = xs.head? := by
  cases xs with
  | nil => exact absurd rfl h
  | cons x xs => rfl

theorem floatLength_append {cs rest : List Char} (h : IsFloat cs) (hr : Stops rest) :
    floatLength (cs ++ rest) = cs.length := by
  cases h with
  | plain h =>
    have hminus : minusLength (cs ++ rest) = 0 := by
      refine minusLength_eq_zero fun c hc => h.head_ne_minus c ?_
      rwa [head?_append_of_ne_nil h.ne_nil] at hc
    have hpos : cs.length ≠ 0 := by simpa using h.ne_nil
    simp only [floatLength, hminus, List.drop_zero, decimalLength_append h hr, if_neg hpos,
      Nat.zero_add]
  | @minus cs h =>
    have hpos : cs.length ≠ 0 := by simpa using h.ne_nil
    simp only [floatLength, List.cons_append, minusLength, List.drop_succ_cons, List.drop_zero,
      decimalLength_append h hr, if_neg hpos, List.length_cons]
    omega

theorem isFloat_take {cs : List Char} (h : floatLength cs ≠ 0) :
    IsFloat (cs.take (floatLength cs)) := by
  simp only [floatLength] at h ⊢
  by_cases hb : decimalLength (cs.drop (minusLength cs)) = 0
  · simp [hb] at h
  · rw [if_neg hb]
    unfold minusLength at hb ⊢
    split at hb
    · rw [Nat.add_comm, List.take_succ_cons]
      exact .minus (isDecimal_take hb)
    · rw [Nat.zero_add]
      exact .plain (isDecimal_take hb)

theorem IsWhole.ne_nil {cs : List Char} (h : IsWhole cs) : cs ≠ [] := by
  cases h <;> simp

theorem IsWhole.head_isDigit {cs : List Char} (h : IsWhole cs) : ∀ c ∈ cs.head?, c.isDigit := by
  cases h with
  | decimal hd => simpa using hd
  | _ => simp

theorem IsFloat.ne_nil {cs : List Char} (h : IsFloat cs) : cs ≠ [] := by
  cases h with
  | plain h => exact h.ne_nil
  | minus h => simp

theorem IsInteger.ne_nil {cs : List Char} (h : IsInteger cs) : cs ≠ [] := by
  cases h with
  | plain h => exact h.ne_nil
  | minus h => simp

theorem Stops.not_octal {rest : List Char} (h : Stops rest) :
    ∀ c ∈ rest.head?, isOctalDigit c = false :=
  fun c hc => not_isOctalDigit_of_not_isWordPart (h c hc).1

theorem Stops.not_hex {rest : List Char} (h : Stops rest) :
    ∀ c ∈ rest.head?, isHexDigit c = false :=
  fun c hc => not_isHexDigit_of_not_isWordPart (h c hc).1

theorem wholeLength_zero_cons {cs : List Char} (h : ∀ c ∈ cs.head?, c ≠ 'x' ∧ c ≠ 'X') :
    wholeLength ('0' :: cs) = 1 + run isOctalDigit cs := by
  cases cs with
  | nil => rfl
  | cons c cs =>
    obtain ⟨h1, h2⟩ := h c rfl
    simp [wholeLength, h1, h2]

theorem wholeLength_append {cs rest : List Char} (h : IsWhole cs) (hr : Stops rest) :
    wholeLength (cs ++ rest) = cs.length := by
  cases h with
  | @hex x digits hx hd hne =>
    have hrun : run isHexDigit (digits ++ rest) = digits.length := run_append_stop hd hr.not_hex
    have hpos : digits.length ≠ 0 := by simpa using hne
    simp only [List.cons_append, wholeLength, hrun]
    rw [if_pos ⟨hx, hpos⟩]
    simp only [List.length_cons]
    omega
  | @octal digits hd =>
    have hrun : run isOctalDigit (digits ++ rest) = digits.length :=
      run_append_stop hd hr.not_octal
    have hhead : ∀ c ∈ (digits ++ rest).head?, c ≠ 'x' ∧ c ≠ 'X' := by
      cases digits with
      | nil =>
        intro c hc
        have := (hr c hc).1
        constructor <;> rintro rfl <;> exact absurd this (by decide)
      | cons d ds =>
        have hd' := hd d List.mem_cons_self
        rintro c ⟨⟩
        constructor <;> rintro rfl <;> exact absurd hd' (by decide)
    rw [List.cons_append, wholeLength_zero_cons hhead, hrun, List.length_cons, Nat.add_comm]
  | @decimal d digits hd h0 hs =>
    have hrun : run Char.isDigit (d :: digits ++ rest) = (d :: digits).length := by
      refine run_append_stop ?_ hr.not_digit
      intro c hc
      rcases List.mem_cons.mp hc with rfl | hc
      · exact hd
      · exact hs c hc
    rw [List.cons_append] at hrun ⊢
    unfold wholeLength
    split
    · next h => cases h; exact absurd rfl h0
    · next h => cases h; rw [if_pos hd, hrun]
    · next h => cases h

theorem isWhole_take {cs : List Char} (h : wholeLength cs ≠ 0) :
    IsWhole (cs.take (wholeLength cs)) := by
  cases cs with
  | nil => simp [wholeLength] at h
  | cons d rest =>
    by_cases h0 : d = '0'
    · subst h0
      by_cases hx : ∃ x digits, rest = x :: digits ∧ (x = 'x' ∨ x = 'X') ∧ run isHexDigit digits ≠ 0
      · obtain ⟨x, digits, rfl, hx, hpos⟩ := hx
        have hw : wholeLength ('0' :: x :: digits) = run isHexDigit digits + 1 + 1 := by
          simp only [wholeLength]
          rw [if_pos ⟨hx, hpos⟩]
          omega
        rw [hw, List.take_succ_cons, List.take_succ_cons]
        exact .hex hx (take_run_all _ _) (take_ne_nil hpos (run_le_length _ _))
      · have hw : wholeLength ('0' :: rest) = run isOctalDigit rest + 1 := by
          cases rest with
          | nil => rfl
          | cons x digits =>
            have hn : ¬ ((x = 'x' ∨ x = 'X') ∧ run isHexDigit digits ≠ 0) :=
              fun ⟨h1, h2⟩ => hx ⟨x, digits, rfl, h1, h2⟩
            simp only [wholeLength]
            rw [if_neg hn, Nat.add_comm]
        rw [hw, List.take_succ_cons]
        exact .octal (take_run_all _ _)
    · unfold wholeLength at h ⊢
      split at h
      · next heq => cases heq; exact absurd rfl h0
      · next heq =>
        cases heq
        by_cases hd : d.isDigit
        · have hrun : run Char.isDigit (d :: rest) = run Char.isDigit rest + 1 := by
            simp [run, hd]
          rw [if_pos hd, hrun, List.take_succ_cons]
          exact .decimal hd h0 (take_run_all _ _)
        · simp [hd] at h
      · next heq => cases heq

theorem integerLength_append {cs rest : List Char} (h : IsInteger cs) (hr : Stops rest) :
    integerLength (cs ++ rest) = cs.length := by
  cases h with
  | plain h =>
    have hminus : minusLength (cs ++ rest) = 0 := by
      refine minusLength_eq_zero fun c hc => ?_
      rw [head?_append_of_ne_nil h.ne_nil] at hc
      rintro rfl
      have := h.head_isDigit _ hc
      simp at this
    have hpos : cs.length ≠ 0 := by simpa using h.ne_nil
    simp only [integerLength, hminus, List.drop_zero, wholeLength_append h hr, if_neg hpos,
      Nat.zero_add]
  | @minus cs h =>
    have hpos : cs.length ≠ 0 := by simpa using h.ne_nil
    simp only [integerLength, List.cons_append, minusLength, List.drop_succ_cons, List.drop_zero,
      wholeLength_append h hr, if_neg hpos, List.length_cons]
    omega

theorem isInteger_take {cs : List Char} (h : integerLength cs ≠ 0) :
    IsInteger (cs.take (integerLength cs)) := by
  simp only [integerLength] at h ⊢
  by_cases hb : wholeLength (cs.drop (minusLength cs)) = 0
  · simp [hb] at h
  · rw [if_neg hb]
    unfold minusLength at hb ⊢
    split at hb
    · rw [Nat.add_comm, List.take_succ_cons]
      exact .minus (isWhole_take hb)
    · rw [Nat.zero_add]
      exact .plain (isWhole_take hb)

/-- The digits of a whole number and what stops them make no decimal. A hexadecimal number is cut
at its `x`. -/
theorem decimalLength_whole_append {cs rest : List Char} (h : IsWhole cs) (hr : Stops rest) :
    decimalLength (cs ++ rest) = 0 := by
  have hstop : ∀ c ∈ rest.head?, c.isDigit = false ∧ c ≠ '.' ∧ c ≠ 'e' ∧ c ≠ 'E' := by
    intro c hc
    refine ⟨hr.not_digit c hc, (hr c hc).2, ?_, ?_⟩ <;>
      rintro rfl <;> exact absurd (hr _ hc).1 (by decide)
  cases h with
  | @hex x digits hx hd hne =>
    have h0 : Digits ['0'] := by simp [Digits]
    exact @decimalLength_eq_zero_of_digits _ (x :: (digits ++ rest)) h0
      (by rcases hx with rfl | rfl <;> simp)
  | @octal digits hd =>
    refine decimalLength_eq_zero_of_digits ?_ hstop
    intro c hc
    rcases List.mem_cons.mp hc with rfl | hc
    · rfl
    · exact isDigit_of_isOctalDigit (hd c hc)
  | @decimal d digits hd h0 hs =>
    refine decimalLength_eq_zero_of_digits ?_ hstop
    intro c hc
    rcases List.mem_cons.mp hc with rfl | hc
    · exact hd
    · exact hs c hc

theorem floatLength_integer_append {cs rest : List Char} (h : IsInteger cs) (hr : Stops rest) :
    floatLength (cs ++ rest) = 0 := by
  cases h with
  | plain h =>
    have hminus : minusLength (cs ++ rest) = 0 := by
      refine minusLength_eq_zero fun c hc => ?_
      rw [head?_append_of_ne_nil h.ne_nil] at hc
      rintro rfl
      have := h.head_isDigit _ hc
      simp at this
    simp only [floatLength, hminus, List.drop_zero, decimalLength_whole_append h hr, if_true]
  | minus h =>
    simp only [floatLength, List.cons_append, minusLength, List.drop_succ_cons, List.drop_zero,
      decimalLength_whole_append h hr, if_true]

/-- Nothing but a digit, a point or a minus begins a numeral. -/
theorem floatLength_eq_zero_of_head {cs : List Char}
    (h : ∀ c ∈ cs.head?, c.isDigit = false ∧ c ≠ '.' ∧ c ≠ '-') : floatLength cs = 0 := by
  have hminus : minusLength cs = 0 := minusLength_eq_zero fun c hc => (h c hc).2.2
  have hrun : run Char.isDigit cs = 0 := run_eq_zero fun c hc => (h c hc).1
  simp only [floatLength, hminus, List.drop_zero, decimalLength, hrun]
  split
  · exact absurd rfl (h '.' rfl).2.1
  · simp

theorem integerLength_eq_zero_of_head {cs : List Char}
    (h : ∀ c ∈ cs.head?, c.isDigit = false ∧ c ≠ '-') : integerLength cs = 0 := by
  have hminus : minusLength cs = 0 := minusLength_eq_zero fun c hc => (h c hc).2
  have hwhole : wholeLength cs = 0 := by
    unfold wholeLength
    split
    · simpa using (h '0' rfl).1
    · next d ds _ => simp [(h d rfl).1]
    · rfl
  simp [integerLength, hminus, hwhole]

theorem minusLength_le (cs : List Char) : minusLength cs ≤ cs.length := by
  unfold minusLength
  split <;> simp

theorem signLength_le (cs : List Char) : signLength cs ≤ cs.length := by
  unfold signLength
  split <;> simp

theorem exponentLength_le (cs : List Char) : exponentLength cs ≤ cs.length := by
  cases cs with
  | nil => simp [exponentLength]
  | cons e rest =>
    have hsign := signLength_le rest
    have hdigits := run_le_length Char.isDigit (rest.drop (signLength rest))
    rw [List.length_drop] at hdigits
    simp only [exponentLength, List.length_cons]
    split
    · split <;> omega
    · omega

theorem decimalLength_le (cs : List Char) : decimalLength cs ≤ cs.length := by
  have hwhole := run_le_length Char.isDigit cs
  have hlen := List.length_drop (i := run Char.isDigit cs) (l := cs)
  simp only [decimalLength]
  split
  · next rest heq =>
    have hfrac := run_le_length Char.isDigit rest
    have hexp := exponentLength_le (rest.drop (run Char.isDigit rest))
    rw [List.length_drop] at hexp
    rw [heq, List.length_cons] at hlen
    split <;> omega
  · have hexp := exponentLength_le (cs.drop (run Char.isDigit cs))
    split <;> omega

theorem floatLength_le (cs : List Char) : floatLength cs ≤ cs.length := by
  have hminus := minusLength_le cs
  have hbody := decimalLength_le (cs.drop (minusLength cs))
  rw [List.length_drop] at hbody
  simp only [floatLength]
  split <;> omega

theorem wholeLength_le (cs : List Char) : wholeLength cs ≤ cs.length := by
  unfold wholeLength
  split
  · next rest =>
    split
    · next x digits =>
      have hhex := run_le_length isHexDigit digits
      have hoctal := run_le_length isOctalDigit (x :: digits)
      simp only [List.length_cons] at hoctal ⊢
      split <;> omega
    · simp
  · next d ds _ =>
    have := run_le_length Char.isDigit (d :: ds)
    split <;> omega
  · simp

theorem integerLength_le (cs : List Char) : integerLength cs ≤ cs.length := by
  have hminus := minusLength_le cs
  have hbody := wholeLength_le (cs.drop (minusLength cs))
  rw [List.length_drop] at hbody
  simp only [integerLength]
  split <;> omega

end WebIdl.Numeral

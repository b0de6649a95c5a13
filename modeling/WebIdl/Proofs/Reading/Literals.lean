import WebIdl.Grammar.Literals
import WebIdl.Proofs.Reading.Readers
import WebIdl.Proofs.WellFormed

/-!
# Reading written literals
-/

namespace WebIdl.Grammar

open Token Cursor Spelling

variable {exact : Bool} {c : Cursor} {ts rest : List Token}
variable {Q : Option Literal → Cursor → Prop}

theorem reads_plainLiteral {w : String} {l : Literal} (hc : Near exact c ts)
    (hts : core ts = word w :: rest) (h : ∀ c', At exact c' rest → Q (some l) c') :
    Reads c (plainLiteral w l) Q := by
  rw [plainLiteral, reads_bind]
  exact reads_keyword hc hts fun c' hc' => reads_pure.mpr (h c' hc')

theorem reads_plainLiteral_none {w : String} {l : Literal} (hc : Near exact c ts)
    (hts : (core ts).head? ≠ some (word w)) (h : ∀ c', Near exact c' ts → Q none c') :
    Reads c (plainLiteral w l) Q := by
  rw [plainLiteral, reads_bind]
  exact reads_keyword_none hc hts fun c' hc' => reads_pure.mpr (h c' hc'.near)

theorem ofNumeral_text (s : String) : (ofNumeral s).text = s := by
  simp only [ofNumeral]
  split <;> rfl

theorem ofNumeral_kind (s : String) :
    (ofNumeral s).kind = .float ∨ (ofNumeral s).kind = .integer := by
  simp only [ofNumeral]
  split
  · exact Or.inl rfl
  · exact Or.inr rfl

theorem ofNumeral_ne_word (s w : String) : ofNumeral s ≠ word w := by
  intro heq
  have hkind := ofNumeral_kind s
  rw [heq] at hkind
  simp [word] at hkind

theorem quoted_ne_mark (s m : String) : quoted s ≠ mark m := by
  simp [quoted, mark]

theorem unescape_of_kind {t : Token} (h : t.kind ≠ .identifier) : t.unescape = t := by
  unfold unescape
  split
  · next hk _ => exact absurd hk h
  · rfl

theorem reads_numeral {s : String} (hc : Near exact c (ofNumeral s :: rest))
    (h : ∀ c', At exact c' rest → Q (some (.number s)) c') : Reads c numeral Q := by
  obtain ⟨us, hus, hat⟩ := hc.exists_rest (core_ofNumeral s rest)
  have hunescape : (ofNumeral s).unescape = ofNumeral s :=
    unescape_of_kind (by rcases ofNumeral_kind s with hk | hk <;> simp [hk])
  rw [numeral, reads_bind, reads_skip]
  have hread : Q (some (.number (ofNumeral s).unescape.text))
      ⟨ofNumeral s :: c.skip.before, us, c.skip.line⟩ := by
    rw [hunescape, ofNumeral_text]
    exact h _ (hat _ _)
  rcases ofNumeral_kind s with hk | hk
  · refine reads_firstOf (reads_mapped ?_)
    exact reads_token_some (t := ofNumeral s) hus hk rfl ⟨_, rfl, hread⟩
  · refine reads_firstOf_next (reads_mapped (reads_token_none ?_ ⟨rfl, ?_⟩))
    · intro t ht hfloat _
      rw [after_skip, hus] at ht
      obtain rfl : ofNumeral s = t := by simpa using ht
      simp [hk] at hfloat
    · refine reads_firstOf (reads_mapped ?_)
      exact reads_token_some (t := ofNumeral s) hus hk rfl ⟨_, rfl, hread⟩

theorem reads_numeral_none (hc : Near exact c ts)
    (hts : ∀ t ∈ (core ts).head?, t.kind ≠ .float ∧ t.kind ≠ .integer)
    (h : ∀ c', Near exact c' ts → Q none c') : Reads c numeral Q := by
  have hhead : ∀ t ∈ c.skip.after.head?, t.kind ≠ .float ∧ t.kind ≠ .integer := by
    rw [after_skip, hc.head?_eq]
    exact hts
  rw [numeral, reads_bind, reads_skip]
  refine reads_firstOf_next (reads_mapped (reads_token_none ?_ ⟨rfl, ?_⟩))
  · exact fun t ht hk _ => (hhead t ht).1 hk
  refine reads_firstOf_next (reads_mapped (reads_token_none ?_ ⟨rfl, ?_⟩))
  · exact fun t ht hk _ => (hhead t ht).2 hk
  · exact reads_pure.mpr (h _ hc.skip_near)

theorem reads_negativeInfinity (hc : Near exact c (ofLiteral (.infinity true) ++ rest))
    (h : ∀ c', At exact c' rest → Q (some (.infinity true)) c') : Reads c negativeInfinity Q := by
  rw [negativeInfinity, reads_bind]
  refine reads_symbol hc rfl fun c1 hc1 => reads_bind.mpr ?_
  exact reads_keyword hc1.toNear rfl fun c2 hc2 => reads_pure.mpr (h c2 hc2)

theorem reads_negativeInfinity_none (hc : Near exact c ts)
    (hts : (core ts).head? ≠ some (mark "-")) (h : ∀ c', Near exact c' ts → Q none c') :
    Reads c negativeInfinity Q := by
  rw [negativeInfinity, reads_bind]
  exact reads_symbol_none hc hts fun c' hc' => reads_pure.mpr (h c' hc'.near)

/-- The keywords of literals in the order in which they are tried. -/
theorem reads_constValue_numeral {ps : List (Reader (Option Literal))} (hc : Near exact c ts)
    (hts : ∀ w ∈ ["true", "false", "null", "Infinity", "NaN"], (core ts).head? ≠ some (word w))
    (h : ∀ c', Near exact c' ts → Reads c' (firstOf ps) Q) :
    Reads c (firstOf (plainLiteral "true" (.boolean true) ::
      plainLiteral "false" (.boolean false) :: plainLiteral "null" .null ::
      plainLiteral "Infinity" (.infinity false) :: plainLiteral "NaN" .nan :: ps)) Q := by
  refine reads_firstOf_next (reads_plainLiteral_none hc (hts _ (by simp)) fun c1 hc1 => ⟨rfl, ?_⟩)
  refine reads_firstOf_next (reads_plainLiteral_none hc1 (hts _ (by simp)) fun c2 hc2 => ⟨rfl, ?_⟩)
  refine reads_firstOf_next (reads_plainLiteral_none hc2 (hts _ (by simp)) fun c3 hc3 => ⟨rfl, ?_⟩)
  refine reads_firstOf_next (reads_plainLiteral_none hc3 (hts _ (by simp)) fun c4 hc4 => ⟨rfl, ?_⟩)
  refine reads_firstOf_next (reads_plainLiteral_none hc4 (hts _ (by simp)) fun c5 hc5 => ⟨rfl, ?_⟩)
  exact h c5 hc5

theorem reads_constValue {l : Literal} (hl : l.IsConst)
    (hc : Near exact c (ofLiteral l ++ rest)) (h : ∀ c', At exact c' rest → Q (some l) c') :
    Reads c constValue Q := by
  have hnext : ∀ {c : Cursor} {w v : String} {l : Literal} {us : List Token}
      {ps : List (Reader (Option Literal))}, Near exact c (word w :: us) → w ≠ v →
      (∀ c', Near exact c' (word w :: us) → Reads c' (firstOf ps) Q) →
      Reads c (firstOf (plainLiteral v l :: ps)) Q := fun hc hw hQ =>
    reads_firstOf_next (reads_plainLiteral_none hc (by simpa using hw)
      fun c' hc' => ⟨rfl, hQ c' hc'⟩)
  have hhere : ∀ {c : Cursor} {w : String} {ps : List (Reader (Option Literal))},
      Near exact c (word w :: rest) → Reads c (firstOf (plainLiteral w l :: ps)) Q := fun hc =>
    reads_firstOf (reads_plainLiteral hc rfl fun c' hc' => ⟨l, rfl, h c' hc'⟩)
  rw [constValue]
  cases l with
  | string s => exact hl.elim
  | emptySequence => exact hl.elim
  | boolean b =>
    cases b with
    | true => exact hhere hc
    | false => exact hnext hc (by decide) fun c1 hc1 => hhere hc1
  | null =>
    exact hnext hc (by decide) fun c1 hc1 => hnext hc1 (by decide) fun c2 hc2 => hhere hc2
  | nan =>
    refine hnext hc (by decide) fun c1 hc1 => hnext hc1 (by decide) fun c2 hc2 => ?_
    exact hnext hc2 (by decide) fun c3 hc3 => hnext hc3 (by decide) fun c4 hc4 => hhere hc4
  | number s =>
    refine reads_constValue_numeral hc ?_ fun c1 hc1 => ?_
    · intro w _ heq
      rw [ofLiteral, List.cons_append, core_ofNumeral, List.head?_cons] at heq
      exact ofNumeral_ne_word s w (Option.some.inj heq)
    · exact reads_firstOf (reads_numeral hc1 fun c2 hc2 => ⟨_, rfl, h c2 hc2⟩)
  | infinity negative =>
    cases negative with
    | false =>
      refine hnext hc (by decide) fun c1 hc1 => hnext hc1 (by decide) fun c2 hc2 => ?_
      exact hnext hc2 (by decide) fun c3 hc3 => hhere hc3
    | true =>
      refine reads_constValue_numeral hc (by simp [ofLiteral]) fun c1 hc1 => ?_
      refine reads_firstOf_next (reads_numeral_none hc1 ?_ fun c2 hc2 => ⟨rfl, ?_⟩)
      · intro t ht
        obtain rfl : mark "-" = t := by simpa [ofLiteral] using ht
        simp [mark]
      · exact reads_firstOf (reads_negativeInfinity hc2 fun c3 hc3 => ⟨_, rfl, h c3 hc3⟩)

theorem reads_constValue_none (hc : Near exact c ts)
    (hts : ∀ t ∈ (core ts).head?,
      t.kind ≠ .identifier ∧ t.kind ≠ .float ∧ t.kind ≠ .integer ∧ t ≠ mark "-")
    (h : ∀ c', Near exact c' ts → Q none c') : Reads c constValue Q := by
  rw [constValue]
  refine reads_constValue_numeral hc (fun w _ heq => (hts _ heq).1 rfl) fun c1 hc1 => ?_
  refine reads_firstOf_next (reads_numeral_none hc1 ?_ fun c2 hc2 => ⟨rfl, ?_⟩)
  · exact fun t ht => ⟨(hts t ht).2.1, (hts t ht).2.2.1⟩
  refine reads_firstOf_next (reads_negativeInfinity_none hc2 ?_ fun c3 hc3 => ⟨rfl, ?_⟩)
  · exact fun heq => (hts _ heq).2.2.2 rfl
  · exact reads_pure.mpr (h c3 hc3)

theorem dropWhile_quotes {cs rest : List Char} (h : '"' ∉ cs) :
    (cs ++ rest).dropWhile (· == '"') = if cs = [] then rest.dropWhile (· == '"') else cs ++ rest := by
  cases cs with
  | nil => rfl
  | cons c cs =>
    have hc : (c == '"') = false := by simpa using fun heq : c = '"' => h (heq ▸ List.mem_cons_self)
    simp [hc]

/-- A string without quotes inside loses the two at its ends only. -/
theorem unquote_quoted {s : String} (h : '"' ∉ s.toList) : unquote (quoted s).text = s := by
  have hreverse : '"' ∉ s.toList.reverse := by simpa using h
  have hfront : ('"' :: (s.toList ++ ['"'])).dropWhile (· == '"') =
      if s.toList = [] then [] else s.toList ++ ['"'] := by
    have := @dropWhile_quotes s.toList ['"'] h
    simpa [List.dropWhile] using this
  have htext : (quoted s).text.toList = '"' :: (s.toList ++ ['"']) := by
    simp [quoted]
  rw [unquote, htext, hfront]
  by_cases hs : s.toList = []
  · simp [String.toList_eq_nil_iff.mp hs]
  · have hback := @dropWhile_quotes s.toList.reverse [] hreverse
    rw [List.append_nil, if_neg (by simpa using hs)] at hback
    rw [if_neg hs, List.reverse_append, List.reverse_singleton, List.singleton_append,
      List.dropWhile_cons_of_pos (by simp), hback, List.reverse_reverse, String.ofList_toList]

theorem reads_stringLiteral {s : String} (hs : '"' ∉ s.toList)
    (hc : Near exact c (quoted s :: rest))
    (h : ∀ c', At exact c' rest → Q (some (.string s)) c') : Reads c stringLiteral Q := by
  obtain ⟨us, hus, hat⟩ := hc.exists_rest (core_quoted s rest)
  rw [stringLiteral, reads_bind, reads_skip]
  refine reads_mapped (reads_token_some (t := quoted s) hus rfl rfl ?_)
  rw [unescape_of_kind (by simp [quoted]), Option.map_some, unquote_quoted hs]
  exact h _ (hat _ _)

theorem reads_emptySequence (hc : Near exact c (mark "[" :: mark "]" :: rest))
    (h : ∀ c', At exact c' rest → Q (some .emptySequence) c') : Reads c emptySequence Q := by
  rw [emptySequence, reads_bind]
  refine reads_symbol hc rfl fun c1 hc1 => reads_bind.mpr ?_
  exact reads_expectSymbol hc1.toNear rfl fun c2 hc2 => reads_pure.mpr (h c2 hc2)

theorem reads_defaultValue {l : Literal} (hl : l.WellFormed)
    (hc : Near exact c (ofDefault (some l) ++ rest))
    (h : ∀ c', At exact c' rest → Q (some l) c') : Reads c defaultValue Q := by
  rw [defaultValue, reads_bind]
  refine reads_symbol hc rfl fun c1 hc1 => reads_bind.mpr (reads_expect ?_)
  have hc1 : Near exact c1 (ofLiteral l ++ rest) := hc1.toNear.of_space
  by_cases hconst : l.IsConst
  · refine reads_firstOf (reads_constValue hconst hc1 fun c2 hc2 => ⟨_, rfl, _, rfl, ?_⟩)
    exact reads_pure.mpr (h c2 hc2)
  cases l with
  | string s =>
    refine reads_firstOf_next (reads_constValue_none hc1 ?_ fun c2 hc2 => ⟨rfl, ?_⟩)
    · intro t ht
      obtain rfl : quoted s = t := by simpa [ofLiteral] using ht
      simp [quoted, mark]
    refine reads_firstOf_next ?_
    rw [emptySequence, reads_bind]
    refine reads_symbol_none hc2 (by simp [ofLiteral, quoted_ne_mark]) fun c3 hc3 => ?_
    refine reads_pure.mpr ⟨rfl, reads_firstOf ?_⟩
    exact reads_stringLiteral hl hc3.near fun c4 hc4 => ⟨_, rfl, _, rfl, reads_pure.mpr (h c4 hc4)⟩
  | emptySequence =>
    refine reads_firstOf_next (reads_constValue_none hc1 ?_ fun c2 hc2 => ⟨rfl, ?_⟩)
    · intro t ht
      obtain rfl : mark "[" = t := by simpa [ofLiteral] using ht
      simp [mark]
    refine reads_firstOf (reads_emptySequence hc2 fun c3 hc3 => ⟨_, rfl, _, rfl, ?_⟩)
    exact reads_pure.mpr (h c3 hc3)
  | boolean | null | infinity | nan | number => exact absurd trivial hconst

theorem reads_defaultValue_none (hc : Near exact c ts) (hts : (core ts).head? ≠ some (mark "="))
    (h : ∀ c', At exact c' (core ts) → Q none c') : Reads c defaultValue Q := by
  rw [defaultValue, reads_bind]
  exact reads_symbol_none hc hts fun c' hc' => reads_pure.mpr (h c' hc')

end WebIdl.Grammar

import WebIdl.Proofs.Lexing.Standalone
import WebIdl.Proofs.Printing.Balance
import WebIdl.Proofs.Writing.Statements

/-!
# The tokens of written phrases

A token of a well-formed tree fits its place. Words, numerals and strings do because the lexer cuts
them from the text again. So only the blanks are followed through the tree: they are single spaces
or the trivia that a parse keeps.
-/

namespace WebIdl

open Token Text Lexer Numeral Grammar

theorem isLetter_of_isDigit {c : Char} (h : c.isDigit) : IsLetter c :=
  Or.inl (by simp [isWordPart, Char.isAlphanum, h])

theorem isLetter_of_isFloat {cs : List Char} (h : IsFloat cs) : ∀ c ∈ cs, IsLetter c := by
  have hexponent : ∀ {cs : List Char}, IsExponent cs → ∀ c ∈ cs, IsLetter c := by
    rintro _ @⟨e, sign, digits, he, hs, hd, -⟩
    simp only [List.mem_cons, List.mem_append]
    rintro c (rfl | hc | hc)
    · rcases he with rfl | rfl <;> exact Or.inl (by decide)
    · rcases hs with rfl | rfl | rfl
      · cases hc
      · exact Or.inr (by simp_all)
      · exact Or.inr (by simp_all)
    · exact isLetter_of_isDigit (hd c hc)
  have hdecimal : ∀ {cs : List Char}, IsDecimal cs → ∀ c ∈ cs, IsLetter c := by
    intro cs h
    cases h with
    | point hw hf _ he =>
      simp only [List.mem_append, List.mem_cons]
      rintro c (hc | rfl | hc | hc)
      · exact isLetter_of_isDigit (hw c hc)
      · exact Or.inr (by simp)
      · exact isLetter_of_isDigit (hf c hc)
      · rcases he with rfl | he
        · cases hc
        · exact hexponent he c hc
    | scaled hw _ he =>
      simp only [List.mem_append]
      rintro c (hc | hc)
      · exact isLetter_of_isDigit (hw c hc)
      · exact hexponent he c hc
  cases h with
  | plain h => exact hdecimal h
  | minus h => exact List.forall_mem_cons.mpr ⟨Or.inr (by simp), hdecimal h⟩

theorem isLetter_of_isInteger {cs : List Char} (h : IsInteger cs) : ∀ c ∈ cs, IsLetter c := by
  have hwhole : ∀ {cs : List Char}, IsWhole cs → ∀ c ∈ cs, IsLetter c := by
    intro cs h
    cases h with
    | hex hx hd _ =>
      refine List.forall_mem_cons.mpr ⟨Or.inl (by decide), List.forall_mem_cons.mpr ⟨?_, ?_⟩⟩
      · rcases hx with rfl | rfl <;> exact Or.inl (by decide)
      · exact fun c hc => Or.inl (isWordPart_of_isHexDigit (hd c hc))
    | octal hd =>
      exact List.forall_mem_cons.mpr ⟨Or.inl (by decide),
        fun c hc => isLetter_of_isDigit (isDigit_of_isOctalDigit (hd c hc))⟩
    | decimal hd _ hs =>
      exact List.forall_mem_cons.mpr ⟨isLetter_of_isDigit hd,
        fun c hc => isLetter_of_isDigit (hs c hc)⟩
  cases h with
  | plain h => exact hwhole h
  | minus h => exact List.forall_mem_cons.mpr ⟨Or.inr (by simp), hwhole h⟩

theorem isWordPart_of_isWord {cs : List Char} (h : IsWord cs) : ∀ c ∈ cs, isWordPart c := by
  obtain ⟨hc, hcs⟩ := h
  exact List.forall_mem_cons.mpr ⟨isWordPart_of_isWordStart hc, hcs⟩

theorem IsName.forall_isWordPart {w : String} (hw : IsName w) : ∀ c ∈ w.toList, isWordPart c :=
  isWordPart_of_isWord hw.isWord

theorem IsName.toList_ne_nil {w : String} (hw : IsName w) : w.toList ≠ [] := by
  have hword := hw.isWord
  generalize w.toList = cs at hword
  cases hword
  exact List.cons_ne_nil _ _

namespace Token

variable {b : Bool} {t : Token} {ts us : List Token}

/-- Words and numerals are made of letters, strings are closed, and blanks are a piece of trivia,
which is a comment only where comments may occur. -/
def Fits (comments : Bool) (t : Token) : Prop :=
  match t.kind with
  | .other => True
  | .whitespace =>
    ∃ item : Trivia, t = item.token ∧ item.IsPiece ∧ (comments ∨ ∃ s, item = .whitespace s)
  | .string => ∃ s, '"' ∉ s.toList ∧ t = Spelling.quoted s
  | .identifier | .float | .integer => t.chars ≠ [] ∧ ∀ c ∈ t.chars, IsLetter c

theorem IsCut.exists_quoted (h : IsCut (t :: ts)) (hkind : t.kind = .string) :
    ∃ s, '"' ∉ s.toList ∧ t = Spelling.quoted s := by
  obtain ⟨body, hchars, hbody⟩ := h.exists_body hkind
  obtain ⟨kind, text⟩ := t
  obtain rfl : kind = .string := hkind
  have htext : text = (Spelling.quoted (String.ofList body)).text :=
    String.ext (by simpa [Spelling.quoted, chars] using hchars)
  exact ⟨String.ofList body, by simpa using hbody, congrArg (Token.mk .string) htext⟩

/-- What the lexer cuts fits. -/
theorem IsCut.fits (h : IsCut (t :: ts)) (hsolid : t.isWhitespace = false) : t.Fits b := by
  have hne := h.chars_ne_nil
  unfold Fits
  cases hkind : t.kind with
  | other => trivial
  | whitespace => simp [isWhitespace, hkind] at hsolid
  | string => exact h.exists_quoted hkind
  | identifier => exact ⟨hne, fun c hc => .inl (isWordPart_of_isWord (h.isWord hkind) c hc)⟩
  | float => exact ⟨hne, isLetter_of_isFloat (h.isFloat hkind)⟩
  | integer => exact ⟨hne, isLetter_of_isInteger (h.isInteger hkind)⟩

/-- Where no comments may occur there are none. -/
theorem Fits.not_isLineComment (h : t.Fits false) : t.isLineComment = false := by
  by_cases hblank : t.isWhitespace
  · unfold Fits at h
    rw [isWhitespace_iff.mp hblank] at h
    obtain ⟨item, rfl, hpiece, hspace⟩ := h
    obtain ⟨s, rfl⟩ := hspace.resolve_left (by simp)
    rw [Bool.eq_false_iff]
    intro hline
    obtain ⟨_, hs⟩ := exists_lineComment hpiece hline
    cases hs
  · simp [isLineComment, hblank]

/-- The blanks of the list fit. -/
def Pieced (comments : Bool) (ts : List Token) : Prop :=
  ∀ t ∈ ts, t.isWhitespace → t.Fits comments

@[simp] theorem pieced_nil : Pieced b [] :=
  fun _ ht => absurd ht List.not_mem_nil

theorem pieced_cons : Pieced b (t :: ts) ↔ (t.isWhitespace → t.Fits b) ∧ Pieced b ts :=
  List.forall_mem_cons

@[simp] theorem pieced_append : Pieced b (ts ++ us) ↔ Pieced b ts ∧ Pieced b us :=
  List.forall_mem_append

theorem pieced_cons_of_solid (hsolid : t.isWhitespace = false) :
    Pieced b (t :: ts) ↔ Pieced b ts := by
  simp [pieced_cons, hsolid]

@[simp] theorem pieced_word (w : String) : Pieced b (word w :: ts) ↔ Pieced b ts :=
  pieced_cons_of_solid rfl

@[simp] theorem pieced_mark (m : String) : Pieced b (mark m :: ts) ↔ Pieced b ts :=
  pieced_cons_of_solid rfl

@[simp] theorem pieced_quoted (s : String) : Pieced b (Spelling.quoted s :: ts) ↔ Pieced b ts :=
  pieced_cons_of_solid rfl

@[simp] theorem pieced_space : Pieced b (Spelling.space :: ts) ↔ Pieced b ts := by
  have hspace : Spelling.space.Fits b :=
    ⟨.whitespace " ", rfl, .blanks (by simp) (by simp [isBlank]), .inr ⟨_, rfl⟩⟩
  simp [pieced_cons, hspace]

@[simp] theorem pieced_flatMap {α : Type} {f : α → List Token} {l : List α} :
    Pieced b (l.flatMap f) ↔ ∀ x ∈ l, Pieced b (f x) := by
  simp only [Pieced, List.mem_flatMap]
  exact ⟨fun h x hx t ht => h t ⟨x, hx, ht⟩, fun h t ⟨x, hx, ht⟩ => h x hx t ht⟩

theorem pieced_joined {α : Type} {s : List Token} {f : α → List Token} {l : List α}
    (hs : Pieced b s) (h : ∀ x ∈ l, Pieced b (f x)) : Pieced b (Spelling.joined s (l.map f)) := by
  cases l with
  | nil => exact pieced_nil
  | cons x xs =>
    obtain ⟨hx, hxs⟩ := List.forall_mem_cons.mp h
    rw [List.map_cons, Spelling.joined_cons, List.flatMap_map, pieced_append, pieced_flatMap]
    exact ⟨hx, fun y hy => pieced_append.mpr ⟨hs, hxs y hy⟩⟩

theorem Pieced.not_isLineComment (h : Pieced false ts) : ∀ t ∈ ts, t.isLineComment = false := by
  intro t ht
  by_cases hblank : t.isWhitespace
  · exact (h t ht hblank).not_isLineComment
  · simp [isLineComment, hblank]

/-- All tokens of a list that is cut as it stands fit, if its blanks do. -/
theorem Lexable.fits (h : Lexable (ts ++ us)) (hts : Pieced b ts) : ∀ t ∈ ts, t.Fits b := by
  obtain ⟨⟨vs, hcut, hspaced, -, -⟩, -⟩ := h
  intro t ht
  by_cases hblank : t.isWhitespace
  · exact hts t ht hblank
  · rw [Bool.not_eq_true] at hblank
    have hmem : t ∈ solids vs := by
      rw [solids_eq_of_spaced_eq hspaced]
      exact List.mem_filter.mpr ⟨List.mem_append_left us ht, by simp [hblank]⟩
    exact (hcut.of_mem (List.mem_filter.mp hmem).1).fits hblank

end Token

namespace Spelling

variable {d : Dialect} {b : Bool}

@[simp] theorem pieced_wordIf (flag : Bool) (w : String) : Pieced b (wordIf flag w) := by
  cases flag <;> simp [wordIf]

@[simp] theorem pieced_words (ws : List String) : Pieced b (words ws) :=
  pieced_joined (by simp) (by simp)

@[simp] theorem pieced_ofSuffix (s : Suffix) : Pieced b (ofSuffix s) := by
  have hquestion : ∀ flag : Bool, Pieced b (if flag then [mark "?"] else []) := by
    intro flag
    cases flag <;> simp
  simp [ofSuffix, hquestion]

mutual

@[simp] theorem pieced_ofType : (t : IdlType) → Pieced b (ofType t)
  | .primitive p s => by simp [ofType]
  | .named name s => by simp [ofType]
  | .generic name inner s => by simp [ofType, pieced_ofType inner]
  | .union members s => by simp [ofType, pieced_ofMembers members]

theorem pieced_ofMembers : (ts : List IdlType) → Pieced b (ofMembers ts)
  | [] => pieced_nil
  | [t] => pieced_ofType t
  | t :: u :: rest => by simp [ofMembers, pieced_ofType t, pieced_ofMembers (u :: rest)]

end

theorem solid_ofLiteral (l : Literal) : ∀ t ∈ ofLiteral l, t.isWhitespace = false := by
  cases l with
  | boolean b => cases b <;> exact List.forall_mem_singleton.mpr rfl
  | infinity negative =>
    cases negative with
    | false => exact List.forall_mem_singleton.mpr rfl
    | true => exact List.forall_mem_cons.mpr ⟨rfl, List.forall_mem_singleton.mpr rfl⟩
  | number s => exact List.forall_mem_singleton.mpr (isWhitespace_ofNumeral s)
  | emptySequence => exact List.forall_mem_cons.mpr ⟨rfl, List.forall_mem_singleton.mpr rfl⟩
  | _ => exact List.forall_mem_singleton.mpr rfl

theorem ofLiteral_ne_nil (l : Literal) : ofLiteral l ≠ [] := by
  cases l with
  | boolean b => cases b <;> exact List.cons_ne_nil _ _
  | infinity negative => cases negative <;> exact List.cons_ne_nil _ _
  | _ => exact List.cons_ne_nil _ _

theorem finished_ofLiteral (l : Literal) : Finished (ofLiteral l) :=
  finished_of_forall (ofLiteral_ne_nil l) (solid_ofLiteral l)

@[simp] theorem pieced_ofLiteral (l : Literal) : Pieced b (ofLiteral l) := by
  intro t ht hblank
  rw [solid_ofLiteral l t ht] at hblank
  cases hblank

@[simp] theorem pieced_ofDefault (o : Option Literal) : Pieced b (ofDefault o) := by
  cases o <;> simp [ofDefault]

@[simp] theorem pieced_ofValue (v : AttributeValue) : Pieced b (ofValue v) := by
  cases v with
  | absent => exact pieced_nil
  | identifier name => simp [ofValue]
  | identifierList names =>
    have hnames : Pieced b (joined [mark ","] (names.map fun n => [word n])) :=
      pieced_joined (by simp) (by simp)
    simp [ofValue, hnames]

theorem pieced_trivia {items : List Trivia} (h : d.Keeps items) :
    Pieced d.keepTrivia (trivia items) := by
  have hpieces := h.settled.1.isPiece
  intro t ht _
  obtain ⟨item, hitem, rfl⟩ := List.mem_map.mp ht
  rw [Dialect.Keeps] at h
  split at h
  · next hkept => exact ⟨item, rfl, hpieces item hitem, .inl hkept⟩
  · rw [h] at hitem
    cases hitem

theorem pieced_bracketed {es : List ExtendedAttribute} {items : List Trivia}
    (hes : ∀ e ∈ es, Pieced d.keepTrivia (ofAttribute e)) (hitems : d.Keeps items) :
    Pieced d.keepTrivia (bracketed (ofAttributes es) items) := by
  have hattributes : Pieced d.keepTrivia (ofAttributes es) := by
    cases es with
    | nil => exact pieced_nil
    | cons e es => simpa [ofAttributes_cons] using hes
  have hbehind := pieced_trivia hitems
  rw [bracketed]
  split
  · exact hbehind
  · split <;> simp [hattributes, hbehind]

theorem pieced_ofArguments {as : List Argument}
    (has : ∀ a ∈ as, Pieced b (ofArgument a)) : Pieced b (ofArguments as) := by
  have hmore : ∀ as : List Argument, (∀ a ∈ as, Pieced b (ofArgument a)) →
      Pieced b (ofMoreArguments as) := by
    intro as has
    induction as with
    | nil => exact pieced_nil
    | cons a as ih =>
      obtain ⟨ha, has⟩ := List.forall_mem_cons.mp has
      have hspace : Pieced b (if a.leading.isEmpty then [space] else []) := by split <;> simp
      simp only [ofMoreArguments, pieced_append, pieced_mark]
      exact ⟨⟨hspace, ha⟩, ih has⟩
  cases as with
  | nil => exact pieced_nil
  | cons a as =>
    obtain ⟨ha, has⟩ := List.forall_mem_cons.mp has
    exact pieced_append.mpr ⟨ha, hmore as has⟩

mutual

theorem pieced_ofAttribute : ∀ {e : ExtendedAttribute}, e.WellFormed d →
    Pieced d.keepTrivia (ofAttribute e)
  | e, .intro _ _ hparameters => by
    simp [ofAttribute_eq, pieced_ofParameters hparameters]

theorem pieced_ofParameters : ∀ {p : AttributeParameters}, p.WellFormed d →
    Pieced d.keepTrivia (ofParameters p)
  | .absent, _ => pieced_nil
  | .arguments _, .arguments hargs => by
    have hlist := pieced_ofArguments fun a ha => pieced_ofArgument (hargs a ha)
    simp [ofParameters, hlist]
  | .typePair _ _, .typePair _ _ => by simp [ofParameters]

theorem pieced_ofArgument : ∀ {a : Argument}, a.WellFormed d → Pieced d.keepTrivia (ofArgument a)
  | a, .intro hattributes hafter _ hleading htrailing _ _ _ _ _ _ => by
    have hbracketed := pieced_bracketed (fun e he => pieced_ofAttribute (hattributes e he)) hafter
    have hpoints : Pieced d.keepTrivia
        (if a.variadic then [mark ".", mark ".", mark "."] else []) := by
      split <;> simp
    simp [ofArgument_eq, argumentBody, hbracketed, hpoints, pieced_trivia hleading,
      pieced_trivia htrailing]

end

theorem pieced_annotated {es : List ExtendedAttribute} {items : List Trivia}
    (hes : Annotated d es items) :
    Pieced d.keepTrivia (bracketed (ofAttributes es) items) :=
  pieced_bracketed (fun e he => pieced_ofAttribute (hes.attributes e he)) hes.after

end Spelling

end WebIdl

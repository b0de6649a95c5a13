import WebIdl.Proofs.Printing.Phrases

/-!
# The printer and the lexer on what is code

The printer looks for separators in a text by a scan of its own, which knows of strings, comments
and brackets. It finds the `;` tokens of the lexer that stand outside of brackets, and no other
semicolon, where every quote and every comment is answered and every line comment is ended by a line
feed. The lexer lets a carriage return end a line comment as well, and behind one that no line feed
follows the two do not agree.
-/

namespace WebIdl

open Token Text Lexer

namespace Token

/-- The number of open brackets behind a token. A closing bracket that answers none is passed. -/
def depthBehind (depth : Nat) (t : Token) : Nat :=
  if t ∈ [mark "(", mark "[", mark "\x7b"] then depth + 1
  else if t ∈ [mark ")", mark "]", mark "\x7d"] then depth - 1
  else depth

/-- The byte offsets of the `;` tokens outside of brackets. -/
def semicolonsFrom (depth offset : Nat) : List Token → List Nat
  | [] => []
  | t :: ts =>
    let others := semicolonsFrom (depthBehind depth t) (offset + utf8Size t.chars) ts
    if depth = 0 ∧ t = mark ";" then offset :: others else others

theorem eq_mark {t : Token} {m : String} (hk : t.kind = .other) (ht : t.chars = m.toList) :
    t = mark m := by
  obtain ⟨kind, text⟩ := t
  cases hk
  exact congrArg mark (String.toList_inj.mp ht)

theorem depthBehind_of_kind {t : Token} (h : t.kind ≠ .other) (k : Nat) : depthBehind k t = k := by
  have hmark : ∀ ms : List String, t ∉ ms.map mark := by
    intro ms hmem
    obtain ⟨m, -, rfl⟩ := List.mem_map.mp hmem
    exact h rfl
  have hopening : t ∉ [mark "(", mark "[", mark "\x7b"] := hmark ["(", "[", "\x7b"]
  have hclosing : t ∉ [mark ")", mark "]", mark "\x7d"] := hmark [")", "]", "\x7d"]
  rw [depthBehind, if_neg hopening, if_neg hclosing]

theorem mem_marks_iff {c : Char} {cs : List Char} :
    (⟨.other, String.ofList [c]⟩ : Token) ∈ cs.map (fun d => mark (String.ofList [d])) ↔
      c ∈ cs := by
  constructor
  · intro h
    obtain ⟨d, hd, heq⟩ := List.mem_map.mp h
    have hchars : [d] = [c] := String.ofList_injective (Token.mk.inj heq).2
    cases hchars
    exact hd
  · intro h
    exact List.mem_map.mpr ⟨c, h, rfl⟩

/-- The lexer and the printer count brackets alike. -/
theorem depthBehind_symbol {t : Token} {c : Char} (hk : t.kind = .other) (ht : t.chars = [c])
    (k : Nat) : depthBehind k t = Layout.depthAfter k c := by
  obtain rfl : t = ⟨.other, String.ofList [c]⟩ := eq_mark hk (by rw [ht, String.toList_ofList])
  have hopening : Layout.isOpening c = true ↔ c ∈ ['(', '[', '\x7b'] := by
    simp [Layout.isOpening, or_assoc]
  have hclosing : Layout.isClosing c = true ↔ c ∈ [')', ']', '\x7d'] := by
    simp [Layout.isClosing, or_assoc]
  simp only [Layout.depthAfter, hopening, hclosing, ← mem_marks_iff]
  rfl

end Token

namespace Trivia

/-- Every line comment that another piece follows is ended by a line feed. -/
def Fed : List Trivia → Prop
  | [] => True
  | lineComment _ :: whitespace s :: items => '\n' ∈ s.toList ∧ Fed items
  | lineComment _ :: _ :: _ => False
  | _ :: items => Fed items

instance decidableFed : (items : List Trivia) → Decidable (Fed items)
  | [] | [lineComment _] => isTrue trivial
  | lineComment _ :: whitespace _ :: items =>
    have := decidableFed items
    inferInstanceAs (Decidable (_ ∧ _))
  | lineComment _ :: lineComment _ :: _ | lineComment _ :: blockComment _ :: _ => isFalse id
  | whitespace _ :: items | blockComment _ :: items => decidableFed items

theorem not_closed_concat (items : List Trivia) (s : String) :
    ¬Closed (items ++ [lineComment s]) := by
  induction items with
  | nil => exact id
  | cons t items ih => exact fun h => ih h.tail

/-- Only a line comment at the end may be open. -/
theorem Fed.lineFed_or_open {items : List Trivia} (hpieces : ∀ t ∈ items, t.IsPiece)
    (h : Fed items) :
    LineFed (Spelling.trivia items) ∨
      ∃ pre s, items = pre ++ [lineComment s] ∧ LineFed (Spelling.trivia pre) := by
  have hclosed : ∀ {t : Trivia} {items : List Trivia}, t.IsPiece → (∀ s, t ≠ lineComment s) →
      LineFed (Spelling.trivia items) → LineFed (Spelling.trivia (t :: items)) := by
    intro t items ht hne hfed
    refine ⟨fun hline => ?_, hfed⟩
    obtain ⟨s, rfl⟩ := exists_lineComment ht hline
    exact absurd rfl (hne s)
  fun_induction Fed items with
  | case1 => exact Or.inl trivial
  | case2 s u items ih =>
    obtain ⟨hfeed, h⟩ := h
    obtain ⟨-, hu, hitems⟩ := (List.forall_mem_cons.mp hpieces).imp_right List.forall_mem_cons.mp
    have hline : (whitespace u).token.isLineFeed := by
      cases hu with
      | blanks hne hb => simpa [isLineFeed, isWhitespace, Trivia.token, blank, Token.chars, text,
          hfeed] using hb
    have hend : ∀ ts : List Token, ∃ v ∈ ((whitespace u).token :: ts).head?, v.isLineFeed :=
      fun _ => ⟨_, rfl, hline⟩
    rcases ih hitems h with hfed | ⟨pre, s', rfl, hfed⟩
    · exact Or.inl ⟨fun _ => hend _, hclosed hu (by simp) hfed⟩
    · exact Or.inr ⟨lineComment s :: whitespace u :: pre, s', rfl, fun _ => hend _,
        hclosed hu (by simp) hfed⟩
  | case3 => exact h.elim
  | case4 t items hend hline ih =>
    obtain ⟨ht, hitems⟩ := List.forall_mem_cons.mp hpieces
    cases t with
    | lineComment s =>
      cases items with
      | nil => exact Or.inr ⟨[], s, rfl, trivial⟩
      | cons u items => exact (hline s u items rfl rfl).elim
    | whitespace | blockComment =>
      rcases ih hitems h with hfed | ⟨pre, s', rfl, hfed⟩
      · exact Or.inl (hclosed ht (by simp) hfed)
      · exact Or.inr ⟨_ :: pre, s', rfl, hclosed ht (by simp) hfed⟩

end Trivia

namespace Layout

variable {wanted : Char → Bool} {fs gs : List (Char × Bool)} {cs rest : List Char}

theorem offsetsFrom_append (wanted : Char → Bool) (offset : Nat) (fs gs : List (Char × Bool)) :
    offsetsFrom wanted offset (fs ++ gs) =
      offsetsFrom wanted offset fs ++
        offsetsFrom wanted (offset + utf8Size (fs.map Prod.fst)) gs := by
  induction fs generalizing offset with
  | nil => rfl
  | cons f fs ih =>
    obtain ⟨c, exposed⟩ := f
    rw [List.cons_append, offsetsFrom, offsetsFrom, ih, List.map_cons, utf8Size, Nat.add_assoc]
    dsimp only
    split
    · rfl
    · rfl

theorem offsetsFrom_eq_nil (offset : Nat) (h : ∀ f ∈ fs, f.2 → wanted f.1 = false) :
    offsetsFrom wanted offset fs = [] := by
  induction fs generalizing offset with
  | nil => rfl
  | cons f fs ih =>
    obtain ⟨c, exposed⟩ := f
    obtain ⟨hf, hfs⟩ := List.forall_mem_cons.mp h
    have hskip : (exposed && wanted c) = false := by
      cases exposed with
      | false => rfl
      | true => exact hf rfl
    rw [offsetsFrom, ih _ hfs, hskip]
    rfl

/-- Nothing is found in a text that exposes nothing wanted. -/
theorem offsetsFrom_passes {P : Char → Prop} (h : Passes P cs) (hP : ∀ c, P c → wanted c = false)
    (k offset : Nat) :
    offsetsFrom wanted offset (expose (.code k) (cs ++ rest)) =
      offsetsFrom wanted (offset + utf8Size cs) (expose (.code k) rest) := by
  obtain ⟨fs, heq, hmap, hfs⟩ := h k rest
  rw [heq, offsetsFrom_append, hmap, offsetsFrom_eq_nil offset, List.nil_append]
  exact fun f hf hexposed => hP f.1 (hfs f hf hexposed).2

/-- A line comment hides all the rest where no line feed ends it. -/
theorem offsetsFrom_openComment (hcs : '\n' ∉ cs) (k offset : Nat) :
    offsetsFrom wanted offset (expose (.code k) ('/' :: '/' :: cs)) = [] := by
  have hhidden : ∀ {cs : List Char}, '\n' ∉ cs →
      expose (.lineComment k) cs = cs.map (·, false) := by
    intro cs hcs
    induction cs with
    | nil => rfl
    | cons c cs ih =>
      rw [List.mem_cons, not_or] at hcs
      rw [expose, if_neg (Ne.symm hcs.1), ih hcs.2, List.map_cons]
  rw [expose, hhidden hcs]
  apply offsetsFrom_eq_nil
  simp

/-- A slash that opens no comment. -/
theorem expose_slash (k : Nat) (h : ∀ c ∈ rest.head?, c ≠ '/' ∧ c ≠ '*') :
    expose (.code k) ('/' :: rest) = ('/', k == 0) :: expose (.code k) rest := by
  have hclosing : isClosing '/' = false := rfl
  rw [expose]
  · rw [if_neg (by decide), hclosing]
    simp [depthAfter, isOpening, isClosing]
  · rintro tail - rfl
    exact (h '/' rfl).1 rfl
  · rintro tail - rfl
    exact (h '*' rfl).2 rfl

end Layout

namespace Token

variable {t : Token} {ts : List Token}

/-- A slash is a token of its own only where no comment begins with it. -/
theorem IsCut.head?_behind_slash (h : IsCut (t :: ts)) (hk : t.kind = .other) (ht : t.chars = ['/'])
    (hstar : ts.head? ≠ some (mark "*")) : ∀ c ∈ (sourceChars ts).head?, c ≠ '/' ∧ c ≠ '*' := by
  intro c hc
  constructor
  · rintro rfl
    obtain ⟨tail, htail⟩ := List.head?_eq_some_iff.mp hc
    have hcomment : commentLength ('/' :: '/' :: tail) ≠ 0 := by
      rw [commentLength]
      omega
    have hlength : whitespaceLength ('/' :: '/' :: tail) ≠ 0 := by
      intro hzero
      exact hcomment (whitespaceLength_eq_zero_iff.mp hzero).2
    cases h with
    | cons htaken _ =>
      rw [ht, htail, hk, List.singleton_append, lexeme?_whitespace hlength] at htaken
      cases htaken
  · rintro rfl
    cases ts with
    | nil => cases hc
    | cons u us =>
      have hu := h.tail
      obtain ⟨d, ds, hd⟩ := List.exists_cons_of_ne_nil hu.chars_ne_nil
      obtain rfl : d = '*' := by
        rw [sourceChars_cons, hd] at hc
        exact Option.some.inj hc
      cases hu with
      | cons htaken _ =>
        rw [hd, List.cons_append, lexeme?_mark (by decide)] at htaken
        obtain ⟨hkind, hlength⟩ := Prod.mk.inj (Option.some.inj htaken)
        obtain rfl : ds = [] := List.length_eq_zero_iff.mp (by simpa using hlength.symm)
        exact hstar (congrArg some (eq_mark hkind.symm hd))

/-- The scan gets over white space and comments. A line comment that is left open reaches to the end
of the text. -/
theorem IsCut.offsetsFrom_whitespace (h : IsCut (t :: ts)) (hkind : t.kind = .whitespace)
    (hfed : Trivia.Fed (Trivia.ofText t.text)) (k offset : Nat) :
    Layout.offsetsFrom (· == ';') offset (Layout.expose (.code k) (sourceChars (t :: ts))) =
      Layout.offsetsFrom (· == ';') (offset + utf8Size t.chars)
        (Layout.expose (.code k) (sourceChars ts)) := by
  obtain ⟨items, hitems, -, hleads⟩ := h.exists_run hkind
  have hpieces := hleads.run.isPiece
  have hfed : Trivia.Fed items := by
    rwa [Trivia.ofText, ← Token.chars, hitems, Trivia.pieces_chars hleads.run] at hfed
  have hwhite : ∀ c, isWhiteSpace c → (c == ';') = false := by
    rintro c hc
    apply beq_false_of_ne
    rintro rfl
    exact absurd hc (by decide)
  rw [sourceChars_cons, hitems, ← sourceChars_trivia]
  rcases hfed.lineFed_or_open hpieces with hline | ⟨pre, s, rfl, hline⟩
  · exact Layout.offsetsFrom_passes (passes_pieces hpieces hline) hwhite k offset
  · have hend : sourceChars ts = [] :=
      hleads.closed.resolve_left (Trivia.not_closed_concat pre s)
    have hpre := passes_pieces (fun u hu => hpieces u (List.mem_append_left _ hu)) hline
    have hs : '\n' ∉ s.toList := by
      have hpiece := hpieces (.lineComment s) (by simp)
      cases hpiece with
      | line hs => exact fun hmem => absurd (hs _ hmem) (by decide)
    have hsource : sourceChars (Spelling.trivia (pre ++ [.lineComment s])) =
        sourceChars (Spelling.trivia pre) ++ '/' :: '/' :: s.toList := by
      simp [sourceChars_trivia, Trivia.chars]
    rw [hend, List.append_nil, hsource, Layout.offsetsFrom_passes hpre hwhite,
      Layout.offsetsFrom_openComment hs]
    rfl

/-- The scan gets over a token that is no symbol. -/
theorem IsCut.offsetsFrom_phrase (h : IsCut (t :: ts)) (hk : t.kind ≠ .other)
    (hfed : t.isWhitespace → Trivia.Fed (Trivia.ofText t.text)) (k offset : Nat) :
    Layout.offsetsFrom (· == ';') offset (Layout.expose (.code k) (sourceChars (t :: ts))) =
      Layout.offsetsFrom (· == ';') (offset + utf8Size t.chars)
        (Layout.expose (.code k) (sourceChars ts)) := by
  have hletters : (∀ c ∈ t.chars, IsLetter c) → Layout.Passes (· ≠ ';') t.chars := by
    intro ht
    apply Layout.passes_plain
    intro c hc
    obtain ⟨hplain, hseparators⟩ := isPlain_of_isLetter (ht c hc)
    exact ⟨hplain, fun heq => hseparators (by simp [separators, heq])⟩
  have hpasses := fun (hpass : Layout.Passes (· ≠ ';') t.chars) =>
    @Layout.offsetsFrom_passes (· == ';') t.chars (sourceChars ts) _ hpass
      (fun c hc => beq_false_of_ne hc) k offset
  cases hkind : t.kind with
  | other => exact absurd hkind hk
  | float => exact hpasses (hletters (isLetter_of_isFloat (h.isFloat hkind)))
  | integer => exact hpasses (hletters (isLetter_of_isInteger (h.isInteger hkind)))
  | identifier =>
    apply hpasses
    apply hletters
    intro c hc
    exact Or.inl (isWordPart_of_isWord (h.isWord hkind) c hc)
  | string =>
    obtain ⟨body, hbody, hquote⟩ := h.exists_body hkind
    rw [hbody] at hpasses
    rw [sourceChars_cons, hbody]
    exact hpasses (Layout.passes_string hquote)
  | whitespace => exact h.offsetsFrom_whitespace hkind (hfed (isWhitespace_iff.mpr hkind)) k offset

/-- What one token adds to the places of semicolons. -/
theorem IsCut.offsetsFrom_step (h : IsCut (t :: ts)) (hquote : t ≠ mark "\"")
    (hslash : t = mark "/" → ts.head? ≠ some (mark "*"))
    (hfed : t.isWhitespace → Trivia.Fed (Trivia.ofText t.text)) (k offset : Nat) :
    Layout.offsetsFrom (· == ';') offset (Layout.expose (.code k) (sourceChars (t :: ts))) =
      (if k = 0 ∧ t = mark ";" then [offset] else []) ++
        Layout.offsetsFrom (· == ';') (offset + utf8Size t.chars)
          (Layout.expose (.code (depthBehind k t)) (sourceChars ts)) := by
  by_cases hk : t.kind = .other
  · obtain ⟨c, hc, -⟩ := h.exists_symbol hk
    have hexpose : Layout.expose (.code k) (sourceChars (t :: ts)) =
        (c, k == 0 && !Layout.isClosing c) ::
          Layout.expose (.code (depthBehind k t)) (sourceChars ts) := by
      rw [depthBehind_symbol hk hc, sourceChars_cons, hc, List.singleton_append]
      by_cases hcslash : c = '/'
      · subst hcslash
        have ht : t = mark "/" := eq_mark hk hc
        rw [Layout.expose_slash k (h.head?_behind_slash hk hc (hslash ht))]
        simp [Layout.isClosing, Layout.depthAfter, Layout.isOpening]
      · apply Layout.expose_code_of_ne k _ hcslash
        rintro rfl
        exact hquote (eq_mark hk hc)
    have hsemicolon : t = mark ";" ↔ c = ';' := by
      constructor
      · rintro rfl
        exact (List.singleton_inj.mp hc).symm
      · rintro rfl
        exact eq_mark hk hc
    have hsize : utf8Size t.chars = c.utf8Size := by rw [hc]; rfl
    rw [hexpose, Layout.offsetsFrom, hsize]
    by_cases hcs : c = ';'
    · by_cases hzero : k = 0
      · simp [hzero, hsemicolon, hcs, Layout.isClosing]
      · simp [hzero]
    · simp [hsemicolon, hcs]
  · have hne : t ≠ mark ";" := by
      rintro rfl
      exact hk rfl
    rw [h.offsetsFrom_phrase hk hfed, depthBehind_of_kind hk, if_neg (fun hand => hne hand.2),
      List.nil_append]

theorem IsCut.offsetsFrom_eq (h : IsCut ts) (hquote : mark "\"" ∉ ts)
    (hslash : ¬[mark "/", mark "*"] <:+: ts)
    (hfed : ∀ t ∈ ts, t.isWhitespace → Trivia.Fed (Trivia.ofText t.text)) (k offset : Nat) :
    Layout.offsetsFrom (· == ';') offset (Layout.expose (.code k) (sourceChars ts)) =
      semicolonsFrom k offset ts := by
  induction ts generalizing k offset with
  | nil => rfl
  | cons t ts ih =>
    obtain ⟨ht, hts⟩ := List.forall_mem_cons.mp hfed
    rw [List.mem_cons, not_or] at hquote
    have hstar : t = mark "/" → ts.head? ≠ some (mark "*") := by
      rintro rfl hhead
      obtain ⟨tail, rfl⟩ := List.head?_eq_some_iff.mp hhead
      exact hslash ⟨[], tail, rfl⟩
    have hbehind : ¬[mark "/", mark "*"] <:+: ts := fun hmem =>
      hslash (hmem.trans (List.suffix_cons t ts).isInfix)
    rw [h.offsetsFrom_step (Ne.symm hquote.1) hstar ht, ih h.tail hquote.2 hbehind hts,
      semicolonsFrom]
    split
    · rfl
    · rfl

end Token

namespace Layout

/-- The separators that the printer finds are the `;` tokens outside of brackets. -/
theorem topLevelOffsets_eq_semicolonsFrom {text : String} {ts : List Token}
    (h : tokenize text = .ok ts) (hquote : mark "\"" ∉ ts)
    (hslash : ¬[mark "/", mark "*"] <:+: ts)
    (hfed : ∀ t ∈ ts, t.isWhitespace → Trivia.Fed (Trivia.ofText t.text)) :
    topLevelOffsets (· == ';') text = semicolonsFrom 0 0 ts := by
  obtain ⟨hcut, hsource⟩ := tokenize_eq_ok_iff.mp h
  rw [topLevelOffsets, exposure, ← hsource, hcut.offsetsFrom_eq hquote hslash hfed]

/-- Semicolons in brackets, strings and comments, and behind a character of two bytes. -/
theorem topLevelOffsets_eq_semicolonsFrom_hidden :
    topLevelOffsets (· == ';') "a(;\";)\");/* \";*/\x7dé;// ;\r\n;" =
      semicolonsFrom 0 0 [word "a", mark "(", mark ";", ⟨.string, "\";)\""⟩, mark ")", mark ";",
        blank "/* \";*/", mark "\x7d", mark "é", mark ";", blank "// ;\r\n", mark ";"] :=
  topLevelOffsets_eq_semicolonsFrom (by decide +kernel) (by decide) (by decide +kernel)
    (by decide +kernel)

/-- The line comment ends at the carriage return for the lexer, and goes on for the printer. -/
theorem topLevelOffsets_ne_semicolonsFrom :
    ∃ ts, tokenize "a;// x\rb;c;" = .ok ts ∧ mark "\"" ∉ ts ∧ ¬[mark "/", mark "*"] <:+: ts ∧
      topLevelOffsets (· == ';') "a;// x\rb;c;" ≠ semicolonsFrom 0 0 ts :=
  ⟨[word "a", mark ";", blank "// x\r", word "b", mark ";", word "c", mark ";"], by decide +kernel,
    by decide, by decide +kernel, by decide +kernel⟩

end Layout

end WebIdl

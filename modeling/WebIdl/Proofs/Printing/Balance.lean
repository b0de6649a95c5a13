import WebIdl.Proofs.Printing.Scanning
import WebIdl.Proofs.Lexing.Lexable

/-!
# Balanced token lists

In a balanced list brackets come in pairs. The scan for exposed characters gets over the text of
such a list if each line comment in it is ended by a line feed, which is not all that the lexer
asks for: there a carriage return ends a line comment too.
-/

namespace WebIdl

open Text Lexer Numeral

/-- A piece of a run. -/
inductive Trivia.IsPiece : Trivia → Prop
  | blanks {s : String} (hne : s.toList ≠ []) (hb : ∀ c ∈ s.toList, isBlank c) :
      IsPiece (whitespace s)
  | line {s : String} (hs : ∀ c ∈ s.toList, isLineBreak c = false) : IsPiece (lineComment s)
  | block {s : String} (hs : CommentBody s.toList) : IsPiece (blockComment s)

theorem Trivia.IsRun.isPiece {items : List Trivia} (h : IsRun items) : ∀ t ∈ items, t.IsPiece := by
  induction h with
  | nil => simp
  | blanks hne hb _ _ ih => exact List.forall_mem_cons.mpr ⟨.blanks hne hb, ih⟩
  | line hs _ _ ih => exact List.forall_mem_cons.mpr ⟨.line hs, ih⟩
  | block hs _ ih => exact List.forall_mem_cons.mpr ⟨.block hs, ih⟩

namespace Token

def isLineComment (t : Token) : Bool :=
  t.isWhitespace && ['/', '/'].isPrefixOf t.chars

/-- Blanks with a line feed among them. -/
def isLineFeed (t : Token) : Bool :=
  t.isWhitespace && t.chars.all isBlank && t.chars.contains '\n'

/-- A line feed follows each line comment, with nothing but blanks in between. -/
def LineFed : List Token → Prop
  | [] => True
  | t :: ts => (t.isLineComment → ∃ u ∈ ts.head?, u.isLineFeed) ∧ LineFed ts

instance decidableLineFed : (ts : List Token) → Decidable (LineFed ts)
  | [] => isTrue trivial
  | _ :: ts =>
    have := decidableLineFed ts
    inferInstanceAs (Decidable (_ ∧ _))

theorem LineFed.of_append {ts us : List Token} (h : LineFed (ts ++ us)) : LineFed us := by
  induction ts with
  | nil => exact h
  | cons t ts ih => exact ih h.2

/-- In front of a token that is not blank no line comment is open. -/
theorem LineFed.left {ts us : List Token} (h : LineFed (ts ++ us))
    (hus : ∀ u ∈ us.head?, u.isWhitespace = false) : LineFed ts := by
  induction ts with
  | nil => trivial
  | cons t ts ih =>
    refine ⟨fun ht => ?_, ih h.2⟩
    obtain ⟨u, hu, hfeed⟩ := h.1 ht
    cases ts with
    | nil =>
      have hsolid := hus u (by simpa using hu)
      simp [isLineFeed, hsolid] at hfeed
    | cons v ts => exact ⟨u, hu, hfeed⟩

/-- The characters at which the printer cuts. -/
def separators : List Char :=
  [';', ',', '=', '\x7b']

/-- The symbols of written lists, brackets apart. -/
def symbols : List Char :=
  [';', ',', '=', ':', '?', '<', '>', '.', '-']

/-- A character of a word or of a numeral. -/
def IsLetter (c : Char) : Prop :=
  isWordPart c ∨ c ∈ ['.', '-', '+']

/-- Brackets come in pairs, and none of the characters stands outside of them. Comments occur only
where they may. -/
inductive Balanced (comments : Bool) : List Char → List Token → Prop
  | nil {W : List Char} : Balanced comments W []
  | letters {W : List Char} {t : Token} {ts : List Token} (hsolid : t.isWhitespace = false)
      (hkind : t.kind ≠ .string) (hne : t.chars ≠ []) (ht : ∀ c ∈ t.chars, IsLetter c)
      (h : Balanced comments W ts) : Balanced comments W (t :: ts)
  | symbol {W : List Char} {m : String} {c : Char} {ts : List Token} (hm : m.toList = [c])
      (hc : c ∈ symbols) (hW : c ∉ W) (h : Balanced comments W ts) :
      Balanced comments W (mark m :: ts)
  | quoted {W : List Char} {s : String} {ts : List Token} (hs : '"' ∉ s.toList)
      (h : Balanced comments W ts) : Balanced comments W (Spelling.quoted s :: ts)
  | trivia {W : List Char} {t : Trivia} {ts : List Token} (ht : t.IsPiece)
      (hc : comments ∨ ∃ s, t = .whitespace s) (h : Balanced comments W ts) :
      Balanced comments W (t.token :: ts)
  | group {W : List Char} {m n : String} {o e : Char} {us ts : List Token} (hm : m.toList = [o])
      (hn : n.toList = [e]) (hb : (o, e) ∈ Layout.brackets) (hW : o ∉ W)
      (hus : Balanced comments [] us) (h : Balanced comments W ts) :
      Balanced comments W (mark m :: (us ++ mark n :: ts))

variable {b : Bool} {W V : List Char} {ts us : List Token}

theorem Balanced.mono (h : Balanced b W ts) (hVW : V ⊆ W) : Balanced b V ts := by
  induction h with
  | nil => exact .nil
  | letters hsolid hkind hne ht _ ih => exact .letters hsolid hkind hne ht (ih hVW)
  | symbol hm hc hW _ ih => exact .symbol hm hc (fun hV => hW (hVW hV)) (ih hVW)
  | quoted hs _ ih => exact .quoted hs (ih hVW)
  | trivia ht hc _ ih => exact .trivia ht hc (ih hVW)
  | group hm hn hb hW hus _ _ ih => exact .group hm hn hb (fun hV => hW (hVW hV)) hus (ih hVW)

theorem isPlain_of_isLetter {c : Char} (h : IsLetter c) : Layout.IsPlain c ∧ c ∉ separators := by
  have hne : ∀ d, IsLetter d → d ∉ ['"', '/', '(', '[', '\x7b', ')', ']', '\x7d'] ++ separators := by
    intro d hd hmem
    simp only [separators, List.cons_append, List.nil_append, List.mem_cons, List.not_mem_nil,
      or_false] at hmem
    rcases hmem with rfl | rfl | rfl | rfl | rfl | rfl | rfl | rfl | rfl | rfl | rfl | rfl <;>
      rcases hd with hd | hd <;> revert hd <;> decide
  have hc := hne c h
  simp only [List.mem_append, not_or] at hc
  refine ⟨?_, hc.2⟩
  have hc := hc.1
  simp only [List.mem_cons, List.not_mem_nil, or_false, not_or] at hc
  obtain ⟨hquote, hslash, hrest⟩ := hc
  refine ⟨hquote, hslash, ?_, ?_⟩
  · simp [Layout.isOpening, hrest]
  · simp [Layout.isClosing, hrest]

theorem isPlain_of_isBlank {c : Char} (h : isBlank c) : Layout.IsPlain c ∧ c ∉ separators := by
  simp only [isBlank, Bool.or_eq_true, beq_iff_eq] at h
  rcases h with ((rfl | rfl) | rfl) | rfl <;> decide

theorem isPlain_of_mem_symbols {c : Char} (h : c ∈ symbols) : Layout.IsPlain c := by
  simp only [symbols, List.mem_cons, List.not_mem_nil, or_false] at h
  rcases h with rfl | rfl | rfl | rfl | rfl | rfl | rfl | rfl | rfl <;> decide

theorem isLineComment_lineComment (s : String) : (Trivia.lineComment s).token.isLineComment := by
  simp [isLineComment, isWhitespace, Trivia.token, blank, chars, List.isPrefixOf]

theorem exists_lineComment {t : Trivia} (ht : t.IsPiece)
    (h : t.token.isLineComment) : ∃ s, t = .lineComment s := by
  cases ht with
  | @blanks s hne hb =>
    obtain ⟨c, cs, hs⟩ := List.exists_cons_of_ne_nil hne
    have hc : c ≠ '/' := by
      rintro rfl
      simpa [isBlank] using hb '/' (by simp [hs])
    have hchars : (Trivia.whitespace s).token.chars = c :: cs := hs
    simp [isLineComment, hchars, List.isPrefixOf, hc.symm] at h
  | @line s hs => exact ⟨s, rfl⟩
  | @block s hs =>
    have hchars : (Trivia.blockComment s).token.chars = '/' :: '*' :: (s.toList ++ ['*', '/']) :=
      Trivia.toList_text_blockComment s
    simp [isLineComment, hchars, List.isPrefixOf] at h

/-- The scan gets over a piece of trivia in front of what it gets over. -/
theorem passes_trivia_cons {P : Char → Prop} {t : Trivia} (ht : t.IsPiece)
    (hblank : ∀ c, isBlank c → P c) (hfed : LineFed (t.token :: ts))
    (hrest : Layout.Passes P (sourceChars ts)) : Layout.Passes P (sourceChars (t.token :: ts)) := by
  rw [sourceChars_cons]
  cases ht with
  | blanks _ hb =>
    refine (Layout.passes_plain fun c hc => ?_).append hrest
    exact ⟨(isPlain_of_isBlank (hb c hc)).1, hblank c (hb c hc)⟩
  | @block s hs =>
    rw [show (Trivia.blockComment s).token.chars = _ from Trivia.toList_text_blockComment s]
    exact (Layout.passes_blockComment hs).append hrest
  | @line s hs =>
    -- the line feed that the printer waits for is inside the next token
    obtain ⟨u, hu, hfeed⟩ := hfed.1 (isLineComment_lineComment s)
    obtain ⟨us, rfl⟩ := List.head?_eq_some_iff.mp hu
    simp only [isLineFeed, Bool.and_eq_true, List.all_eq_true, List.contains_iff_mem] at hfeed
    obtain ⟨⟨-, hblanks⟩, hmem⟩ := hfeed
    obtain ⟨as, bs, heq, has⟩ := List.eq_append_cons_of_mem hmem
    rw [sourceChars_cons, heq, List.append_assoc] at hrest
    have hbehind := hrest.of_plain_append fun c hc =>
      (isPlain_of_isBlank (hblanks c (by simp [heq, hc]))).1
    have hs' : '\n' ∉ s.toList := fun hmem => absurd (hs _ hmem) (by decide)
    have hpasses := @Layout.passes_lineComment _ (s.toList ++ as) _ (by simp [hs', has])
      (hblank '\n' (by decide))
      (@Layout.Passes.of_plain_append _ ['\n'] _ hbehind
        (List.forall_mem_singleton.mpr (by decide)))
    rw [show (Trivia.lineComment s).token.chars = _ from Trivia.toList_text_lineComment s,
      sourceChars_cons, heq]
    simpa using hpasses

/-- Of pieces only white space is exposed. -/
theorem passes_pieces {items : List Trivia} (hpieces : ∀ t ∈ items, t.IsPiece)
    (hfed : LineFed (Spelling.trivia items)) :
    Layout.Passes (isWhiteSpace ·) (sourceChars (Spelling.trivia items)) := by
  induction items with
  | nil => exact Layout.passes_nil
  | cons t items ih =>
    obtain ⟨ht, hitems⟩ := List.forall_mem_cons.mp hpieces
    exact passes_trivia_cons ht (fun c hc => isWhiteSpace_of_isBlank hc) hfed (ih hitems hfed.2)

theorem passes_run {items : List Trivia} (hrun : Trivia.IsRun items)
    (hfed : LineFed (Spelling.trivia items)) :
    Layout.Passes (isWhiteSpace ·) (sourceChars (Spelling.trivia items)) :=
  passes_pieces hrun.isPiece hfed

/-- The scan gets over balanced lists whose line comments end with a line feed. -/
theorem Balanced.passes (h : Balanced b W ts) (hW : W ⊆ separators) (hfed : LineFed ts) :
    Layout.Passes (· ∉ W) (sourceChars ts) := by
  have hblank : ∀ c, isBlank c → Layout.IsPlain c ∧ c ∉ W := fun c hc =>
    (isPlain_of_isBlank hc).imp_right fun hnot hmem => hnot (hW hmem)
  induction h with
  | nil => exact Layout.passes_nil
  | letters _ _ _ ht _ ih =>
    refine (Layout.passes_plain fun c hc => ?_).append (ih hW hfed.2 hblank)
    exact (isPlain_of_isLetter (ht c hc)).imp_right fun hnot hmem => hnot (hW hmem)
  | @symbol W m c ts hm hc hcW _ ih =>
    rw [sourceChars_cons, show (mark m).chars = [c] from hm]
    exact (Layout.passes_plain (by simpa [hcW] using isPlain_of_mem_symbols hc)).append
      (ih hW hfed.2 hblank)
  | @quoted W s ts hs _ ih =>
    have hstring : (Spelling.quoted s).chars = '"' :: (s.toList ++ ['"']) := by
      simp [chars, Spelling.quoted]
    rw [sourceChars_cons, hstring]
    exact (Layout.passes_string hs).append (ih hW hfed.2 hblank)
  | @trivia W t ts ht _ _ ih =>
    exact passes_trivia_cons ht (fun c hc => (hblank c hc).2) hfed (ih hW hfed.2 hblank)
  | @group W m n o e us ts hm hn hb hoW _ _ ihus ih =>
    have hbehind : LineFed (mark n :: ts) := (hfed.2).of_append
    have hinside : LineFed us := LineFed.left hfed.2 (by simp [mark, isWhitespace])
    have hus := ihus (by simp) hinside fun c hc => ⟨(hblank c hc).1, by simp⟩
    have hgroup := hus.bracketed (Q := (· ∉ W)) hb hoW
    have hchars : sourceChars (mark m :: (us ++ mark n :: ts)) =
        (o :: (sourceChars us ++ [e])) ++ sourceChars ts := by
      simp [chars, mark, hm, hn]
    rw [hchars]
    exact hgroup.append (ih hW hbehind.2 hblank)

theorem lineFed_of_forall (h : ∀ t ∈ ts, t.isLineComment = false) : LineFed ts := by
  induction ts with
  | nil => trivial
  | cons t ts ih =>
    obtain ⟨ht, hts⟩ := List.forall_mem_cons.mp h
    exact ⟨by simp [ht], ih hts⟩

/-- The list ends with a token that is not blank. -/
def Finished (ts : List Token) : Prop :=
  ∃ t ∈ ts.getLast?, t.isWhitespace = false

theorem Finished.append_left (h : Finished us) (ts : List Token) : Finished (ts ++ us) := by
  obtain ⟨t, ht, hsolid⟩ := h
  exact ⟨t, List.mem_getLast?_append_of_mem_getLast? ht, hsolid⟩

theorem finished_concat {t : Token} (h : t.isWhitespace = false)
    (ts : List Token) : Finished (ts ++ [t]) :=
  ⟨t, by simp, h⟩

theorem finished_of_forall (hne : ts ≠ []) (h : ∀ t ∈ ts, t.isWhitespace = false) : Finished ts :=
  ⟨ts.getLast hne, List.getLast?_eq_getLast_of_ne_nil hne, h _ (List.getLast_mem hne)⟩

/-- Behind a token that is not blank no line comment is open. -/
theorem lineFed_append (hts : Finished ts) : LineFed (ts ++ us) ↔ LineFed ts ∧ LineFed us := by
  obtain ⟨t, ht, hsolid⟩ := hts
  obtain ⟨vs, rfl⟩ := List.getLast?_eq_some_iff.mp ht
  have hline : t.isLineComment = false := by simp [isLineComment, hsolid]
  clear ht
  induction vs with
  | nil => simp [LineFed, hline]
  | cons v vs ih =>
    have hhead : (vs ++ [t] ++ us).head? = (vs ++ [t]).head? := by cases vs <;> rfl
    rw [List.cons_append, List.cons_append, LineFed, LineFed, hhead, and_assoc]
    exact and_congr_right fun _ => ih

theorem lineFed_flatMap {α : Type} {f : α → List Token} {l : List α}
    (hf : ∀ x ∈ l, Finished (f x)) (h : LineFed (l.flatMap f ++ us)) :
    (∀ x ∈ l, LineFed (f x)) ∧ LineFed us := by
  induction l with
  | nil => exact ⟨by simp, h⟩
  | cons x l ih =>
    obtain ⟨hx, hl⟩ := List.forall_mem_cons.mp hf
    rw [List.flatMap_cons, List.append_assoc, lineFed_append hx] at h
    obtain ⟨hrest, hus⟩ := ih hl h.2
    exact ⟨List.forall_mem_cons.mpr ⟨h.1, hrest⟩, hus⟩

/-- What the characters of a written token are. -/
inductive Tame : Token → Prop
  | solid {t : Token} (hsolid : t.isWhitespace = false) (hkind : t.kind ≠ .string)
      (hne : t.chars ≠ []) (ht : ∀ c ∈ t.chars, isWhiteSpace c = false ∧ c ≠ '/') : Tame t
  | quoted {s : String} (hs : '"' ∉ s.toList) : Tame (Spelling.quoted s)
  | trivia {t : Trivia} (ht : t.IsPiece) : Tame t.token

theorem not_isWhiteSpace_of_isLetter {c : Char} (h : IsLetter c) : isWhiteSpace c = false := by
  have hrange : 43 ≤ c.toNat ∧ c.toNat ≤ 122 := by
    rcases h with h | h
    · simp only [isWordPart, Char.isAlphanum, Char.isAlpha, Char.isUpper, Char.isLower, Char.isDigit,
        Bool.or_eq_true, Bool.and_eq_true, decide_eq_true_eq, beq_iff_eq, ge_iff_le,
        UInt32.le_iff_toNat_le] at h
      rcases h with ((⟨hl, hu⟩ | ⟨hl, hu⟩) | ⟨hl, hu⟩) | rfl
      · exact ⟨Nat.le_trans (by decide) hl, Nat.le_trans hu (by decide)⟩
      · exact ⟨Nat.le_trans (by decide) hl, Nat.le_trans hu (by decide)⟩
      · exact ⟨Nat.le_trans (by decide) hl, Nat.le_trans hu (by decide)⟩
      · decide
    · simp only [List.mem_cons, List.not_mem_nil, or_false] at h
      rcases h with rfl | rfl | rfl <;> decide
  simp only [isWhiteSpace, Bool.or_eq_false_iff, Bool.and_eq_false_iff, decide_eq_false_iff_not,
    beq_eq_false_iff_ne]
  omega

theorem Balanced.tame (h : Balanced b W ts) : ∀ t ∈ ts, Tame t := by
  have hmark : ∀ {m : String} {c : Char}, m.toList = [c] → isWhiteSpace c = false ∧ c ≠ '/' →
      Tame (mark m) := by
    intro m c hm hc
    have hchars : (mark m).chars = [c] := hm
    exact .solid rfl (by simp [mark]) (by simp [hchars]) (by simpa [hchars] using hc)
  have hbracket : ∀ {o e : Char}, (o, e) ∈ Layout.brackets →
      (isWhiteSpace o = false ∧ o ≠ '/') ∧ (isWhiteSpace e = false ∧ e ≠ '/') := by
    intro o e hb
    simp only [Layout.brackets, List.mem_cons, Prod.mk.injEq, List.not_mem_nil, or_false] at hb
    rcases hb with ⟨rfl, rfl⟩ | ⟨rfl, rfl⟩ | ⟨rfl, rfl⟩ <;> decide
  induction h with
  | nil => simp
  | letters hsolid hkind hne ht _ ih =>
    refine List.forall_mem_cons.mpr ⟨.solid hsolid hkind hne fun c hc => ?_, ih⟩
    exact ⟨not_isWhiteSpace_of_isLetter (ht c hc), (isPlain_of_isLetter (ht c hc)).1.2.1⟩
  | symbol hm hc _ _ ih =>
    refine List.forall_mem_cons.mpr ⟨hmark hm ⟨?_, (isPlain_of_mem_symbols hc).2.1⟩, ih⟩
    simp only [symbols, List.mem_cons, List.not_mem_nil, or_false] at hc
    rcases hc with rfl | rfl | rfl | rfl | rfl | rfl | rfl | rfl | rfl <;> decide
  | quoted hs _ ih => exact List.forall_mem_cons.mpr ⟨.quoted hs, ih⟩
  | trivia ht _ _ ih => exact List.forall_mem_cons.mpr ⟨.trivia ht, ih⟩
  | group hm hn hb _ _ _ ihus ih =>
    simp only [List.mem_cons, List.mem_append]
    rintro t (rfl | ht | rfl | ht)
    · exact hmark hm (hbracket hb).1
    · exact ihus t ht
    · exact hmark hn (hbracket hb).2
    · exact ih t ht

end Token

end WebIdl

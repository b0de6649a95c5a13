import WebIdl.Proofs.Lexing.Numerals
import WebIdl.Trivia

/-!
# Blanks and comments between tokens

`IsRun` says which lists of trivia are the pieces of one whitespace token. The lexer takes such a
run as a whole, and cutting the taken text into pieces gives the run back, so that nothing of it
is lost or read in another way.
-/

namespace WebIdl.Lexer

open Text Numeral

/-- A comment body in front of whose end no other `*/` stands. -/
def CommentBody (cs : List Char) : Prop :=
  ¬ ['*', '/'].IsInfix cs

theorem CommentBody.tail {c : Char} {cs : List Char} (h : CommentBody (c :: cs)) :
    CommentBody cs :=
  fun hi => h (hi.trans (List.suffix_cons c cs).isInfix)

theorem blockCommentEnd?_append {body rest : List Char} (h : CommentBody body) :
    blockCommentEnd? (body ++ '*' :: '/' :: rest) = some (body.length + 2) := by
  induction body with
  | nil => simp [blockCommentEnd?]
  | cons c cs ih =>
    have hno : ¬ (c = '*' ∧ (cs ++ '*' :: '/' :: rest).head? = some '/') := by
      rintro ⟨rfl, hhead⟩
      cases cs with
      | nil => simp at hhead
      | cons d ds =>
        simp only [List.cons_append, List.head?_cons, Option.some.injEq] at hhead
        subst hhead
        exact h ⟨[], ds, rfl⟩
    rw [List.cons_append, blockCommentEnd?, if_neg hno, ih h.tail]
    simp

theorem eq_of_blockCommentEnd? {cs : List Char} {n : Nat} (h : blockCommentEnd? cs = some n) :
    ∃ body rest, cs = body ++ '*' :: '/' :: rest ∧ n = body.length + 2 ∧ CommentBody body := by
  induction cs generalizing n with
  | nil => simp [blockCommentEnd?] at h
  | cons c cs ih =>
    rw [blockCommentEnd?] at h
    by_cases hc : c = '*' ∧ cs.head? = some '/'
    · rw [if_pos hc] at h
      obtain ⟨rfl, hhead⟩ := hc
      cases cs with
      | nil => simp at hhead
      | cons d ds =>
        simp only [List.head?_cons, Option.some.injEq] at hhead
        subst hhead
        cases h
        exact ⟨[], ds, rfl, rfl, by simp [CommentBody]⟩
    · rw [if_neg hc] at h
      obtain ⟨m, hm, rfl⟩ := Option.map_eq_some_iff.mp h
      obtain ⟨body, rest, rfl, rfl, hbody⟩ := ih hm
      refine ⟨c :: body, rest, rfl, rfl, fun hi => ?_⟩
      rcases List.infix_cons_iff.mp hi with hp | hi
      · cases body with
        | nil => simp at hp
        | cons d ds =>
          simp only [List.cons_prefix_cons, List.nil_prefix, and_true] at hp
          exact hc ⟨hp.1.symm, by simp [← hp.2]⟩
      · exact hbody hi

theorem whitespaceLength_cons_blank {c : Char} {cs : List Char} (h : isBlank c) :
    whitespaceLength (c :: cs) = 1 + whitespaceLength cs := by
  have hrun : run isBlank (c :: cs) = run isBlank cs + 1 := by simp [run, h]
  have hdrop : (c :: cs).drop (run isBlank (c :: cs)) = cs.drop (run isBlank cs) := by
    rw [hrun, List.drop_succ_cons]
  rw [whitespaceLength, whitespaceLength.eq_1 cs]
  split
  · next h0 =>
    rw [hdrop] at h0
    split
    · rw [hrun, Nat.add_comm]
    · next h1 => rw [h0] at h1; cases h1
  · next n hn =>
    rw [hdrop] at hn
    split
    · next h1 => rw [hn] at h1; cases h1
    · next m hm =>
      obtain rfl : n = m := by rw [hn] at hm; omega
      rw [hrun, show run isBlank cs + 1 + (n + 1) = (run isBlank cs + (n + 1)) + 1 by omega,
        List.drop_succ_cons]
      omega

theorem whitespaceLength_blanks_append {bs cs : List Char} (h : ∀ c ∈ bs, isBlank c) :
    whitespaceLength (bs ++ cs) = bs.length + whitespaceLength cs := by
  induction bs with
  | nil => simp
  | cons b bs ih =>
    rw [List.cons_append, whitespaceLength_cons_blank (h b List.mem_cons_self),
      ih fun c hc => h c (List.mem_cons_of_mem b hc), List.length_cons]
    omega

theorem whitespaceLength_comment {cs : List Char} {n : Nat} (hb : ∀ c ∈ cs.head?, isBlank c = false)
    (hn : commentLength cs = n + 1) :
    whitespaceLength cs = n + 1 + whitespaceLength (cs.drop (n + 1)) := by
  have hrun : run isBlank cs = 0 := run_eq_zero hb
  rw [whitespaceLength]
  split
  · next h0 => rw [hrun, List.drop_zero, hn] at h0; cases h0
  · next m hm =>
    rw [hrun, List.drop_zero, hn] at hm
    cases hm
    rw [hrun, Nat.zero_add]

theorem whitespaceLength_eq_zero_iff {cs : List Char} :
    whitespaceLength cs = 0 ↔ (∀ c ∈ cs.head?, isBlank c = false) ∧ commentLength cs = 0 := by
  constructor
  · intro h
    have hb : ∀ c ∈ cs.head?, isBlank c = false := by
      cases cs with
      | nil => simp
      | cons c cs =>
        rintro _ ⟨⟩
        rw [Bool.eq_false_iff]
        intro hc
        rw [whitespaceLength_cons_blank hc] at h
        omega
    refine ⟨hb, ?_⟩
    cases hn : commentLength cs with
    | zero => rfl
    | succ n =>
      rw [whitespaceLength_comment hb hn] at h
      omega
  · rintro ⟨hb, hc⟩
    have hrun : run isBlank cs = 0 := run_eq_zero hb
    rw [whitespaceLength]
    split
    · exact hrun
    · next hm => rw [hrun, List.drop_zero, hc] at hm; cases hm

/-- Neither a blank nor a comment begins here. -/
theorem whitespaceLength_eq_zero_of_head {cs : List Char}
    (h : ∀ c ∈ cs.head?, isBlank c = false ∧ c ≠ '/') : whitespaceLength cs = 0 := by
  refine whitespaceLength_eq_zero_iff.mpr ⟨fun c hc => (h c hc).1, ?_⟩
  unfold commentLength
  split
  · exact absurd rfl (h '/' rfl).2
  · exact absurd rfl (h '/' rfl).2
  · rfl

end WebIdl.Lexer

namespace WebIdl.Trivia

open Text Lexer Numeral

/-- The text of trivia in a row. -/
def chars (items : List Trivia) : List Char :=
  items.flatMap fun t => t.text.toList

@[simp] theorem chars_nil : chars [] = [] := rfl

@[simp] theorem chars_cons (t : Trivia) (items : List Trivia) :
    chars (t :: items) = t.text.toList ++ chars items := rfl

@[simp] theorem toList_text_whitespace (s : String) : (whitespace s).text.toList = s.toList := rfl

@[simp] theorem toList_text_lineComment (s : String) :
    (lineComment s).text.toList = '/' :: '/' :: s.toList := by
  simp [text]

@[simp] theorem toList_text_blockComment (s : String) :
    (blockComment s).text.toList = '/' :: '*' :: (s.toList ++ ['*', '/']) := by
  simp [text]

/-- The pieces of a whitespace token: blanks are never cut in two, and a line comment is ended by
a line break unless it is last. -/
inductive IsRun : List Trivia → Prop
  | nil : IsRun []
  | blanks {s : String} {items : List Trivia} (hne : s.toList ≠ []) (hb : ∀ c ∈ s.toList, isBlank c)
      (hnext : ∀ c ∈ (chars items).head?, isBlank c = false) (h : IsRun items) :
      IsRun (whitespace s :: items)
  | line {s : String} {items : List Trivia} (hs : ∀ c ∈ s.toList, isLineBreak c = false)
      (hnext : ∀ c ∈ (chars items).head?, isLineBreak c) (h : IsRun items) :
      IsRun (lineComment s :: items)
  | block {s : String} {items : List Trivia} (hs : CommentBody s.toList) (h : IsRun items) :
      IsRun (blockComment s :: items)

/-- The last piece is no line comment. -/
def Closed : List Trivia → Prop
  | [] => True
  | [lineComment _] => False
  | _ :: items => Closed items

theorem Closed.tail {t : Trivia} {items : List Trivia} (h : Closed (t :: items)) : Closed items := by
  cases items with
  | nil => trivial
  | cons u us => cases t <;> exact h

theorem Closed.of_ne_nil {t : Trivia} {items : List Trivia} (hne : items ≠ []) (h : Closed items) :
    Closed (t :: items) := by
  cases items with
  | nil => exact absurd rfl hne
  | cons u us => cases t <;> exact h

theorem closed_of_not_line {t : Trivia} {items : List Trivia} (ht : ∀ s, t ≠ lineComment s)
    (h : Closed items) : Closed (t :: items) := by
  cases items with
  | nil =>
    cases t with
    | lineComment s => exact absurd rfl (ht s)
    | _ => trivial
  | cons u us => cases t <;> exact h

theorem IsRun.tail {t : Trivia} {items : List Trivia} (h : IsRun (t :: items)) : IsRun items := by
  cases h with
  | blanks _ _ _ h => exact h
  | line _ _ h => exact h
  | block _ h => exact h

theorem IsRun.chars_ne_nil {items : List Trivia} (h : IsRun items) (hne : items ≠ []) :
    chars items ≠ [] := by
  cases h with
  | nil => exact absurd rfl hne
  | blanks hs => simp [hs]
  | line => simp
  | block => simp

theorem isBlank_of_isLineBreak {c : Char} (h : isLineBreak c) : isBlank c := by
  simp only [isLineBreak, Bool.or_eq_true, beq_iff_eq] at h
  rcases h with rfl | rfl <;> rfl

/-- The lexer takes a whole run and goes on behind it. An open line comment needs a line break. -/
theorem whitespaceLength_chars_append {items : List Trivia} {rest : List Char} (h : IsRun items)
    (hc : Closed items ∨ ∀ c ∈ rest.head?, isLineBreak c) :
    whitespaceLength (chars items ++ rest) = (chars items).length + whitespaceLength rest := by
  induction h with
  | nil => exact (Nat.zero_add _).symm
  | @blanks s items hne hb hnext h ih =>
    have htail := ih (hc.imp_left Closed.tail)
    rw [chars_cons, toList_text_whitespace, List.append_assoc, whitespaceLength_blanks_append hb,
      htail, List.length_append, Nat.add_assoc]
  | @line s items hs hnext h ih =>
    have htail := ih (hc.imp_left Closed.tail)
    have hstop : ∀ c ∈ (chars items ++ rest).head?, (!isLineBreak c) = false := by
      cases items with
      | nil =>
        rcases hc with hc | hbreak
        · exact hc.elim
        · simpa using hbreak
      | cons t ts =>
        rw [head?_append_of_ne_nil (h.chars_ne_nil (List.cons_ne_nil t ts))]
        intro c hc
        rw [hnext c hc, Bool.not_true]
    have hrun : run (!isLineBreak ·) (s.toList ++ (chars items ++ rest)) = s.toList.length :=
      run_append_stop (by simpa using hs) hstop
    have hlen : commentLength ('/' :: '/' :: (s.toList ++ (chars items ++ rest))) =
        s.toList.length + 1 + 1 := by
      rw [commentLength, hrun]
      omega
    simp only [chars_cons, toList_text_lineComment, List.cons_append, List.append_assoc]
    rw [whitespaceLength_comment (by simp [isBlank]) hlen]
    simp only [List.drop_succ_cons, List.drop_left, htail, List.length_append, List.length_cons]
    omega
  | @block s items hs h ih =>
    have htail := ih (hc.imp_left Closed.tail)
    have hend := @blockCommentEnd?_append _ (chars items ++ rest) hs
    have hlen : commentLength ('/' :: '*' :: (s.toList ++ '*' :: '/' :: (chars items ++ rest))) =
        s.toList.length + 3 + 1 := by
      simp [commentLength, hend]
    simp only [chars_cons, toList_text_blockComment, List.cons_append, List.append_assoc,
      List.nil_append]
    rw [whitespaceLength_comment (by simp [isBlank]) hlen]
    have hdrop : ('/' :: '*' :: (s.toList ++ '*' :: '/' :: (chars items ++ rest))).drop
        (s.toList.length + 3 + 1) = chars items ++ rest := by
      rw [show s.toList.length + 3 + 1 = (s.toList.length + 2) + 1 + 1 by omega,
        List.drop_succ_cons, List.drop_succ_cons, List.drop_append]
      simp
    rw [hdrop, htail]
    simp only [List.length_append, List.length_cons]
    omega

/-- Cutting the text of a run into pieces gives the run back. -/
theorem pieces_chars {items : List Trivia} (h : IsRun items) : pieces (chars items) = items := by
  induction h with
  | nil => rw [chars_nil, pieces]
  | @blanks s items hne hb hnext h ih =>
    obtain ⟨c, cs, hs⟩ := List.exists_cons_of_ne_nil hne
    rw [hs] at hb
    have hcs : ∀ d ∈ cs, isBlank d := fun d hd => hb d (List.mem_cons_of_mem c hd)
    have hblank : isBlank c := hb c List.mem_cons_self
    rw [chars_cons, toList_text_whitespace, hs, List.cons_append, pieces]
    · rw [if_pos hblank, takeWhile_append_stop hcs hnext, dropWhile_append_stop hcs hnext, ih, ← hs,
        String.ofList_toList]
    · rintro rest rfl; simp [isBlank] at hblank
    · rintro rest rfl; simp [isBlank] at hblank
  | @line s items hs hnext h ih =>
    have hs' : ∀ c ∈ s.toList, (!isLineBreak c) = true := by simpa using hs
    have hstop : ∀ c ∈ (chars items).head?, (!isLineBreak c) = false := by simpa using hnext
    rw [chars_cons, toList_text_lineComment, List.cons_append, List.cons_append, pieces,
      takeWhile_append_stop hs' hstop, dropWhile_append_stop hs' hstop, ih, String.ofList_toList]
  | @block s items hs h ih =>
    have hbody : commentBody (s.toList ++ '*' :: '/' :: chars items) = s.toList := by
      simp [commentBody, blockCommentEnd?_append hs]
    rw [chars_cons, toList_text_blockComment, List.cons_append, List.cons_append, List.append_assoc,
      List.cons_append, List.cons_append, List.nil_append, pieces, hbody, String.ofList_toList]
    have hdrop : (s.toList ++ '*' :: '/' :: chars items).drop (s.toList.length + 2) =
        chars items := by
      simp [List.drop_append]
    rw [hdrop, ih]

/-- `cs` starts with a run of trivia, behind which neither a blank nor a comment goes on. -/
structure Leads (items : List Trivia) (rest cs : List Char) : Prop where
  eq : cs = chars items ++ rest
  run : IsRun items
  closed : Closed items ∨ rest = []
  stop : whitespaceLength rest = 0

/-- A blank goes into the first piece if that is made of blanks, and is a piece of its own
otherwise. -/
theorem Leads.blank {c : Char} {cs rest : List Char} {items : List Trivia} (hc : isBlank c)
    (h : Leads items rest cs) : ∃ items', Leads items' rest (c :: cs) := by
  have alone (hnext : ∀ d ∈ (chars items).head?, isBlank d = false) :
      Leads (whitespace (String.ofList [c]) :: items) rest (c :: cs) :=
    { eq := by simp [h.eq]
      run := .blanks (by simp) (by simpa using hc) hnext h.run
      closed := h.closed.imp_left (closed_of_not_line (by simp))
      stop := h.stop }
  have hrun := h.run
  cases hrun with
  | nil => exact ⟨_, alone (by simp)⟩
  | line => exact ⟨_, alone (by simp [isBlank])⟩
  | block => exact ⟨_, alone (by simp [isBlank])⟩
  | @blanks s items hne hs hnext hitems =>
    exact ⟨whitespace (String.ofList (c :: s.toList)) :: items,
      { eq := by simp [h.eq]
        run := .blanks (by simp) (by simpa [hc] using hs) hnext hitems
        closed := h.closed.imp_left fun h => closed_of_not_line (by simp) h.tail
        stop := h.stop }⟩

theorem Leads.line {cs rest : List Char} {items : List Trivia}
    (h : Leads items rest (cs.dropWhile (!isLineBreak ·))) :
    Leads (lineComment (String.ofList (cs.takeWhile (!isLineBreak ·))) :: items) rest
      ('/' :: '/' :: cs) where
  eq := by simp [← h.eq]
  run := by
    refine .line ?_ ?_ h.run
    · intro d hd
      rw [String.toList_ofList] at hd
      simpa using List.all_eq_true.mp List.all_takeWhile d hd
    · intro d hd
      have hmem : d ∈ (cs.dropWhile (!isLineBreak ·)).head? := by
        rw [h.eq, head?_append_of_ne_nil]
        · exact hd
        · intro hnil; simp [hnil] at hd
      simpa using dropWhile_head d hmem
  closed := by
    by_cases hrest : rest = []
    · exact Or.inr hrest
    · refine Or.inl (Closed.of_ne_nil ?_ (h.closed.resolve_right hrest))
      rintro rfl
      have hstop := @dropWhile_head (!isLineBreak ·) cs
      rw [h.eq, chars_nil, List.nil_append] at hstop
      obtain ⟨d, ds, rfl⟩ := List.exists_cons_of_ne_nil hrest
      have hbreak : isLineBreak d := by simpa using hstop d rfl
      have := h.stop
      rw [whitespaceLength_cons_blank (isBlank_of_isLineBreak hbreak)] at this
      omega
  stop := h.stop

theorem Leads.block {body cs rest : List Char} {items : List Trivia} (hbody : CommentBody body)
    (h : Leads items rest cs) :
    Leads (blockComment (String.ofList body) :: items) rest
      ('/' :: '*' :: (body ++ '*' :: '/' :: cs)) where
  eq := by simp [h.eq]
  run := .block (by simpa using hbody) h.run
  closed := h.closed.imp_left (closed_of_not_line (by simp))
  stop := h.stop

/-- What the lexer takes as whitespace is the text of a run. -/
theorem exists_leads (cs : List Char) : ∃ items rest, Leads items rest cs := by
  induction hn : cs.length using Nat.strongRecOn generalizing cs with
  | ind n ih =>
    subst hn
    by_cases h0 : whitespaceLength cs = 0
    · exact ⟨[], cs, rfl, .nil, Or.inl trivial, h0⟩
    · cases cs with
      | nil => simp at h0
      | cons c cs =>
        by_cases hb : isBlank c
        · obtain ⟨items, rest, h⟩ := ih cs.length (by simp) cs rfl
          obtain ⟨items', h'⟩ := h.blank hb
          exact ⟨items', rest, h'⟩
        · have hhead : ∀ d ∈ (c :: cs).head?, isBlank d = false := by simpa using hb
          have hcomment : commentLength (c :: cs) ≠ 0 :=
            fun h => h0 (whitespaceLength_eq_zero_iff.mpr ⟨hhead, h⟩)
          unfold commentLength at hcomment
          split at hcomment
          · next tail heq =>
            cases heq
            have hlen : (tail.dropWhile (!isLineBreak ·)).length ≤ tail.length :=
              (List.dropWhile_sublist _).length_le
            obtain ⟨items, rest, h⟩ :=
              ih _ (by simp only [List.length_cons]; omega) (tail.dropWhile (!isLineBreak ·)) rfl
            exact ⟨_, rest, h.line⟩
          · next tail heq =>
            cases heq
            cases hend : blockCommentEnd? tail with
            | none => simp [hend] at hcomment
            | some n =>
              obtain ⟨body, after, rfl, -, hbody⟩ := eq_of_blockCommentEnd? hend
              obtain ⟨items, rest, h⟩ := ih after.length (by simp; omega) after rfl
              exact ⟨_, rest, h.block hbody⟩
          · exact absurd rfl hcomment

theorem Leads.whitespaceLength_eq {cs rest : List Char} {items : List Trivia}
    (h : Leads items rest cs) : whitespaceLength cs = (chars items).length := by
  have hbreak : Closed items ∨ ∀ c ∈ rest.head?, isLineBreak c :=
    h.closed.imp_right (by rintro rfl; simp)
  rw [h.eq, whitespaceLength_chars_append h.run hbreak, h.stop, Nat.add_zero]

end WebIdl.Trivia

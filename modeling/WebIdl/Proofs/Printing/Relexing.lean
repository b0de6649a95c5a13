import WebIdl.Proofs.Printing.Layouts

/-!
# Cutting the printed layout

The printed text is cut into the tokens of its layout. Behind a value without a comma the trivia and
the start of the next line are cut as one token, so that the layout of an enum is told from where a
line begins.
-/

namespace WebIdl

open Token Lexer Spelling Grammar
open Text hiding words

namespace Trivia

theorem toList_lineStart (indent : Nat) :
    (lineStart indent).text.toList = '\n' :: List.replicate indent ' ' := by
  simp [lineStart]

theorem isRun_lineStart_cons {indent : Nat} {items : List Trivia}
    (hnext : ∀ c ∈ (chars items).head?, isBlank c = false) (h : IsRun items) :
    IsRun (lineStart indent :: items) := by
  refine .blanks (by simp) (fun c hc => ?_) hnext h
  rw [String.toList_ofList, List.mem_cons, List.mem_replicate] at hc
  rcases hc with rfl | ⟨-, rfl⟩ <;> rfl

theorem head?_chars_onLines (indent depth : Nat) (items : List Trivia) :
    (chars (onLines indent items ++ [lineStart depth])).head? = some '\n' := by
  rw [onLines]
  cases comments items with
  | nil => simp [toList_lineStart]
  | cons t ts => simp [toList_lineStart]

/-- Comments on lines of their own are a run. -/
theorem isRun_onLines (indent depth : Nat) {items : List Trivia} (h : ∀ t ∈ items, t.IsPiece) :
    IsRun (onLines indent items ++ [lineStart depth]) := by
  induction items with
  | nil => exact isRun_lineStart_cons (by simp) .nil
  | cons t items ih =>
    obtain ⟨ht, hitems⟩ := List.forall_mem_cons.mp h
    have hrest := ih hitems
    have hhead := head?_chars_onLines indent depth items
    cases ht with
    | blanks => exact hrest
    | @line s hs =>
      refine isRun_lineStart_cons (by simp [isBlank]) (.line (fun c hc => ?_) ?_ hrest)
      · rw [String.toList_ofList] at hc
        exact hs c ((trimEnd_isPrefix s.toList).subset hc)
      · change ∀ c ∈ (chars (onLines indent items ++ [lineStart depth])).head?, isLineBreak c
        rw [hhead]
        rintro _ ⟨⟩
        rfl
    | block hs => exact isRun_lineStart_cons (by simp [isBlank]) (.block hs hrest)

theorem closed_append_lineStart (items : List Trivia) (depth : Nat) :
    Closed (items ++ [lineStart depth]) := by
  induction items with
  | nil => trivial
  | cons t items ih => exact ih.of_ne_nil (by simp)

end Trivia

namespace Spelling

variable {d : Dialect} {ts us : List Token} {indent : Nat}

/-- A list that begins with a new line. -/
structure LineLed (ts : List Token) : Prop where
  parts : ∃ items us, ts = trivia items ++ us ∧ Trivia.IsRun items ∧ Trivia.Closed items ∧
    (∃ cs, Trivia.chars items = '\n' :: cs) ∧ Lexable us ∧ Firm us

theorem LineLed.lexable (h : LineLed ts) : Lexable ts := by
  obtain ⟨items, us, rfl, hrun, hclosed, -, hus, hfirm⟩ := h
  exact hus.trivia hrun (Or.inl hclosed) hfirm

theorem closed_append {xs ys : List Trivia} (hne : ys ≠ []) (h : Trivia.Closed ys) :
    Trivia.Closed (xs ++ ys) := by
  induction xs with
  | nil => exact h
  | cons t xs ih => exact ih.of_ne_nil (by simp [hne])

/-- Trivia at the end of a line. -/
theorem LineLed.lexable_trivia {items : List Trivia} (h : LineLed ts) (hrun : Trivia.IsRun items)
    (hlast : ∀ t ∈ items.getLast?, ∀ s, t ≠ .whitespace s) : Lexable (trivia items ++ ts) := by
  obtain ⟨next, us, rfl, hnext, hclosed, ⟨cs, hcs⟩, hus, hfirm⟩ := h
  have hne : next ≠ [] := by
    rintro rfl
    cases hcs
  have hfeed : ∀ c ∈ (Trivia.chars next).head?, isLineBreak c := by
    rw [hcs]
    rintro _ ⟨⟩
    rfl
  have hall := hus.trivia (hrun.append hnext hlast hfeed) (Or.inl (closed_append hne hclosed)) hfirm
  simpa [trivia] using hall

theorem lineLed_lines {items : List Trivia} (hitems : Trivia.IsRun items) (depth : Nat)
    (hus : Lexable us) (hfirm : Firm us) :
    LineLed (trivia (Trivia.onLines indent items ++ [Trivia.lineStart depth]) ++ us) := by
  have hhead := Trivia.head?_chars_onLines indent depth items
  obtain ⟨cs, hcs⟩ := List.head?_eq_some_iff.mp hhead
  exact ⟨_, us, rfl, Trivia.isRun_onLines indent depth hitems.isPiece,
    Trivia.closed_append_lineStart _ depth, ⟨cs, hcs⟩, hus, hfirm⟩

/-- A value behind which a new line begins. -/
theorem lexable_valueTokens {v : EnumValue × Bool} (hv : v.1.WellFormed d) (h : LineLed ts) :
    Lexable (valueTokens v ++ ts) := by
  have hrun := hv.trailing.settled.1.trimLast
  have hlast := Trivia.getLast?_trimLast v.1.trailing
  have hend : Lexable (valueEnd v.1.trailing v.2 ++ ts) := by
    unfold valueEnd
    cases v.2 with
    | false => exact h.lexable_trivia hrun hlast
    | true =>
      cases hopen : Trivia.isOpen (Trivia.trimLast v.1.trailing) with
      | true =>
        simp only [hopen, if_true, List.append_nil]
        exact h.lexable_trivia hrun.takeComma (Trivia.getLast?_takeComma hopen)
      | false =>
        have hcomma := h.lexable.punctuation (m := ",") (by decide)
        simp only [hopen, Trivia.takeComma_of_closed hopen, if_true, Bool.false_eq_true, if_false,
          List.append_assoc]
        exact hcomma.trivia hrun (Or.inl (Trivia.closed_of_isOpen hopen)) (firm_mark (by decide) _)
  exact hend.quoted hv.value

theorem firm_valueTokens (v : EnumValue × Bool) (us : List Token) : Firm (valueTokens v ++ us) :=
  firm_quoted v.1.value _

/-- The column of types is filled up with blanks. -/
theorem isRun_filler (width : Nat) (column : List Token) : Trivia.IsRun [filler width column] := by
  refine .blanks (by simp) (fun c hc => ?_) (by simp) .nil
  rw [String.toList_ofList, List.mem_replicate] at hc
  rw [hc.2]
  rfl

theorem clear_filler (width : Nat) (column us : List Token) :
    Clear ((filler width column).token :: us) := by
  intro c hc
  obtain rfl : ' ' = c := by
    simpa [chars, Trivia.token, blank, filler, Trivia.text, List.replicate_succ] using hc
  rfl

theorem lexable_fieldTokens {width : Nat} {m : Member} (hm : m.WellFormed d MemberKind.InDictionary)
    (h : Lexable ts) :
    Lexable (fieldTokens width m ++ ts) ∧ Firm (fieldTokens width m ++ ts) := by
  obtain ⟨f, hkind, hf⟩ := Layout.exists_field hm
  obtain ⟨hend, hclear⟩ := lexable_end h
  have hstops := (punctuated_mark (m := ";") (by decide) ts).stops
  have hnamed := (lexable_ofDefault hf.default hend hstops).word hf.name
    (clear_ofDefault _ hclear)
  have hfilled := hnamed.trivia (isRun_filler width (typeColumn m f)) (Or.inl trivial)
    (firm_word hf.name _)
  have htyped := lexable_ofType hf.type hfilled (clear_filler width _ _)
  have hopens := (opens_ofType f.type).append (trivia [filler width (typeColumn m f)] ++
    word f.name :: (ofDefault f.default ++ mark ";" :: ts))
  have hrequired := lexable_wordIf (w := "required") f.required (by decide) htyped hopens
  have hannotated := lexable_annotated hm.annotated hrequired
    (hopens.wordIf f.required "required")
  rw [fieldTokens, hkind]
  simpa [typeColumn] using hannotated

/-- A block on lines of its own, each entry of which is cut in front of a new line. -/
theorem lexable_laidBlock {γ : Type} {leadOf : γ → List Trivia} {f : γ → List Token} {gs : List γ}
    {closing : List Trivia} {keywords : List String} {name : String} {isPartial : Bool}
    {inheritance : Option String} (hkeywords : ∀ w ∈ keywords, IsName w) (hne : keywords ≠ [])
    (hname : IsName name) (hbase : ∀ b ∈ inheritance, IsName b)
    (hlead : ∀ g ∈ gs, Trivia.IsRun (leadOf g)) (hclosing : Trivia.IsRun closing)
    (hf : ∀ g ∈ gs, ∀ us, LineLed us → Lexable (f g ++ us) ∧ Firm (f g ++ us)) (h : Lexable ts) :
    Lexable (header keywords name isPartial inheritance ++ laidBlock indent leadOf f gs closing ++
      ts) := by
  have hbrace := (lexable_end h).1.punctuation (m := "\x7d") (by decide)
  have hlast := @lineLed_lines _ indent _ hclosing 0 hbrace (firm_mark (by decide) _)
  refine lexable_header hkeywords hne hname hbase ?_
  refine (lexable_flatMap (C := LineLed) (fun g hg us _ hus => ?_) hlast.lexable hlast).1
  obtain ⟨hentry, hfirm⟩ := hf g hg us hus
  have hline := @lineLed_lines _ indent _ (hlead g hg) indent hentry hfirm
  rw [List.append_assoc]
  exact ⟨hline.lexable, hline⟩

theorem lexable_laidMembers {P : MemberKind → Prop} {ms : List Member} {closing : List Trivia}
    {keywords : List String} {name : String} {isPartial : Bool} {inheritance : Option String}
    (hkeywords : ∀ w ∈ keywords, IsName w) (hne : keywords ≠ [])
    (hheaded : Headed name isPartial inheritance) (hbody : Body d P ms closing)
    (hP : ∀ k, P k → ∀ us, Lexable us → Lexable (ofMemberKind k ++ us)) (h : Lexable ts) :
    Lexable (header keywords name isPartial inheritance ++
      laidBlock indent Member.leading memberBody ms closing ++ ts) :=
  lexable_laidBlock hkeywords hne hheaded.name hheaded.base
    (fun m hm => (hbody.members m hm).leading.settled.1) hbody.closing.settled.1
    (fun m hm _ hus => lexable_memberBody hP (hbody.members m hm) hus.lexable) h

theorem lexable_laidKind {k : DefinitionKind} (hk : k.WellFormed d) (h : Lexable ts) :
    Lexable (laidKind indent k ++ ts) := by
  have hinterface := fun k (hk : MemberKind.InInterface d k) us hus =>
    @lexable_inInterface us d k hk hus
  cases k with
  | interface i =>
    have hi : i.WellFormed d := hk
    exact lexable_laidMembers (by decide) (by decide) hi.headed hi.body hinterface h
  | «class» i =>
    have hi : i.WellFormed d := hk.2
    exact lexable_laidMembers (by decide) (by decide) hi.headed hi.body hinterface h
  | callbackInterface i =>
    have hi : i.WellFormed d := hk.2
    exact lexable_laidMembers (by decide) (by decide) hi.headed hi.body hinterface h
  | exception e =>
    have he : e.WellFormed d := hk
    exact lexable_laidMembers (by decide) (by decide) he.headed he.body
      (fun _ hk _ hus => lexable_inException hk hus) h
  | dictionary b =>
    have hb : b.WellFormed d := hk
    exact lexable_laidBlock (by decide) (by decide) hb.headed.name hb.headed.base
      (fun m hm => (hb.body.members m hm).leading.settled.1) hb.body.closing.settled.1
      (fun m hm _ hus => lexable_fieldTokens (hb.body.members m hm) hus.lexable) h
  | enum e =>
    have he : e.WellFormed d := hk
    have hvalues : ∀ v ∈ withCommas false e.values, v.1.WellFormed d := by
      intro v hv
      refine he.values _ ?_
      rw [← map_fst_withCommas false e.values]
      exact List.mem_map_of_mem hv
    exact lexable_laidBlock (by decide) (by decide) he.name (by simp)
      (fun v hv => (hvalues v hv).leading.settled.1) he.closing.settled.1
      (fun v hv us hus => ⟨lexable_valueTokens (hvalues v hv) hus, firm_valueTokens v us⟩) h
  | callback c => exact lexable_ofDefinitionKind hk h
  | typedef t => exact lexable_ofDefinitionKind hk h
  | implements i => exact lexable_ofDefinitionKind hk h

theorem opens_laidKind (k : DefinitionKind) : Opens (laidKind indent k) := by
  cases k with
  | interface i | «class» i | callbackInterface i | dictionary b | exception e | enum e =>
    exact opens_header _ _ _ _ _ _
  | callback x => exact .word "callback" _
  | typedef t => exact .word "typedef" _
  | implements i => exact .word i.target _

end Spelling

namespace Trivia

theorem Closed.dropBlanks {items : List Trivia} (h : Closed items) : Closed (dropBlanks items) := by
  cases items with
  | nil => exact h
  | cons t items =>
    cases t with
    | whitespace s => exact h.tail
    | lineComment s | blockComment s => exact h

theorem head?_chars_dropBlanks {items : List Trivia} (h : IsRun items) :
    ∀ c ∈ (chars (dropBlanks items)).head?, isBlank c = false := by
  cases h with
  | nil => simp [dropBlanks]
  | blanks _ _ hnext _ => exact hnext
  | line | block => simp [dropBlanks, isBlank]

theorem isRun_emptyLine_cons {items : List Trivia}
    (hnext : ∀ c ∈ (chars items).head?, isBlank c = false) (h : IsRun items) :
    IsRun (emptyLine :: items) :=
  .blanks (by simp) (by simp [isBlank]) hnext h

end Trivia

namespace Spelling

variable {d : Dialect} {indent : Nat}

theorem settled_of_mem_laidEntries {xs : List Definition} (hxs : ∀ x ∈ xs, x.WellFormed d)
    {e : List Trivia × Definition} (he : e ∈ laidEntries xs) :
    (Trivia.IsRun e.1 ∧ Trivia.Closed e.1) ∧ e.2.WellFormed d := by
  cases xs with
  | nil => cases he
  | cons x xs =>
    refine settled_of_mem_cons (g := fun items => .emptyLine :: Trivia.dropBlanks items)
      (fun _ h => ⟨h.1.dropBlanks, h.2.dropBlanks⟩) (fun _ h => ?_) hxs he
    exact ⟨Trivia.isRun_emptyLine_cons (Trivia.head?_chars_dropBlanks h.1) h.1.dropBlanks,
      Trivia.closed_of_not_line (by simp [Trivia.emptyLine]) h.2.dropBlanks⟩

theorem isRun_laidEnd (xs : List Definition) : Trivia.IsRun (laidEnd xs) := by
  rw [laidEnd]
  split
  · exact .nil
  · exact Trivia.isRun_emptyLine_cons (by simp) .nil

/-- The printed text is cut into the tokens of its layout. -/
theorem lexable_laidProgram {xs : List Definition} (hxs : ∀ x ∈ xs, x.WellFormed d) :
    Lexable (laidProgram indent xs) :=
  lexable_entries (fun k hk => ⟨opens_laidKind k, fun _ h => lexable_laidKind hk h⟩)
    (fun _ he => settled_of_mem_laidEntries hxs he) (isRun_laidEnd xs)

end Spelling

end WebIdl

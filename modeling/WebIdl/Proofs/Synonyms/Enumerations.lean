import WebIdl.Proofs.Synonyms.Forks

/-!
# The bodies of enumerations over forked lists

If two strings part the lists, they are two values of an enumeration, since nothing else passes
them. In one run there is a comma behind the first value and in the other one there is none, and in
front of the second value both runs are at the same tokens again. The tree keeps no more of the
commas than whether one stands behind the last value.
-/

namespace WebIdl

/-- Behind the first of two strings that part the lists there is a separator in both of them. -/
theorem Token.Forked.string_tail {d : Dialect} {s : Token} {ts us : List Token}
    (h : Forked d (s :: ts) (s :: us)) (hs : s.kind = .string) :
    Forked d ts us ∨ d.keepTrivia = false ∧ ∃ s' gap gap' rest, s'.kind = .string ∧
      Separator gap ∧ Separator gap' ∧ ts = gap ++ s' :: rest ∧ us = gap' ++ s' :: rest := by
  generalize hxs : s :: ts = xs at h
  generalize hys : s :: us = ys at h
  cases h with
  | same =>
    obtain rfl := List.tail_eq_of_cons_eq (hxs.trans hys.symm)
    exact .inl (.same ts)
  | colon =>
    obtain rfl := List.head_eq_of_cons_eq hxs
    exact TokenKind.noConfusion hs
  | @comma _ s' gap gap' rest hd _ hs' hgap hgap' =>
    obtain rfl := List.tail_eq_of_cons_eq hxs
    obtain rfl := List.tail_eq_of_cons_eq hys
    exact .inr ⟨hd, s', gap, gap', rest, hs', hgap, hgap', rfl, rfl⟩
  | cons _ h =>
    obtain rfl := List.tail_eq_of_cons_eq hxs
    obtain rfl := List.tail_eq_of_cons_eq hys
    exact .inl h

namespace Grammar

open Token Cursor

variable {d d' : Dialect} {c c' : Cursor} {β : Type}

/-- What is kept of the values and their commas, and the trivia behind them, is the same. -/
structure Agreed (r r' : List (EnumValue × Bool) × List Trivia) : Prop where
  values : r'.1.map Prod.fst = r.1.map Prod.fst
  trailingComma :
    (r'.1.getLast?.map Prod.snd).getD false = (r.1.getLast?.map Prod.snd).getD false
  closing : r'.2 = r.2

theorem Agreed.refl (r : List (EnumValue × Bool) × List Trivia) : Agreed r r :=
  ⟨rfl, rfl, rfl⟩

/-- A comma behind a value that is not the last one does not matter. -/
theorem Agreed.cons {r r' : List (EnumValue × Bool) × List Trivia} (h : Agreed r r')
    (v : EnumValue) {b b' : Bool} (hb : b = b' ∨ r.1 ≠ []) :
    Agreed ((v, b) :: r.1, r.2) ((v, b') :: r'.1, r'.2) := by
  obtain ⟨vs, closing⟩ := r
  obtain ⟨vs', closing'⟩ := r'
  obtain ⟨hvalues, hcomma, hclosing⟩ := h
  refine ⟨congrArg (v :: ·) hvalues, ?_, hclosing⟩
  have hlen : vs'.length = vs.length := by simpa using congrArg List.length hvalues
  cases vs using List.reverseRecOn with
  | nil =>
    obtain rfl : b = b' := hb.resolve_right fun h => h rfl
    obtain rfl : vs' = [] := List.eq_nil_of_length_eq_zero hlen
    rfl
  | append_singleton vs x =>
    cases vs' using List.reverseRecOn with
    | nil => simp at hlen
    | append_singleton vs' x' => simpa [List.getLast?_cons] using hcomma

/-- A string literal without any of its quotes. -/
def valueOf (literal : Token) (leading trailing : List Trivia) : EnumValue where
  value := String.ofList (literal.text.toList.filter (· != '"'))
  leading := leading
  trailing := trailing

/-- What follows the literal of a value. -/
def valueRest (d : Dialect) (leading : List Trivia) (literal : Token) :
    Reader (EnumValue × Bool) := do
  let trailing ← trivia d
  let comma ← symbol ","
  return (valueOf literal leading trailing, comma)

theorem enumValue_eq (d : Dialect) (leading : List Trivia) :
    (enumValue d leading : Reader _) =
      expect .unexpectedEnumValue (token .string none) >>= valueRest d leading :=
  rfl

theorem enumValue_of_string {s : Token} {rest : List Token} {leading : List Trivia}
    {g : EnumValue × Bool → Reader β} (hs : s.kind = .string) (hafter : c.after = s :: rest) :
    (enumValue d leading >>= g) c = (valueRest d leading s >>= g) (c.next s rest) := by
  have hunescape : s.unescape = s := by simp [unescape, hs]
  have hliteral : (expect .unexpectedEnumValue (token .string none) : Reader _) c =
      .ok (s, c.next s rest) := by
    unfold expect
    rw [run_bind_of_ok ((token_of_cons hafter).trans (if_pos ⟨hs, rfl⟩)), hunescape]
    rfl
  rw [enumValue_eq]
  show ((expect .unexpectedEnumValue (token .string none) >>= valueRest d leading) c >>= fun p => _)
    = (valueRest d leading s (c.next s rest) >>= fun p => _)
  rw [run_bind_of_ok hliteral]

/-- A value begins with a string. -/
theorem not_answers_enumValue (h : ∀ s ∈ c.after.head?, s.kind ≠ .string)
    (leading : List Trivia) : Answers c (enumValue d leading) fun _ _ => False := by
  apply answers_bind
  apply answers_bind
  apply answers_token
  · exact fun s rest hafter hs _ => absurd hs (h s (by simp [hafter]))
  · exact fun _ => answers_fail

instance guided_valueRest (leading : List Trivia) (literal : Token) :
    Guided d' (valueRest d leading literal) (valueRest d leading literal) := by
  unfold valueRest
  infer_instance

theorem trivia_plain (hd : d.keepTrivia = false) (c : Cursor) :
    (trivia d : Reader _) c = .ok ([], c.skip) := by
  rw [trivia_apply, hd]
  rfl

/-- The value is read whether or not there is a comma behind it. -/
theorem valueRest_separator (hd : d.keepTrivia = false) (leading : List Trivia) (literal : Token)
    {s : Token} {gap rest : List Token} (hs : s.kind = .string) (hgap : Separator gap)
    (hafter : c.after = gap ++ s :: rest) :
    ∃ b c1, valueRest d leading literal c = .ok ((valueOf literal leading [], b), c1) ∧
      c1.skip.after = s :: rest := by
  have hsolid : s.isWhitespace = false := by simp [isWhitespace, hs]
  have hskip (c : Cursor) : c.skip.skip.after = c.skip.after := settled_skip c
  have hcore {ws us : List Token} (hws : ∀ t ∈ ws, t.isWhitespace) (ts : List Token)
      (hts : core ts = us) : core (ws ++ ts) = us := by
    rw [core, List.dropWhile_append_of_pos hws]
    exact hts
  have hrun {b : Bool} {c1 : Cursor} (h : (symbol "," : Reader _) c.skip = .ok (b, c1)) :
      valueRest d leading literal c = .ok ((valueOf literal leading [], b), c1) := by
    unfold valueRest
    rw [run_bind_of_ok (trivia_plain hd c), run_bind_of_ok h]
    rfl
  cases hgap with
  | blanks hws =>
    have hnext : c.skip.skip.after = s :: rest := by
      rw [hskip]
      exact (congrArg core hafter).trans (hcore hws (s :: rest) (core_cons_of_solid hsolid))
    exact ⟨false, c.skip.skip, hrun (symbol_of_kind hnext (by simp [hs])),
      (hskip c.skip).trans hnext⟩
  | @comma ws ws' hws hws' =>
    have hnext : c.skip.skip.after = mark "," :: (ws' ++ s :: rest) := by
      rw [hskip]
      rw [List.append_assoc] at hafter
      exact (congrArg core hafter).trans (hcore hws _ rfl)
    exact ⟨true, c.skip.skip.next (mark ",") (ws' ++ s :: rest), hrun (symbol_of_mark hnext),
      hcore hws' (s :: rest) (core_cons_of_solid hsolid)⟩

/-- The rounds of the body of an enumeration. -/
abbrev valueRounds (d : Dialect) (n : Nat) : Reader (List (EnumValue × Bool) × List Trivia) :=
  untilWithin (bodyRound d (enumValue d)) n

/-- In front of a `:` there is no value, and the body does not end. -/
theorem not_answers_valueRounds (hc : AtColon c) (n : Nat) :
    Answers c (valueRounds d n) fun _ _ => False := by
  cases n with
  | zero => exact answers_fail
  | succ n =>
    apply answers_bind
    apply answers_bind
    intro leading c1 hleading
    have h1 : AtColon c1 := (guided_trivia (d := d) d).stays c hc leading c1 hleading
    apply answers_bind
    intro closed c2 hclosed
    obtain ⟨rfl, rfl⟩ := answers_lexeme_atColon (f := Option.isSome) (colonless_mark (by decide)) h1
      closed c2 hclosed
    apply answers_bind
    intro a c3 hvalue
    refine (not_answers_enumValue (fun s hs hkind => ?_) leading a c3 hvalue).elim
    rw [AtColon, ← head?_after_skip] at h1
    obtain rfl := Option.some.inj (h1.symm.trans hs)
    exact TokenKind.noConfusion hkind

theorem skip_skip (c : Cursor) : c.skip.skip = c.skip := by
  have hgap : c.skip.gap = [] := gap_of_settled (settled_skip c)
  have hcore : core c.skip.after = c.skip.after := settled_skip c
  rw [Cursor.skip, hgap, show c.skip.after.dropWhile isWhitespace = _ from hcore]
  rfl

/-- Blanks in front of the body do not matter where no trivia is kept. -/
theorem valueRounds_skip (hd : d.keepTrivia = false) (c : Cursor) (n : Nat) :
    valueRounds d (n + 1) c.skip = valueRounds d (n + 1) c := by
  have hround : bodyRound d (enumValue d) c.skip = bodyRound d (enumValue d) c := by
    unfold bodyRound
    rw [run_bind_of_ok (trivia_plain hd c), run_bind_of_ok (trivia_plain hd c.skip), skip_skip]
  show (bodyRound d (enumValue d) c.skip >>= fun p => _) = (bodyRound d (enumValue d) c >>= fun p => _)
  rw [hround]

/-- Both runs have read one value, with a comma behind it or without, and the same string is next. -/
def Rejoined (d : Dialect) (c c' : Cursor) : Prop :=
  d.keepTrivia = false ∧ ∃ s rest, s.kind = .string ∧ c.skip.after = s :: rest ∧
    c'.skip.after = s :: rest

/-- How a round of the body ends beside another run of it. -/
inductive RoundEnd (d d' : Dialect)
    (run' : Except ParseError ((EnumValue × Bool ⊕ List Trivia) × Cursor)) :
    EnumValue × Bool ⊕ List Trivia → Cursor → Prop
  | same {r : EnumValue × Bool ⊕ List Trivia} {c c' : Cursor} (hrun' : run' = .ok (r, c'))
    (hc : Forked d' c c') : RoundEnd d d' run' r c
  | lost {a : EnumValue × Bool} {c : Cursor} (hc : AtColon c) : RoundEnd d d' run' (.inl a) c
  | comma {v : EnumValue} {b b' : Bool} {c c' : Cursor} (hrun' : run' = .ok (.inl (v, b'), c'))
    (hc : Rejoined d c c') : RoundEnd d d' run' (.inl (v, b)) c

theorem answers_valueRest (hd : d'.keepTrivia = d.keepTrivia) (leading : List Trivia) {s : Token}
    (hs : s.kind = .string) {rest rest' : List Token} (hafter : c.after = s :: rest)
    (hafter' : c'.after = s :: rest') (hc : Forked d' c c') :
    Answers (c.next s rest) (valueRest d leading s >>= fun a => pure (.inl a))
      (RoundEnd d d' ((valueRest d leading s >>= fun a => pure (.inl a) : Reader _)
        (c'.next s rest'))) := by
  rw [Forked, hafter, hafter'] at hc
  apply answers_bind
  intro a c1 hrun
  apply answers_pure
  rcases hc.string_tail hs with hc | ⟨hkeep, s', gap, gap', rest, hs', hgap, hgap', rfl, rfl⟩
  · rcases (guided_valueRest leading s).leads (c.next s rest) (c'.next s rest') hc a c1 hrun with
      hcolon | ⟨c1', hrun', h1⟩
    · exact .lost hcolon
    · exact .same (run_bind_of_ok hrun') h1
  · rw [hd] at hkeep
    obtain ⟨b, c2, hrun2, h2⟩ := valueRest_separator (c := c.next s (gap ++ s' :: rest)) hkeep
      leading s hs' hgap rfl
    obtain ⟨b', c2', hrun2', h2'⟩ := valueRest_separator (c := c'.next s (gap' ++ s' :: rest)) hkeep
      leading s hs' hgap' rfl
    cases hrun2.symm.trans hrun
    exact .comma (run_bind_of_ok hrun2') ⟨hkeep, s', rest, hs', h2, h2'⟩

/-- A round begins with the trivia and goes on at the token behind it. -/
theorem bodyRound_eq {leading : List Trivia} {closed : Bool} {u : Cursor}
    (htrivia : (trivia d : Reader _) c = .ok (leading, c.skip))
    (hclosed : (symbol "\x7d" : Reader _) c.skip = .ok (closed, u)) :
    bodyRound d (enumValue d) c =
      (if closed then pure (.inr leading) else enumValue d leading >>= fun a => pure (.inl a) :
        Reader (EnumValue × Bool ⊕ List Trivia)) u := by
  unfold bodyRound
  rw [run_bind_of_ok htrivia, run_bind_of_ok hclosed]

theorem answers_valueRound (hd : d'.keepTrivia = d.keepTrivia) (hc : Forked d' c c')
    (hcolon : ¬AtColon c) :
    Answers c (bodyRound d (enumValue d))
      (RoundEnd d d' (bodyRound d (enumValue d) c')) := by
  rcases Token.Forked.skip hc with ⟨hgap, hhead, hcore⟩ | hparting
  · have habreast : Abreast d' c.skip c'.skip := Abreast.skip ⟨hcore, hhead⟩
    apply answers_bind
    intro leading c1 hleading
    obtain ⟨hleading', rfl⟩ :
        (trivia d : Reader _) c' = .ok (leading, c'.skip) ∧ c1 = c.skip := by
      cases (trivia_apply d c).symm.trans hleading
      exact ⟨by rw [trivia_apply, show c.gap = c'.gap from hgap], rfl⟩
    apply answers_bind
    intro closed c2 hclosed
    obtain ⟨c2', hclosed', h2⟩ := follows_abreast_symbol _ c.skip c'.skip habreast closed c2 hclosed
    rw [bodyRound_eq hleading' hclosed']
    cases closed with
    | true => exact answers_pure (.same rfl h2)
    | false =>
      cases hafter : c2.after with
      | nil =>
        apply answers_bind
        exact fun a c3 hrun => (not_answers_enumValue (by simp [hafter]) leading a c3 hrun).elim
      | cons s rest =>
        by_cases hs : s.kind = .string
        · obtain ⟨rest', hafter'⟩ := List.head?_eq_some_iff.mp (hafter ▸ h2.head?).symm
          have hvalue := answers_valueRest hd leading hs hafter hafter' h2.forked
          rwa [Answers, ← enumValue_of_string hs hafter, ← enumValue_of_string hs hafter'] at hvalue
        · apply answers_bind
          exact fun a c3 hrun =>
            (not_answers_enumValue (by simpa [hafter] using hs) leading a c3 hrun).elim
  · exact absurd (Parting.atColon hparting) hcolon

/-- A string begins another value. -/
theorem valueRounds_ne_nil {s : Token} {rest : List Token} (hs : s.kind = .string)
    (hafter : c.skip.after = s :: rest) (n : Nat) :
    Answers c (valueRounds d n) fun r _ => r.1 ≠ [] := by
  have hnext : c.skip.skip.after = s :: rest := by rwa [skip_skip]
  have hclosed : (symbol "\x7d" : Reader _) c.skip = .ok (false, c.skip.skip) :=
    symbol_of_kind hnext (by simp [hs])
  cases n with
  | zero => exact answers_fail
  | succ n =>
    apply answers_bind
    rw [Answers, bodyRound_eq rfl hclosed]
    apply answers_bind
    intro a c1 _
    exact answers_pure (answers_bind fun r c2 _ => answers_pure (by simp))

theorem valueRounds_of_inl {n : Nat} {a : EnumValue × Bool}
    {r : List (EnumValue × Bool) × List Trivia} {c1 c2 : Cursor}
    (hround : bodyRound d (enumValue d) c = .ok (.inl a, c1))
    (hrest : valueRounds d n c1 = .ok (r, c2)) :
    valueRounds d (n + 1) c = .ok ((a :: r.1, r.2), c2) := by
  unfold valueRounds
  rw [untilWithin, run_bind_of_ok hround]
  exact run_bind_of_ok hrest

theorem valueRounds_of_inr {n : Nat} {closing : List Trivia} {c1 : Cursor}
    (hround : bodyRound d (enumValue d) c = .ok (.inr closing, c1)) :
    valueRounds d (n + 1) c = .ok (([], closing), c1) := by
  unfold valueRounds
  rw [untilWithin, run_bind_of_ok hround]
  rfl

theorem agreed_valueRounds (hd : d'.keepTrivia = d.keepTrivia) (n : Nat) (hc : Forked d' c c') :
    Answers c (valueRounds d n) fun r c1 => ∃ r' c1', valueRounds d n c' = .ok (r', c1') ∧
      Agreed r r' ∧ Forked d' c1 c1' := by
  induction n generalizing c c' with
  | zero => exact answers_fail
  | succ n ih =>
    by_cases hcolon : AtColon c
    · exact fun r c1 hrun => (not_answers_valueRounds hcolon _ r c1 hrun).elim
    · apply answers_bind
      intro step c1 hstep
      cases answers_valueRound hd hc hcolon step c1 hstep with
      | @same _ _ c1' hrun' h1 =>
        cases step with
        | inr closing =>
          exact answers_pure ⟨_, c1', valueRounds_of_inr hrun', .refl _, h1⟩
        | inl a =>
          apply answers_bind
          intro r c2 hrest
          obtain ⟨r', c2', hrest', hagreed, h2⟩ := ih h1 r c2 hrest
          apply answers_pure
          exact ⟨_, c2', valueRounds_of_inl hrun' hrest', hagreed.cons a.1 (.inl rfl), h2⟩
      | lost hcolon =>
        apply answers_bind
        exact fun r c2 hrest => (not_answers_valueRounds hcolon n r c2 hrest).elim
      | @comma v b b' _ c1' hrun' hrejoined =>
        obtain ⟨hkeep, s, rest, hs, hafter, hafter'⟩ := hrejoined
        apply answers_bind
        intro r c2 hrest
        cases n with
        | zero => cases hrest
        | succ n =>
          have hnonempty := valueRounds_ne_nil hs hafter (n + 1) r c2 hrest
          have h1 : Forked d' c1.skip c1'.skip := by
            rw [Forked, hafter, hafter']
            exact .same _
          obtain ⟨r', c2', hrest', hagreed, h2⟩ := ih h1 r c2 ((valueRounds_skip hkeep c1 n).trans hrest)
          have hrest' := (valueRounds_skip hkeep c1' n).symm.trans hrest'
          apply answers_pure
          exact ⟨_, c2', valueRounds_of_inl hrun' hrest', hagreed.cons v (.inr hnonempty), h2⟩

/-- What is read behind the body is told by what the values agree on. -/
theorem guided_values {k : List EnumValue → Bool → List Trivia → Reader β}
    (hd : d'.keepTrivia = d.keepTrivia) [hk : ∀ vs b items, Guided d' (k vs b items) (k vs b items)] :
    Guided d'
      (body d (enumValue d) >>= fun r =>
        k (r.1.map Prod.fst) ((r.1.getLast?.map Prod.snd).getD false) r.2)
      (body d (enumValue d) >>= fun r =>
        k (r.1.map Prod.fst) ((r.1.getLast?.map Prod.snd).getD false) r.2) := by
  have hstable : Stable (valueRounds d) := stable_untilWithin gains_bodyRound
  have hbody : (body d (enumValue d) : Reader _) = bounded (valueRounds d) := rfl
  constructor
  · intro c c' hc
    obtain ⟨n, hleft, hright⟩ := exists_common_bound hstable hstable c c'
    apply answers_bind
    intro r c1 hrun b c2 hrest
    rw [hbody, hleft] at hrun
    obtain ⟨r', c1', hrun', hagreed, h1⟩ := agreed_valueRounds hd n hc r c1 hrun
    rw [← hright, ← hbody] at hrun'
    rcases (hk _ _ _).leads c1 c1' h1 b c2 hrest with hcolon | ⟨c2', hrest', h2⟩
    · exact .inl hcolon
    · refine .inr ⟨c2', (run_bind_of_ok hrun').trans ?_, h2⟩
      rw [hagreed.values, hagreed.trailingComma, hagreed.closing]
      exact hrest'
  · intro c hc
    apply answers_bind
    exact fun r c1 hrun => (not_answers_valueRounds hc _ r c1 hrun).elim

/-- What follows the body of an enumeration. -/
def enumRest (name : String) (values : List EnumValue) (trailingComma : Bool)
    (closing : List Trivia) : Reader (Option DefinitionKind) := do
  expectSymbol ";" .unfinishedEnum
  return some (.enum { name, values, trailingComma, closing })

theorem enum_eq (d : Dialect) :
    (enum d : Reader _) = keyword "enum" >>= fun found =>
      if found then
        expectIdentifier .noEnumName >>= fun name => expectSymbol "\x7b" .noEnumBody >>= fun _ =>
          body d (enumValue d) >>= fun r =>
            enumRest name (r.1.map Prod.fst) ((r.1.getLast?.map Prod.snd).getD false) r.2
      else pure none :=
  rfl

theorem guided_enum (hd : d'.keepTrivia = d.keepTrivia) : Guided d' (enum d : Reader _) (enum d) := by
  have hrest (name : String) (values : List EnumValue) (trailingComma : Bool)
      (closing : List Trivia) : Guided d' (enumRest name values trailingComma closing)
        (enumRest name values trailingComma closing) := by
    unfold enumRest
    infer_instance
  have hvalues (name : String) := guided_values (k := enumRest name) hd
  rw [enum_eq]
  infer_instance

end Grammar

end WebIdl

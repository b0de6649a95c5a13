import WebIdl.Grammar.Reader
import WebIdl.Proofs.WellFormed

/-!
# What can be said of answers

`Answers c r Q` says that `Q` holds of every answer that the reader `r` gives at the cursor `c`,
and of the cursor behind it; where the reader fails there is nothing to show. The tokens in front
of a cursor are those of a lexer, so each of them tells what its text looks like, and what has been
read and what has been refused is said of the tokens `ahead`, blanks aside.
-/

namespace WebIdl

theorem Token.eq_of_asked {t : Token} {kind : TokenKind} {w : String} (hkind : t.kind = kind)
    (htext : (some w).all (· = t.text)) : t = ⟨kind, w⟩ := by
  obtain ⟨kind', text⟩ := t
  obtain rfl : kind' = kind := hkind
  obtain rfl : w = text := by simpa using htext
  rfl

theorem exists_of_map_eq_ok {ε α β : Type} {f : α → β} {r : Except ε α} {b : β}
    (h : r.map f = .ok b) : ∃ a, r = .ok a ∧ f a = b := by
  cases r with
  | error e => cases h
  | ok a => exact ⟨a, rfl, by cases h; rfl⟩

end WebIdl

namespace WebIdl.Cursor

open Token

/-- The tokens still to come, blanks aside. -/
def ahead (c : Cursor) : List Token :=
  solids c.after

/-- The tokens are those of a lexer, and no name among them is escaped. -/
structure Cut (c : Cursor) : Prop where
  isCut : IsCut c.tokens
  unescaped : Token.Unescaped c.tokens

/-- No blanks come next. -/
def Settled (c : Cursor) : Prop :=
  core c.after = c.after

variable {c c' : Cursor}

theorem after_suffix (c : Cursor) : c.after <:+ c.tokens :=
  List.suffix_append _ _

theorem Cut.after (h : Cut c) : IsCut c.after :=
  h.isCut.suffix (after_suffix c)

theorem Cut.of_tokens_eq (h : Cut c) (heq : c'.tokens = c.tokens) : Cut c' :=
  ⟨heq ▸ h.isCut, fun t ht => h.unescaped t (heq ▸ ht)⟩

theorem Cut.skip (h : Cut c) : Cut c.skip :=
  h.of_tokens_eq (tokens_skip c)

theorem settled_skip (c : Cursor) : Settled c.skip := by
  rw [Settled, show c.skip.after = core c.after from rfl]
  cases h : core c.after with
  | nil => rfl
  | cons t us => exact core_cons_of_solid (core_eq_cons_iff_head h)

@[simp] theorem ahead_skip (c : Cursor) : c.skip.ahead = c.ahead :=
  solids_core c.after

theorem head?_after_skip (c : Cursor) : c.skip.after.head? = c.ahead.head? :=
  head?_core c.after

theorem gap_of_settled (h : Settled c) : c.gap = [] := by
  have hlen := congrArg List.length (lead_append_core c.after)
  rw [show core c.after = c.after from h, List.length_append] at hlen
  exact List.length_eq_zero_iff.mp (by rw [show c.gap = lead c.after from rfl]; omega)

/-- The second cursor stands somewhere behind the first. -/
structure Onward (c c' : Cursor) : Prop where
  cut : Cut c'
  length_le : c'.ahead.length ≤ c.ahead.length

theorem Cut.onward (h : Cut c) : Onward c c :=
  ⟨h, Nat.le_refl _⟩

theorem Onward.trans {c'' : Cursor} (h : Onward c c') (h' : Onward c' c'') : Onward c c'' :=
  ⟨h'.cut, Nat.le_trans h'.length_le h.length_le⟩

theorem onward_of_ahead_eq (h : Cut c') (heq : c'.ahead = c.ahead) : Onward c c' :=
  ⟨h, Nat.le_of_eq (congrArg List.length heq)⟩

theorem onward_of_ahead_cons {t : Token} (h : Cut c') (heq : c.ahead = t :: c'.ahead) :
    Onward c c' :=
  ⟨h, by rw [heq]; exact Nat.le_succ _⟩

/-- The second cursor stands behind the first with a token between them. -/
structure Past (c c' : Cursor) : Prop where
  cut : Cut c'
  length_lt : c'.ahead.length < c.ahead.length

theorem Past.onward (h : Past c c') : Onward c c' :=
  ⟨h.cut, Nat.le_of_lt h.length_lt⟩

theorem Past.pos (h : Past c c') : 0 < c.ahead.length :=
  Nat.lt_of_le_of_lt (Nat.zero_le _) h.length_lt

theorem Past.trans {c'' : Cursor} (h : Past c c') (h' : Onward c' c'') : Past c c'' :=
  ⟨h'.cut, Nat.lt_of_le_of_lt h'.length_le h.length_lt⟩

theorem Onward.past {c'' : Cursor} (h : Onward c c') (h' : Past c' c'') : Past c c'' :=
  ⟨h'.cut, Nat.lt_of_lt_of_le h'.length_lt h.length_le⟩

theorem past_of_ahead_cons {t : Token} (h : Cut c') (heq : c.ahead = t :: c'.ahead) :
    Past c c' :=
  ⟨h, by rw [heq]; exact Nat.lt_succ_self _⟩

theorem length_ahead_of_cons {t : Token} (heq : c.ahead = t :: c'.ahead) :
    c.ahead.length = c'.ahead.length + 1 := by
  rw [heq]
  rfl

/-- Behind the next token, be it blank or not. -/
theorem Cut.next {t : Token} {rest : List Token} (hc : Cut c) (h : c.after = t :: rest) :
    Onward c ⟨t :: c.before, rest, c.line⟩ := by
  refine ⟨hc.of_tokens_eq (by simp [tokens, h]), ?_⟩
  show (solids rest).length ≤ (solids c.after).length
  rw [h]
  exact ((List.sublist_cons_self t rest).filter _).length_le

/-- A step back brings one token back. -/
theorem length_ahead_unconsume (c : Cursor) :
    c.unconsume.ahead.length ≤ c.ahead.length + 1 := by
  rcases c with ⟨_ | ⟨t, before⟩, after, line⟩
  · exact Nat.le_succ _
  · show (solids (t :: after)).length ≤ (solids after).length + 1
    cases ht : t.isWhitespace with
    | true => rw [solids_cons_of_blank ht]; exact Nat.le_succ _
    | false => rw [solids_cons_of_solid ht]; exact Nat.le_refl _

/-- The first token behind the blanks, and the cursor behind it. -/
theorem Cut.step {t : Token} {rest : List Token} (hc : Cut c) (h : c.skip.after = t :: rest) :
    Cut ⟨t :: c.skip.before, rest, c.skip.line⟩ ∧ c.ahead = t :: solids rest ∧
      IsCut (t :: rest) ∧ (t.kind = .identifier → t.chars.head? ≠ some '_') := by
  have hskip := hc.skip
  have hsolid := core_eq_cons_iff_head h
  refine ⟨hskip.of_tokens_eq (by rw [tokens, tokens, h]; simp), ?_, h ▸ hskip.after, ?_⟩
  · rw [← ahead_skip, ahead, h, solids_cons_of_solid hsolid]
  · exact hskip.unescaped t ((after_suffix _).subset (h ▸ List.mem_cons_self))

end WebIdl.Cursor

namespace WebIdl.Grammar

open Token Cursor

variable {α β γ : Type} {c : Cursor}

def Answers (c : Cursor) (r : Reader α) (Q : α → Cursor → Prop) : Prop :=
  ∀ a c', r c = .ok (a, c') → Q a c'

theorem Answers.mono {r : Reader α} {Q R : α → Cursor → Prop} (h : Answers c r Q)
    (hQ : ∀ a c', Q a c' → R a c') : Answers c r R :=
  fun a c' heq => hQ a c' (h a c' heq)

theorem answers_pure {a : α} {Q : α → Cursor → Prop} (h : Q a c) : Answers c (pure a) Q := by
  rintro _ _ heq
  cases heq
  exact h

theorem answers_bind {r : Reader α} {f : α → Reader β} {Q : β → Cursor → Prop}
    (h : Answers c r fun a c' => Answers c' (f a) Q) : Answers c (r >>= f) Q := by
  intro b c'' heq
  have hrun : (r >>= f) c = (r c >>= fun p => f p.1 p.2) := rfl
  rw [hrun] at heq
  cases hr : r c with
  | error e => rw [hr] at heq; cases heq
  | ok p => rw [hr] at heq; exact h p.1 p.2 hr b c'' heq

theorem answers_get {Q : Cursor → Cursor → Prop} (h : Q c c) :
    Answers c (get : Reader Cursor) Q := by
  rintro _ _ heq
  cases heq
  exact h

theorem answers_set {c' : Cursor} {Q : PUnit → Cursor → Prop} (h : Q ⟨⟩ c') :
    Answers c (set c' : Reader PUnit) Q := by
  rintro _ _ heq
  cases heq
  exact h

theorem answers_modify {f : Cursor → Cursor} {Q : PUnit → Cursor → Prop} (h : Q ⟨⟩ (f c)) :
    Answers c (modify f : Reader PUnit) Q := by
  rintro _ _ heq
  cases heq
  exact h

theorem answers_skip {Q : Unit → Cursor → Prop} (h : Q () c.skip) : Answers c skip Q :=
  answers_modify h

theorem trivia_apply (d : Dialect) (c : Cursor) : (trivia d : Reader (List Trivia)) c =
    .ok (if d.keepTrivia then Trivia.ofText (source c.gap) else [], c.skip) :=
  rfl

theorem answers_fail {reason : Reason} {Q : α → Cursor → Prop} : Answers c (fail reason) Q := by
  rintro a c' heq
  cases heq

theorem token_apply (kind : TokenKind) (text : Option String) (c : Cursor) :
    (token kind text : Reader (Option Token)) c =
      (match c.consume? kind text with
        | none => pure none
        | some (t, c1) => set c1 >>= fun _ => pure (some t) : Reader (Option Token)) c :=
  rfl

/-- A token is read if it is the one asked for, and nothing is read otherwise. -/
theorem answers_token {kind : TokenKind} {text : Option String} {Q : Option Token → Cursor → Prop}
    (hsome : ∀ t rest, c.after = t :: rest → t.kind = kind → text.all (· = t.text) →
      Q (some t.unescape) ⟨t :: c.before, rest, c.line⟩)
    (hnone : (∀ t ∈ c.after.head?, t.kind = kind → ¬text.all (· = t.text)) → Q none c) :
    Answers c (token kind text) Q := by
  refine answers_bind (answers_get ?_)
  cases hafter : c.after with
  | nil =>
    rw [show c.consume? kind text = none by simp only [Cursor.consume?, hafter]]
    exact answers_pure (hnone (by simp [hafter]))
  | cons t rest =>
    by_cases ht : t.kind = kind ∧ text.all (· = t.text)
    · have hconsume : c.consume? kind text = some (t.unescape, ⟨t :: c.before, rest, c.line⟩) := by
        simp only [Cursor.consume?, hafter, if_pos ht]
      rw [hconsume]
      exact answers_bind (answers_set (answers_pure (hsome t rest hafter ht.1 ht.2)))
    · have hconsume : c.consume? kind text = none := by
        simp only [Cursor.consume?, hafter, if_neg ht]
      rw [hconsume]
      refine answers_pure (hnone fun u hu hkind htext => ht ?_)
      obtain rfl : t = u := by simpa [hafter] using hu
      exact ⟨hkind, htext⟩

/-- Behind blanks the token that is asked for comes next, or nothing but the blanks is read. -/
theorem answers_asked {kind : TokenKind} {w : String} {Q : Bool → Cursor → Prop} (hc : Cut c)
    (hyes : ∀ c', Cut c' → c.ahead = ⟨kind, w⟩ :: c'.ahead → Q true c')
    (hno : ∀ c', Cut c' → Settled c' → c'.ahead = c.ahead → c.ahead.head? ≠ some ⟨kind, w⟩ →
      Q false c') :
    Answers c (do skip; return (← token kind (some w)).isSome) Q := by
  refine answers_bind (answers_skip (answers_bind (answers_token ?_ ?_)))
  · rintro t rest hafter hkind htext
    obtain ⟨hcut, hahead, -⟩ := hc.step hafter
    obtain rfl : t = ⟨kind, w⟩ := eq_of_asked hkind htext
    exact answers_pure (hyes _ hcut hahead)
  · intro hnone
    refine answers_pure (hno _ hc.skip (settled_skip c) (ahead_skip c) fun heq => ?_)
    rw [← head?_after_skip] at heq
    exact hnone _ heq rfl (by simp)

theorem answers_keyword {w : String} {Q : Bool → Cursor → Prop} (hc : Cut c)
    (hyes : ∀ c', Cut c' → c.ahead = word w :: c'.ahead → Q true c')
    (hno : ∀ c', Cut c' → Settled c' → c'.ahead = c.ahead → c.ahead.head? ≠ some (word w) →
      Q false c') : Answers c (keyword w) Q :=
  answers_asked hc hyes hno

/-- A word that may be left out. -/
def flagged (flag : Bool) (w : String) : List Token :=
  if flag then [word w] else []

theorem answers_flag {w : String} {Q : Bool → Cursor → Prop} (hc : Cut c)
    (h : ∀ b c', Cut c' → c.ahead = flagged b w ++ c'.ahead →
      (b = false → c.ahead.head? ≠ some (word w)) → Q b c') : Answers c (keyword w) Q :=
  answers_keyword hc (fun c' hc' hahead => h true c' hc' hahead (by simp))
    fun c' hc' _ hahead hno => h false c' hc' hahead.symm fun _ => hno

theorem answers_symbol {m : String} {Q : Bool → Cursor → Prop} (hc : Cut c)
    (hyes : ∀ c', Cut c' → c.ahead = mark m :: c'.ahead → Q true c')
    (hno : ∀ c', Cut c' → Settled c' → c'.ahead = c.ahead → c.ahead.head? ≠ some (mark m) →
      Q false c') : Answers c (symbol m) Q :=
  answers_asked hc hyes hno

theorem answers_identifier {Q : Option String → Cursor → Prop} (hc : Cut c)
    (hsome : ∀ s c', Cut c' → IsName s → c.ahead = word s :: c'.ahead → Q (some s) c')
    (hnone : ∀ c', Cut c' → Settled c' → c'.ahead = c.ahead → Q none c') :
    Answers c identifier Q := by
  refine answers_bind (answers_skip (answers_bind (answers_token ?_ ?_)))
  · rintro ⟨kind, s⟩ rest hafter rfl -
    obtain ⟨hcut, hahead, hisCut, hunescaped⟩ := hc.step hafter
    have hname : IsName s := ⟨hisCut.isWord rfl, hunescaped rfl⟩
    rw [show (⟨.identifier, s⟩ : Token).unescape = word s from hname.unescape_word]
    exact answers_pure (hsome s _ hcut hname hahead)
  · intro _
    exact answers_pure (hnone _ hc.skip (settled_skip c) (ahead_skip c))

/-- The trivia that a parse keeps is a run, and it is closed if something follows it. -/
theorem answers_trivia {d : Dialect} {Q : List Trivia → Cursor → Prop} (hc : Cut c)
    (h : ∀ items c', Cut c' → Settled c' → c'.ahead = c.ahead →
      (if d.keepTrivia then Trivia.IsRun items else items = []) →
      (0 < c'.ahead.length → d.Keeps items) → (Settled c → items = []) → Q items c') :
    Answers c (trivia d) Q := by
  refine answers_bind (answers_get (answers_bind (answers_skip (answers_pure ?_))))
  obtain ⟨items, hchars, hrun, hclosed⟩ := hc.after.exists_lead
  have hgap : (Token.source c.gap).toList = Trivia.chars items := by
    rw [toList_source]
    exact hchars
  have hitems : Trivia.ofText (Token.source c.gap) = items := by
    rw [Trivia.ofText, hgap, Trivia.pieces_chars hrun]
  rw [hitems]
  refine h _ _ hc.skip (settled_skip c) (ahead_skip c) ?_ ?_ ?_
  · split
    · exact hrun
    · rfl
  · intro hahead
    rw [Dialect.Keeps]
    split
    · refine ⟨hrun, hclosed.resolve_right fun hnil => ?_⟩
      rw [ahead_skip, ahead, ← solids_core, hnil] at hahead
      exact absurd hahead (Nat.lt_irrefl 0)
    · rfl
  · intro hsettled
    rw [gap_of_settled hsettled] at hitems
    split
    · rw [← hitems]
      simp [Trivia.ofText, Token.source, Trivia.pieces]
    · rfl

theorem answers_expect {p : Reader (Option α)} {reason : Reason} {Q : α → Cursor → Prop}
    (h : Answers c p fun o c' => ∀ a, o = some a → Q a c') : Answers c (expect reason p) Q := by
  refine answers_bind (h.mono fun o c' ho => ?_)
  cases o with
  | none => exact answers_fail
  | some a => exact answers_pure (ho a rfl)

theorem answers_expectSymbol {m : String} {reason : Reason} {Q : Unit → Cursor → Prop} (hc : Cut c)
    (h : ∀ c', Cut c' → c.ahead = mark m :: c'.ahead → Q () c') :
    Answers c (expectSymbol m reason) Q :=
  answers_bind (answers_symbol hc (fun c' hc' hahead => answers_pure (h c' hc' hahead))
    fun _ _ _ _ _ => answers_fail)

theorem answers_expectIdentifier {reason : Reason} {Q : String → Cursor → Prop} (hc : Cut c)
    (h : ∀ s c', Cut c' → IsName s → c.ahead = word s :: c'.ahead → Q s c') :
    Answers c (expectIdentifier reason) Q := by
  refine answers_expect (answers_identifier hc (fun s c' hc' hs hahead => ?_) fun c' _ _ _ => ?_)
  · rintro _ ⟨⟩
    exact h s c' hc' hs hahead
  · rintro _ ⟨⟩

/-- What is left of an attempt behind the production that it makes, begun at `back`. -/
def rewind (back : Cursor) : Option α → Reader (Option α)
  | some a => pure (some a)
  | none => set back >>= fun _ => pure none

theorem attempt_apply (p : Reader (Option α)) (c : Cursor) :
    attempt p c = (p >>= rewind c) c :=
  rfl

theorem answers_attempt {p : Reader (Option α)} {Q : Option α → Cursor → Prop}
    (h : Answers c p fun o c' => (∀ a, o = some a → Q (some a) c') ∧ (o = none → Q none c)) :
    Answers c (attempt p) Q := by
  refine answers_bind (answers_get (answers_bind (h.mono fun o c' ho => ?_)))
  cases o with
  | none => exact answers_bind (answers_set (answers_pure (ho.2 rfl)))
  | some a => exact answers_pure (ho.1 a rfl)

theorem answers_firstOf_nil {Q : Option α → Cursor → Prop} (h : Q none c) :
    Answers c (firstOf []) Q :=
  answers_pure h

theorem answers_firstOf {p : Reader (Option α)} {ps : List (Reader (Option α))}
    {Q : Option α → Cursor → Prop}
    (h : Answers c p fun o c' =>
      (∀ a, o = some a → Q (some a) c') ∧ (o = none → Answers c' (firstOf ps) Q)) :
    Answers c (firstOf (p :: ps)) Q := by
  refine answers_bind (h.mono fun o c' ho => ?_)
  cases o with
  | none => exact ho.2 rfl
  | some a => exact answers_pure (ho.1 a rfl)

/-- `R` is said of the answer of a production and of the cursor behind it. -/
def Gives (R : α → Cursor → Prop) (p : Reader (Option α)) : Prop :=
  ∀ c, Cut c → Answers c p fun o c' => Onward c c' ∧ ∀ a ∈ o, R a c'

/-- An answer of some alternative, behind blanks that others have skipped. -/
theorem gives_firstOf {R : α → Cursor → Prop} {ps : List (Reader (Option α))}
    (hps : ∀ p ∈ ps, Gives R p) : Gives R (firstOf ps) := by
  induction ps with
  | nil => exact fun c hc => answers_firstOf_nil ⟨hc.onward, by simp⟩
  | cons p ps ih =>
    intro c hc
    refine answers_firstOf ((hps p List.mem_cons_self c hc).mono ?_)
    rintro o c1 ⟨h1, ho⟩
    refine ⟨?_, fun _ => ?_⟩
    · rintro a rfl
      exact ⟨h1, ho⟩
    · refine (ih (fun q hq => hps q (List.mem_cons_of_mem p hq)) c1 h1.cut).mono ?_
      exact fun o' c2 h2 => ⟨h1.trans h2.1, h2.2⟩

theorem answers_mapped {f : α → β} {p : Reader (Option α)} {Q : Option β → Cursor → Prop}
    (h : Answers c p fun o c' => Q (o.map f) c') : Answers c (mapped f p) Q :=
  answers_bind (h.mono fun _ _ ho => answers_pure ho)

theorem answers_bounded {p : Nat → Reader α} {Q : α → Cursor → Prop}
    (h : ∀ n, Answers c (p n) Q) : Answers c (bounded p) Q :=
  answers_bind (answers_get (h _))

section Loops

/-- What holds of the state in front of each round holds behind the last one. -/
theorem answers_iterateWithin {σ : Type} {step : σ → Reader (Option σ)} {I : σ → Cursor → Prop}
    {Q : σ → Cursor → Prop} (hQ : ∀ s c, I s c → Q s c)
    (hstep : ∀ s c, I s c → Answers c (step s) fun o c' =>
      (∀ t, o = some t → I t c') ∧ (o = none → Q s c'))
    {n : Nat} {s : σ} (h : I s c) : Answers c (iterateWithin step n s) Q := by
  induction n generalizing s c with
  | zero => exact answers_pure (hQ s c h)
  | succ n ih =>
    refine answers_bind ((hstep s c h).mono fun o c' ho => ?_)
    cases o with
    | none => exact answers_pure (ho.2 rfl)
    | some t => exact ih (ho.1 t rfl)

/-- `I` holds of the answers so far in front of each round. -/
theorem answers_untilWithin {step : Reader (α ⊕ β)} {I : List α → Cursor → Prop}
    {Q : List α → β → Cursor → Prop}
    (hstep : ∀ as c, I as c → Answers c step fun r c' =>
      (∀ a, r = .inl a → I (as ++ [a]) c') ∧ ∀ b, r = .inr b → Q as b c')
    {n : Nat} {as : List α} (h : I as c) :
    Answers c (untilWithin step n) fun r c' => Q (as ++ r.1) r.2 c' := by
  induction n generalizing as c with
  | zero => exact answers_fail
  | succ n ih =>
    refine answers_bind ((hstep as c h).mono ?_)
    rintro (a | b) c1 ⟨ha, hb⟩
    · refine answers_bind ((ih (ha a rfl)).mono fun r c2 hr => answers_pure ?_)
      rwa [List.append_assoc, List.singleton_append] at hr
    · exact answers_pure (by simpa using hb b rfl)

theorem answers_untilDone {step : Reader (α ⊕ β)} {I : List α → Cursor → Prop}
    {Q : List α → β → Cursor → Prop} (h : I [] c)
    (hstep : ∀ as c, I as c → Answers c step fun r c' =>
      (∀ a, r = .inl a → I (as ++ [a]) c') ∧ ∀ b, r = .inr b → Q as b c') :
    Answers c (untilDone step) fun r c' => Q r.1 r.2 c' :=
  answers_bounded fun _ => answers_untilWithin hstep h

theorem answers_many {step : Reader (Option α)} {I Q : List α → Cursor → Prop} (h : I [] c)
    (hstep : ∀ as c, I as c → Answers c step fun o c' =>
      (∀ a, o = some a → I (as ++ [a]) c') ∧ (o = none → Q as c')) :
    Answers c (many step) Q := by
  refine answers_bind ((answers_untilDone (I := I) (Q := fun as _ => Q as) h ?_).mono
    fun r c' hr => answers_pure hr)
  intro as c hI
  refine answers_bind ((hstep as c hI).mono ?_)
  rintro (_ | a) c' ⟨hsome, hnone⟩
  · exact answers_pure ⟨by simp, fun _ _ => hnone rfl⟩
  · refine answers_pure ⟨?_, by simp⟩
    rintro _ ⟨⟩
    exact hsome a rfl

/-- The items behind commas, of which `R` still holds behind the last one. -/
theorem answers_afterCommas {item : Reader α} {R : α → Cursor → Prop}
    (hmono : ∀ a c c', R a c → Onward c c' → R a c')
    (hitem : ∀ c, Cut c → Answers c item fun a c' => Onward c c' ∧ R a c') (hc : Cut c) :
    Answers c (afterCommas item) fun as c' => Onward c c' ∧ ∀ a ∈ as, R a c' := by
  refine answers_many (I := fun as c' => Onward c c' ∧ ∀ a ∈ as, R a c') ⟨hc.onward, by simp⟩ ?_
  rintro as c1 ⟨h1, has⟩
  refine answers_bind (answers_symbol h1.cut (fun c2 hc2 h2 => ?_) fun c2 hc2 _ h2 _ => ?_)
  · have hcomma := onward_of_ahead_cons hc2 h2
    refine answers_bind ((hitem c2 hc2).mono fun a c3 h3 => answers_pure ⟨?_, by simp⟩)
    rintro _ ⟨⟩
    refine ⟨(h1.trans hcomma).trans h3.1, fun b hb => ?_⟩
    rcases List.mem_append.mp hb with hb | hb
    · exact hmono b c1 c3 (has b hb) (hcomma.trans h3.1)
    · obtain rfl : b = a := by simpa using hb
      exact h3.2
  · have hend := onward_of_ahead_eq hc2 h2
    exact answers_pure ⟨by simp, fun _ => ⟨h1.trans hend, fun a ha => hmono a c1 c2 (has a ha) hend⟩⟩

/-- None at all, or a first item and those behind commas. -/
theorem gives_commaSeparated {first : Reader (Option α)} {next : Reader α}
    {R : α → Cursor → Prop} (hmono : ∀ a c c', R a c → Onward c c' → R a c')
    (hfirst : Gives R first)
    (hnext : ∀ c, Cut c → Answers c next fun a c' => Onward c c' ∧ R a c') :
    Gives (fun as c' => ∀ a ∈ as, R a c') (commaSeparated first next) := by
  refine fun c hc => answers_bind ((hfirst c hc).mono ?_)
  rintro (_ | a) c1 ⟨h1, ha⟩
  · exact answers_pure ⟨h1, by simp⟩
  · refine answers_bind ((answers_afterCommas hmono hnext h1.cut).mono fun as c2 h2 => ?_)
    refine answers_pure ⟨h1.trans h2.1, ?_⟩
    rintro _ ⟨⟩
    simpa using ⟨hmono a c1 c2 (ha a rfl) h2.1, h2.2⟩

end Loops

end WebIdl.Grammar

import WebIdl.Grammar.Definitions
import WebIdl.Proofs.Answers.Rules

/-!
# How far readers get

A reader never goes back behind the place where it started, and its line counts the line feeds of
the blanks it has passed. A production that answers something has read a token that is not blank,
so a loop over such productions comes to its end before its bound does. The marks that have been
read are those of the grammar. Nothing is assumed of the tokens here: they may be such as no lexer
gives.
-/

namespace WebIdl.Token

/-- The marks that the grammar asks for. -/
def grammarMarks : List String :=
  ["(", ")", ",", "-", ".", ":", ";", "<", "=", ">", "?", "[", "]", "\x7b", "\x7d"]

/-- No other mark is ever read. -/
def Known (t : Token) : Prop :=
  t.kind = .other → t.text ∈ grammarMarks

theorem known_of_kind_ne {t : Token} (h : t.kind ≠ .other) : Known t :=
  fun ht => absurd ht h

/-- A mark of the grammar. -/
class Punctuation (m : String) : Prop where
  mem : m ∈ grammarMarks

instance punctuation_leftParen : Punctuation "(" := ⟨by decide⟩

instance punctuation_rightParen : Punctuation ")" := ⟨by decide⟩

instance punctuation_comma : Punctuation "," := ⟨by decide⟩

instance punctuation_minus : Punctuation "-" := ⟨by decide⟩

instance punctuation_dot : Punctuation "." := ⟨by decide⟩

instance punctuation_colon : Punctuation ":" := ⟨by decide⟩

instance punctuation_semicolon : Punctuation ";" := ⟨by decide⟩

instance punctuation_less : Punctuation "<" := ⟨by decide⟩

instance punctuation_equals : Punctuation "=" := ⟨by decide⟩

instance punctuation_greater : Punctuation ">" := ⟨by decide⟩

instance punctuation_question : Punctuation "?" := ⟨by decide⟩

instance punctuation_leftBracket : Punctuation "[" := ⟨by decide⟩

instance punctuation_rightBracket : Punctuation "]" := ⟨by decide⟩

instance punctuation_leftBrace : Punctuation "\x7b" := ⟨by decide⟩

instance punctuation_rightBrace : Punctuation "\x7d" := ⟨by decide⟩

end WebIdl.Token

namespace WebIdl.Cursor

open Token

/-- Reading on from the first cursor leads to the second. -/
def Reaches (c c' : Cursor) : Prop :=
  ∃ read, c.after = read ++ c'.after ∧ c'.before = read.reverse ++ c.before ∧
    c'.line = c.line + lineFeeds (read.filter isWhitespace) ∧ ∀ t ∈ read, Known t

/-- On the way there stands a token that is not blank. -/
structure Clears (c c' : Cursor) : Prop where
  reaches : Reaches c c'
  length_lt : c'.ahead.length < c.ahead.length

variable {c c' c'' : Cursor}

theorem lineFeeds_append (ts us : List Token) :
    lineFeeds (ts ++ us) = lineFeeds ts + lineFeeds us := by
  induction ts with
  | nil => simp [lineFeeds]
  | cons t ts ih => simp only [List.cons_append, lineFeeds, ih, Nat.add_assoc]

theorem reaches_refl (c : Cursor) : Reaches c c :=
  ⟨[], by simp [lineFeeds]⟩

theorem Reaches.trans (h : Reaches c c') (h' : Reaches c' c'') : Reaches c c'' := by
  obtain ⟨read, hafter, hbefore, hline, hknown⟩ := h
  obtain ⟨more, hafter', hbefore', hline', hknown'⟩ := h'
  refine ⟨read ++ more, ?_, ?_, ?_, ?_⟩
  · rw [hafter, hafter', List.append_assoc]
  · rw [hbefore', hbefore, List.reverse_append, List.append_assoc]
  · rw [hline', hline, List.filter_append, lineFeeds_append, Nat.add_assoc]
  · exact List.forall_mem_append.mpr ⟨hknown, hknown'⟩

theorem Reaches.suffix (h : Reaches c c') : c'.after <:+ c.after := by
  obtain ⟨read, hafter, -⟩ := h
  exact ⟨read, hafter.symm⟩

theorem Reaches.length_le (h : Reaches c c') : c'.ahead.length ≤ c.ahead.length :=
  (h.suffix.sublist.filter _).length_le

theorem Clears.trans (h : Clears c c') (h' : Reaches c' c'') : Clears c c'' :=
  ⟨h.reaches.trans h', Nat.lt_of_le_of_lt h'.length_le h.length_lt⟩

theorem Reaches.clears (h : Reaches c c') (h' : Clears c' c'') : Clears c c'' :=
  ⟨h.trans h'.reaches, Nat.lt_of_lt_of_le h'.length_lt h.length_le⟩

theorem reaches_skip (c : Cursor) : Reaches c c.skip := by
  have hblank (t : Token) (ht : t ∈ c.gap) : t.isWhitespace := List.mem_takeWhile_imp ht
  refine ⟨c.gap, (List.takeWhile_append_dropWhile ..).symm, rfl, ?_, fun t ht => ?_⟩
  · rw [List.filter_eq_self.mpr hblank]
    rfl
  · have hkind := isWhitespace_iff.mp (hblank t ht)
    exact known_of_kind_ne (by simp [hkind])

/-- A step back does not lead behind the start, since something has been read. -/
theorem Clears.unconsume (h : Clears c c') : Reaches c c'.unconsume := by
  obtain ⟨⟨read, hafter, hbefore, hline, hknown⟩, hlt⟩ := h
  rcases List.eq_nil_or_concat read with rfl | ⟨init, t, rfl⟩
  · rw [ahead, ahead, hafter] at hlt
    exact absurd hlt (Nat.lt_irrefl _)
  · rw [List.concat_eq_append] at hafter hbefore hline
    have hback : c'.unconsume = ⟨init.reverse ++ c.before, t :: c'.after,
        if t.isWhitespace then c'.line - t.newlines else c'.line⟩ := by
      simp [Cursor.unconsume, hbefore]
    refine ⟨init, ?_, by rw [hback], ?_, fun u hu => hknown u (by simp [hu])⟩
    · rw [hback, hafter, List.append_assoc, List.singleton_append]
    · rw [hback]
      rw [List.filter_append, lineFeeds_append] at hline
      cases ht : t.isWhitespace with
      | true => simp [ht, lineFeeds] at hline ⊢; omega
      | false => simpa [ht, lineFeeds] using hline

theorem clears_next {t : Token} {rest : List Token} (h : c.after = t :: rest)
    (ht : t.isWhitespace = false) (hknown : Known t) :
    Clears c ⟨t :: c.before, rest, c.line⟩ := by
  refine ⟨⟨[t], h, rfl, by simp [ht, lineFeeds], by simpa using hknown⟩, ?_⟩
  rw [ahead, ahead, h, solids_cons_of_solid ht]
  exact Nat.lt_succ_self _

end WebIdl.Cursor

namespace WebIdl.Grammar

open Token Cursor

variable {α β σ : Type}

/-- The reader moves forward, and past a token if `P` holds of its answer. -/
class Gains (P : α → Prop) (r : Reader α) : Prop where
  answers : ∀ c, Answers c r fun a c' => Reaches c c' ∧ (P a → Clears c c')

/-- The reader moves forward. -/
abbrev Forward (r : Reader α) : Prop :=
  Gains (fun _ => False) r

/-- The production reads a token where it matches. -/
abbrev Productive (p : Reader (Option α)) : Prop :=
  Gains (fun o => o.isSome) p

/-- The reader reads a token whatever it answers. -/
abbrev Consuming (r : Reader α) : Prop :=
  Gains (fun _ => True) r

variable {P : α → Prop} {Q : β → Prop}

theorem Gains.forward {r : Reader α} (h : Gains P r) : Forward r :=
  ⟨fun c => (h.answers c).mono fun _ _ h => ⟨h.1, False.elim⟩⟩

theorem gains_pure {a : α} (h : ¬P a) : Gains P (pure a) :=
  ⟨fun c => answers_pure ⟨reaches_refl c, fun ha => absurd ha h⟩⟩

instance forward_pure (a : α) : Forward (pure a) :=
  gains_pure id

instance productive_none : Productive (pure (none : Option α)) :=
  gains_pure (by simp)

instance gains_fail (reason : Reason) : Gains P (fail reason) :=
  ⟨fun _ => answers_fail⟩

/-- Whatever the first reader has gained is not lost behind it. -/
theorem gains_bind {r : Reader α} {f : α → Reader β} (hr : Gains P r)
    (hyes : ∀ a, P a → Forward (f a)) (hno : ∀ a, ¬P a → Gains Q (f a)) :
    Gains Q (r >>= f) := by
  refine ⟨fun c => answers_bind ((hr.answers c).mono ?_)⟩
  rintro a c1 ⟨h1, hclears⟩
  by_cases ha : P a
  · exact ((hyes a ha).answers c1).mono fun _ c2 h2 =>
      ⟨h1.trans h2.1, fun _ => (hclears ha).trans h2.1⟩
  · exact ((hno a ha).answers c1).mono fun b c2 h2 => ⟨h1.trans h2.1, fun hb => h1.clears (h2.2 hb)⟩

instance gains_behind {r : Reader α} {f : α → Reader β} [hr : Forward r]
    [hf : ∀ a, Gains Q (f a)] : Gains Q (r >>= f) :=
  gains_bind hr (fun _ => False.elim) fun a _ => hf a

instance gains_front {r : Reader α} {f : α → Reader β} [hr : Consuming r]
    [hf : ∀ a, Forward (f a)] : Gains Q (r >>= f) :=
  gains_bind hr (fun a _ => hf a) fun _ h => absurd trivial h

/-- Behind a production that has matched nothing more has to be read. -/
instance gains_bind_option {p : Reader (Option α)} {f : Option α → Reader β} [hp : Productive p]
    [hsome : ∀ a, Forward (f (some a))] [hnone : Gains Q (f none)] : Gains Q (p >>= f) :=
  gains_bind hp
    (fun o h => by
      cases o with
      | none => exact absurd h (by simp)
      | some a => exact hsome a)
    (fun o h => by
      cases o with
      | none => exact hnone
      | some a => exact absurd rfl h)

instance gains_ite {c : Prop} [Decidable c] {r r' : Reader α} [hr : Gains P r] [hr' : Gains P r'] :
    Gains P (if c then r else r') := by
  split
  · exact hr
  · exact hr'

instance forward_skip : Forward skip :=
  ⟨fun c => answers_skip ⟨reaches_skip c, False.elim⟩⟩

theorem productive_token {kind : TokenKind} {text : Option String} (hkind : kind ≠ .whitespace)
    (hknown : kind = .other → ∃ m ∈ text, m ∈ grammarMarks) : Productive (token kind text) := by
  refine ⟨fun c => answers_token (fun t rest h ht htext => ?_) fun _ => ⟨reaches_refl c, by simp⟩⟩
  have hclears := clears_next h (by simpa [isWhitespace, ht] using hkind) fun hother => by
    obtain ⟨m, rfl, hm⟩ := hknown (ht.symm.trans hother)
    obtain rfl : m = t.text := by simpa using htext
    exact hm
  exact ⟨hclears.reaches, fun _ => hclears⟩

theorem productive_tokenOf {kind : TokenKind} {text : Option String} (hkind : kind ≠ .whitespace)
    (hother : kind ≠ .other) : Productive (token kind text) :=
  productive_token hkind fun h => absurd h hother

theorem productive_mark (m : String) [h : Punctuation m] :
    Productive (token .other (some m)) :=
  productive_token (by decide) fun _ => ⟨m, rfl, h.mem⟩

/-- Behind blanks a token is read exactly if the answer tells of one. -/
theorem gains_asked {kind : TokenKind} {text : Option String} {f : Option Token → β}
    (htoken : Productive (token kind text)) (hf : ¬Q (f none)) :
    Gains Q (skip >>= fun _ => token kind text >>= fun o => pure (f o)) := by
  refine gains_bind forward_skip (fun _ => False.elim) fun _ _ => ?_
  refine gains_bind htoken (fun _ _ => forward_pure _) fun o ho => ?_
  obtain rfl : o = none := by simpa using ho
  exact gains_pure hf

theorem gains_keyword (w : String) : Gains (· = true) (keyword w) :=
  gains_asked (productive_tokenOf (by decide) (by decide)) (by simp)

theorem gains_symbol (m : String) [Punctuation m] : Gains (· = true) (symbol m) :=
  gains_asked (productive_mark m) (by simp)

instance productive_identifier : Productive identifier :=
  gains_asked (productive_tokenOf (by decide) (by decide)) (by simp)

instance forward_keyword (w : String) : Forward (keyword w) :=
  (gains_keyword w).forward

instance forward_symbol (m : String) [Punctuation m] : Forward (symbol m) :=
  (gains_symbol m).forward

instance forward_of_productive {p : Reader (Option α)} [h : Productive p] : Forward p :=
  h.forward

instance forward_of_consuming {r : Reader α} [h : Consuming r] : Forward r :=
  h.forward

instance gains_ifKeyword {w : String} {f g : Bool → Reader β} [hf : ∀ b, Forward (f b)]
    [hg : ∀ b, Gains Q (g b)] : Gains Q (keyword w >>= fun b => if b then f b else g b) :=
  gains_bind (gains_keyword w) (by rintro _ rfl; exact hf true) (by simpa using hg false)

instance gains_ifSymbol {m : String} [Punctuation m] {f g : Bool → Reader β}
    [hf : ∀ b, Forward (f b)] [hg : ∀ b, Gains Q (g b)] :
    Gains Q (symbol m >>= fun b => if b then f b else g b) :=
  gains_bind (gains_symbol m) (by rintro _ rfl; exact hf true) (by simpa using hg false)

instance forward_trivia (d : Dialect) : Forward (trivia d) :=
  ⟨fun c => answers_bind (answers_get (answers_bind (answers_skip (answers_pure
    ⟨reaches_skip c, False.elim⟩))))⟩

instance consuming_expect {p : Reader (Option α)} {reason : Reason} [hp : Productive p] :
    Consuming (expect reason p) := by
  refine gains_bind hp (fun o _ => ?_) fun o ho => ?_
  · cases o with
    | none => exact gains_fail reason
    | some a => exact forward_pure a
  · cases o with
    | none => exact gains_fail reason
    | some a => exact absurd rfl ho

instance consuming_expectSymbol {m : String} [Punctuation m] {reason : Reason} :
    Consuming (expectSymbol m reason) := by
  rw [expectSymbol]
  infer_instance

instance consuming_expectIdentifier {reason : Reason} : Consuming (expectIdentifier reason) :=
  consuming_expect

instance productive_attempt {p : Reader (Option α)} [hp : Productive p] :
    Productive (attempt p) := by
  refine ⟨fun c => answers_attempt ((hp.answers c).mono fun o c1 h1 => ⟨?_, ?_⟩)⟩
  · rintro a rfl
    exact h1
  · exact fun _ => ⟨reaches_refl c, by simp⟩

instance forward_attempt {p : Reader (Option α)} [hp : Forward p] : Forward (attempt p) := by
  refine ⟨fun c => answers_attempt ((hp.answers c).mono fun o c1 h1 => ⟨?_, ?_⟩)⟩
  · exact fun _ _ => h1
  · exact fun _ => ⟨reaches_refl c, False.elim⟩

instance productive_firstOf_nil : Productive (firstOf ([] : List (Reader (Option α)))) :=
  productive_none

instance productive_firstOf {p : Reader (Option α)} {ps : List (Reader (Option α))}
    [hp : Productive p] [hps : Productive (firstOf ps)] : Productive (firstOf (p :: ps)) := by
  rw [firstOf]
  infer_instance

theorem productive_firstOf_of_forall {ps : List (Reader (Option α))}
    (hps : ∀ p ∈ ps, Productive p) : Productive (firstOf ps) := by
  induction ps with
  | nil => exact productive_firstOf_nil
  | cons p ps ih =>
    have hp := hps p List.mem_cons_self
    have hrest := ih fun q hq => hps q (List.mem_cons_of_mem p hq)
    infer_instance

instance productive_mapped {f : α → β} {p : Reader (Option α)} [hp : Productive p] :
    Productive (mapped f p) :=
  gains_bind hp (fun _ _ => forward_pure _) fun o ho => gains_pure (by simpa using ho)

instance gains_bounded {p : Nat → Reader α} [hp : ∀ n, Gains P (p n)] : Gains P (bounded p) :=
  ⟨fun c => answers_bounded fun n => (hp n).answers c⟩

instance forward_iterateWithin {step : σ → Reader (Option σ)} [hstep : ∀ s, Forward (step s)]
    (n : Nat) (s : σ) : Forward (iterateWithin step n s) := by
  induction n generalizing s with
  | zero => exact forward_pure s
  | succ n ih =>
    refine gains_bind (hstep s) (fun _ => False.elim) fun o _ => ?_
    cases o with
    | none => exact forward_pure s
    | some t => exact ih t

instance forward_iterate {step : σ → Reader (Option σ)} {s : σ} [∀ s, Forward (step s)] :
    Forward (iterate step s) := by
  rw [iterate]
  infer_instance

instance forward_untilWithin {step : Reader (α ⊕ β)} [hstep : Forward step] (n : Nat) :
    Forward (untilWithin step n) := by
  refine ⟨fun c => Answers.mono (@answers_untilWithin _ _ c step (fun _ c' => Reaches c c')
    (fun _ _ c' => Reaches c c') (fun as c1 h1 => ?_) n [] (reaches_refl c))
    fun _ _ h => ⟨h, False.elim⟩⟩
  exact (hstep.answers c1).mono fun r c2 h2 => ⟨fun _ _ => h1.trans h2.1, fun _ _ => h1.trans h2.1⟩

instance forward_untilDone {step : Reader (α ⊕ β)} [Forward step] : Forward (untilDone step) := by
  rw [untilDone]
  infer_instance

/-- A round of `many`. -/
instance forward_round {step : Reader (Option α)} [hstep : Forward step] :
    Forward (step >>= fun o => match o with
      | some a => pure (.inl a)
      | none => pure (.inr ()) : Reader (α ⊕ Unit)) := by
  refine gains_bind hstep (fun _ => False.elim) fun o _ => ?_
  cases o with
  | none => exact forward_pure _
  | some a => exact forward_pure _

instance forward_many {step : Reader (Option α)} [hstep : Forward step] : Forward (many step) :=
  gains_bind (@forward_untilDone _ _ _ forward_round) (fun _ => False.elim)
    fun _ _ => forward_pure _

instance forward_afterCommas {item : Reader α} [hitem : Forward item] :
    Forward (afterCommas item) := by
  rw [afterCommas]
  infer_instance

instance productive_commaSeparated {first : Reader (Option α)} {next : Reader α}
    [hfirst : Productive first] [hnext : Forward next] :
    Productive (commaSeparated first next) := by
  rw [commaSeparated]
  infer_instance

instance forward_body {d : Dialect} {entry : List Trivia → Reader α}
    [hentry : ∀ leading, Forward (entry leading)] : Forward (body d entry) := by
  rw [body]
  infer_instance

instance productive_integerType : Productive integerType := by
  rw [integerType]
  infer_instance

instance productive_floatType : Productive floatType := by
  rw [floatType]
  infer_instance

instance productive_plainType (w : String) (p : Primitive) : Productive (plainType w p) :=
  gains_bind (gains_keyword w) (fun _ _ => forward_pure _) fun b hb => by
    simpa [hb] using productive_none

instance productive_primitiveType : Productive primitiveType := by
  rw [primitiveType]
  infer_instance

instance productive_moreSuffix (s : Suffix) : Productive (moreSuffix s) := by
  rw [moreSuffix]
  infer_instance

instance forward_suffixes : Forward suffixes := by
  rw [suffixes]
  infer_instance

instance forward_namedType {inner : Reader (Option IdlType)} [Productive inner] (name : String) :
    Forward (namedType inner name) := by
  rw [namedType]
  infer_instance

instance productive_singleType {inner : Reader (Option IdlType)} [Productive inner] :
    Productive (singleType inner) := by
  rw [singleType]
  infer_instance

instance productive_unionType {inner : Reader (Option IdlType)} [Productive inner] :
    Productive (unionType inner) := by
  rw [unionType]
  infer_instance

instance productive_idlTypeWithin (n : Nat) : Productive (idlTypeWithin n) := by
  induction n with
  | zero => exact productive_none
  | succ n ih =>
    rw [idlTypeWithin, idlTypeWith]
    infer_instance

instance productive_idlType : Productive idlType := by
  rw [idlType]
  infer_instance

instance consuming_returnType : Consuming returnType :=
  consuming_expect

instance consuming_constType : Consuming constType := by
  rw [constType]
  infer_instance

instance productive_plainLiteral (w : String) (l : Literal) : Productive (plainLiteral w l) :=
  gains_bind (gains_keyword w) (fun _ _ => forward_pure _) fun b hb => by
    simpa [hb] using productive_none

instance productive_numeral : Productive numeral := by
  have hfloat : Productive (token .float none) := productive_tokenOf (by decide) (by decide)
  have hinteger : Productive (token .integer none) := productive_tokenOf (by decide) (by decide)
  rw [numeral]
  infer_instance

/-- The step back leads no further than to the minus. -/
instance productive_negativeInfinity : Productive negativeInfinity := by
  refine ⟨fun c => answers_bind (((gains_symbol "-").answers c).mono ?_)⟩
  rintro (_ | _) c1 ⟨h1, hminus⟩
  · exact answers_pure ⟨h1, by simp⟩
  · refine answers_bind (((gains_keyword "Infinity").answers c1).mono ?_)
    rintro (_ | _) c2 ⟨h2, -⟩
    · have hback := ((hminus rfl).trans h2).unconsume
      exact answers_bind (answers_modify (answers_pure ⟨hback, by simp⟩))
    · exact answers_pure ⟨h1.trans h2, fun _ => (hminus rfl).trans h2⟩

instance productive_constValue : Productive constValue := by
  rw [constValue]
  infer_instance

instance productive_emptySequence : Productive emptySequence := by
  rw [emptySequence]
  infer_instance

instance productive_stringLiteral : Productive stringLiteral := by
  have hstring : Productive (token .string none) := productive_tokenOf (by decide) (by decide)
  rw [stringLiteral]
  infer_instance

instance productive_defaultValue : Productive defaultValue := by
  rw [defaultValue]
  infer_instance

instance forward_ellipsis : Forward ellipsis := by
  have hdot : Productive (token .other (some ".")) := productive_mark "."
  refine gains_bind forward_skip (fun _ => False.elim) fun _ _ => ?_
  refine gains_bind (@forward_attempt _ _ ?_) (fun _ => False.elim) fun _ _ => forward_pure _
  refine gains_bind hdot.forward (fun _ => False.elim) fun first _ => ?_
  dsimp only
  infer_instance

instance productive_argument {d : Dialect} {attributes : Reader (List ExtendedAttribute)}
    [Forward attributes] : Productive (argument d attributes) := by
  rw [argument]
  infer_instance

instance productive_argumentsWith {argument : Reader (Option Argument)} [Productive argument] :
    Productive (argumentsWith argument) := by
  rw [argumentsWith]
  infer_instance

instance productive_typePair : Productive typePair := by
  rw [typePair]
  infer_instance

instance forward_moreNames : Forward moreNames := by
  rw [moreNames]
  infer_instance

instance forward_nameList : Forward nameList := by
  rw [nameList]
  infer_instance

instance forward_attributeValue : Forward attributeValue := by
  rw [attributeValue]
  infer_instance

instance forward_attributeParameters {argument : Reader (Option Argument)}
    [Productive argument] : Forward (attributeParameters argument) := by
  rw [attributeParameters]
  infer_instance

instance productive_extendedAttribute {argument : Reader (Option Argument)}
    [Productive argument] : Productive (extendedAttribute argument) := by
  rw [extendedAttribute]
  infer_instance

instance forward_extendedAttributesWith {argument : Reader (Option Argument)}
    [Productive argument] : Forward (extendedAttributesWith argument) := by
  rw [extendedAttributesWith]
  infer_instance

instance forward_extendedAttributesWithin (d : Dialect) (n : Nat) :
    Forward (extendedAttributesWithin d n) := by
  induction n with
  | zero => exact forward_pure _
  | succ n ih =>
    rw [extendedAttributesWithin]
    infer_instance

instance forward_extendedAttributes (d : Dialect) : Forward (extendedAttributes d) := by
  rw [extendedAttributes]
  infer_instance

instance forward_argumentList (d : Dialect) : Forward (argumentList d) := by
  rw [argumentList]
  infer_instance

instance productive_typedef (d : Dialect) : Productive (typedef d) := by
  rw [typedef]
  infer_instance

instance productive_const : Productive const := by
  rw [const]
  infer_instance

instance productive_attributeMember : Productive attributeMember := by
  rw [attributeMember]
  infer_instance

instance consuming_operationRest (d : Dialect) : Consuming (operationRest d) := by
  rw [operationRest]
  infer_instance

instance productive_special (s : Special) : Productive (special s) :=
  gains_bind (gains_keyword s.keyword) (fun _ _ => forward_pure _) fun b hb => by
    simpa [hb] using productive_none

instance productive_specialKeyword : Productive (firstOf (Special.all.map special)) := by
  refine productive_firstOf_of_forall fun p hp => ?_
  obtain ⟨s, -, rfl⟩ := List.mem_map.mp hp
  exact productive_special s

instance forward_specials : Forward specials := by
  rw [specials]
  infer_instance

instance consuming_markedOperation (d : Dialect) (marks : Specials) (isStatic stringifier : Bool) :
    Consuming (markedOperation d marks isStatic stringifier) := by
  rw [markedOperation]
  infer_instance

instance consuming_stringifierRest (d : Dialect) : Consuming (stringifierRest d) := by
  rw [stringifierRest]
  infer_instance

instance forward_iteratorObject : Forward iteratorObject := by
  rw [iteratorObject]
  infer_instance

instance consuming_iteratorRest (type : IdlType) : Consuming (iteratorRest type) := by
  rw [iteratorRest]
  infer_instance

/-- Whether a call follows is found out without reading anything. -/
instance forward_callAhead : Forward callAhead := by
  refine ⟨fun c => answers_bind (answers_get (answers_bind ?_))⟩
  refine (productive_identifier.answers c).mono fun _ c1 _ => answers_bind ?_
  refine ((forward_symbol "(").answers c1).mono fun isCall c2 _ => ?_
  exact answers_bind (answers_set (answers_pure ⟨reaches_refl c, False.elim⟩))

instance productive_plainOperation (d : Dialect) : Productive (plainOperation d) := by
  rw [plainOperation]
  infer_instance

instance productive_operation (d : Dialect) : Productive (operation d) := by
  rw [operation]
  infer_instance

instance forward_patternNames (inheritMore : Bool) : Forward (patternNames inheritMore) := by
  rw [patternNames]
  infer_instance

instance consuming_serializerPattern : Consuming serializerPattern := by
  rw [serializerPattern]
  infer_instance

instance productive_serializer (d : Dialect) : Productive (serializer d) := by
  rw [serializer]
  infer_instance

instance productive_iterableKind (readonly : Bool) : Productive (iterableKind readonly) := by
  refine productive_firstOf_of_forall fun p hp => ?_
  obtain ⟨kind, -, rfl⟩ := List.mem_map.mp hp
  refine gains_bind (gains_keyword kind.keyword) (fun _ _ => forward_pure _) fun b hb => ?_
  simpa [hb] using productive_none

instance forward_secondType (kind : IterableKind) : Forward (secondType kind) := by
  rw [secondType]
  infer_instance

instance consuming_iterableRest (readonly : Bool) (kind : IterableKind) :
    Consuming (iterableRest readonly kind) := by
  rw [iterableRest]
  infer_instance

instance productive_iterable : Productive iterable := by
  rw [iterable]
  infer_instance

instance productive_nestedTypedef (d : Dialect) : Productive (nestedTypedef d) := by
  rw [nestedTypedef]
  infer_instance

instance consuming_interfaceMember (d : Dialect) : Consuming (interfaceMember d) := by
  rw [interfaceMember]
  infer_instance

instance consuming_exceptionField : Consuming exceptionField := by
  rw [exceptionField]
  infer_instance

instance consuming_exceptionMember : Consuming exceptionMember := by
  rw [exceptionMember]
  infer_instance

instance consuming_dictionaryField : Consuming dictionaryField := by
  rw [dictionaryField]
  infer_instance

instance consuming_member {d : Dialect} {kind : Reader MemberKind} [Consuming kind]
    (leading : List Trivia) : Consuming (member d kind leading) := by
  rw [member]
  infer_instance

instance forward_extendsKeyword (d : Dialect) : Forward (extendsKeyword d) := by
  rw [extendsKeyword]
  infer_instance

instance forward_inheritance (d : Dialect) : Forward (inheritance d) := by
  rw [inheritance]
  infer_instance

instance forward_inheritanceUnless (isPartial : Bool) (d : Dialect) :
    Forward (inheritanceUnless isPartial d) := by
  rw [inheritanceUnless]
  infer_instance

instance consuming_interfaceRest (d : Dialect) (isPartial : Bool) :
    Consuming (interfaceRest d isPartial) := by
  rw [interfaceRest]
  infer_instance

instance forward_classKeyword (d : Dialect) : Forward (classKeyword d) := by
  rw [classKeyword]
  infer_instance

instance productive_interface (d : Dialect) (isPartial : Bool) :
    Productive (interface d isPartial) := by
  rw [interface]
  infer_instance

instance consuming_callbackRest (d : Dialect) : Consuming (callbackRest d) := by
  rw [callbackRest]
  infer_instance

instance productive_callback (d : Dialect) : Productive (callback d) := by
  rw [callback]
  infer_instance

instance productive_dictionary (d : Dialect) (isPartial : Bool) :
    Productive (dictionary d isPartial) := by
  rw [dictionary]
  infer_instance

instance productive_partialDefinition (d : Dialect) : Productive (partialDefinition d) := by
  rw [partialDefinition]
  infer_instance

instance productive_exception (d : Dialect) : Productive (exception d) := by
  rw [exception]
  infer_instance

instance consuming_enumValue (d : Dialect) (leading : List Trivia) :
    Consuming (enumValue d leading) := by
  have hstring : Productive (token .string none) := productive_tokenOf (by decide) (by decide)
  rw [enumValue]
  infer_instance

instance productive_enum (d : Dialect) : Productive (enum d) := by
  rw [enum]
  infer_instance

instance productive_implements : Productive implements := by
  rw [implements]
  infer_instance

instance productive_definitionKind (d : Dialect) : Productive (definitionKind d) := by
  rw [definitionKind]
  infer_instance

/-- An entry of a program reads a token exactly if it is a definition. -/
instance gains_programEntry (d : Dialect) : Gains (fun r => r.isLeft) (programEntry d) := by
  have hend (leading : List Trivia) :
      Gains (fun r : Definition ⊕ List Trivia => r.isLeft) (pure (.inr leading)) :=
    gains_pure (by simp)
  rw [programEntry]
  infer_instance

instance forward_program (d : Dialect) : Forward (program d) := by
  have hentry : Forward (programEntry d) := (gains_programEntry d).forward
  have hget : Forward (get : Reader Cursor) :=
    ⟨fun c => answers_get ⟨reaches_refl c, False.elim⟩⟩
  rw [program]
  infer_instance

end WebIdl.Grammar

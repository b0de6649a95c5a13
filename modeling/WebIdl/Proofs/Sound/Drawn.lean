import WebIdl.Proofs.Progress.Forward
import WebIdl.Proofs.Reading.Arguments
import WebIdl.Proofs.Reading.Types
import WebIdl.Proofs.Sound.Parses

/-!
# Where written words come from

A parse makes nothing up. What a tree is written with are the marks and the words of the grammar,
blanks, and the names, numerals and strings of the tokens that it was read from, where a name has
lost its escape mark and a string its quotes. No lexer is needed for that.
-/

namespace WebIdl.Token

open Spelling Grammar

/-- The words that stand in the grammar. -/
def grammarWords : List String :=
  ["Infinity", "NaN", "attribute", "boolean", "byte", "callback", "class", "const", "creator",
    "deleter", "dictionary", "double", "enum", "exception", "false", "float", "getter", "implements",
    "inherit", "interface", "iterable", "iterator", "legacycaller", "legacyiterable", "long",
    "maplike", "null", "object", "octet", "optional", "or", "partial", "readonly", "required",
    "serializer", "setlike", "setter", "short", "static", "stringifier", "true", "typedef",
    "unrestricted", "unsigned"]

/-- The token may be written after these tokens were read. -/
inductive Drawn (ts : List Token) : Token → Prop
  | mark {m : String} (h : m ∈ grammarMarks) : Drawn ts (mark m)
  | word {w : String} (h : w ∈ grammarWords) : Drawn ts (word w)
  | space : Drawn ts space
  | name {t : Token} (h : t ∈ ts) (hkind : t.kind = .identifier) : Drawn ts (word t.unescape.text)
  | numeral {t : Token} (h : t ∈ ts) (hkind : t.kind = .float ∨ t.kind = .integer) :
      Drawn ts (ofNumeral t.text)
  | literal {t : Token} (h : t ∈ ts) (hkind : t.kind = .string) : Drawn ts (quoted (unquote t.text))
  | value {t : Token} (h : t ∈ ts) (hkind : t.kind = .string) :
      Drawn ts (quoted (String.ofList (t.text.toList.filter (· != '"'))))

def Made (ts us : List Token) : Prop :=
  ∀ t ∈ us, Drawn ts t

variable {α : Type} {ts us vs : List Token} {t : Token}

@[simp]
theorem made_nil : Made ts [] := by
  simp [Made]

@[simp]
theorem made_cons : Made ts (t :: us) ↔ Drawn ts t ∧ Made ts us :=
  List.forall_mem_cons

@[simp]
theorem made_append : Made ts (us ++ vs) ↔ Made ts us ∧ Made ts vs :=
  List.forall_mem_append

@[simp]
theorem drawn_mark (m : String) [h : Punctuation m] : Drawn ts (mark m) :=
  .mark h.mem

@[simp]
theorem drawn_space : Drawn ts space :=
  .space

theorem made_flatMap {f : α → List Token} {l : List α} (h : ∀ x ∈ l, Made ts (f x)) :
    Made ts (l.flatMap f) := by
  intro t ht
  obtain ⟨x, hx, ht⟩ := List.mem_flatMap.mp ht
  exact h x hx t ht

theorem made_joined {f : α → List Token} {l : List α} (hus : Made ts us)
    (h : ∀ x ∈ l, Made ts (f x)) : Made ts (joined us (l.map f)) := by
  cases l with
  | nil => exact made_nil
  | cons x l =>
    obtain ⟨hx, hl⟩ := List.forall_mem_cons.mp h
    rw [List.map_cons, joined_cons, List.flatMap_map, made_append]
    refine ⟨hx, made_flatMap fun y hy => made_append.mpr ⟨hus, hl y hy⟩⟩

theorem made_wordIf {w : String} (hw : w ∈ grammarWords) (flag : Bool) :
    Made ts (wordIf flag w) := by
  cases flag with
  | true => simpa [wordIf] using Drawn.word hw
  | false => exact made_nil

theorem made_words {ws : List String} (hws : ws ⊆ grammarWords) : Made ts (words ws) :=
  made_joined (by simp) fun w hw => by simpa using Drawn.word (hws hw)

theorem made_primitive (p : Primitive) : Made ts (words p.words) := by
  apply made_words
  cases p with
  | integer unsigned width => cases unsigned <;> cases width <;> decide
  | float unrestricted => cases unrestricted <;> decide
  | double unrestricted => cases unrestricted <;> decide
  | _ => decide

theorem made_ofSuffix (s : Suffix) : Made ts (ofSuffix s) := by
  have hquestion : ∀ flag : Bool, Made ts (if flag then [mark "?"] else []) := by
    intro flag
    cases flag <;> simp
  rw [ofSuffix, made_append]
  refine ⟨made_flatMap fun nullable _ => ?_, hquestion s.nullable⟩
  simpa using hquestion nullable

theorem made_bracketed (hus : Made ts us) : Made ts (bracketed us []) := by
  rw [bracketed]
  split
  · exact made_nil
  · simpa using hus

theorem made_ofDefault {o : Option Literal} (h : ∀ l ∈ o, Made ts (ofLiteral l)) :
    Made ts (ofDefault o) := by
  cases o with
  | none => exact made_nil
  | some l => simpa [ofDefault] using h l rfl

end WebIdl.Token

namespace WebIdl.Grammar

open Token Cursor Spelling

variable {α β : Type} {P : α → Prop} {Q : β → Prop} {ts : List Token} {d : Dialect}

/-- `P` holds of whatever the reader answers among these tokens, wherever it starts. -/
def Draws (ts : List Token) (P : α → Prop) (r : Reader α) : Prop :=
  ∀ c, c.tokens = ts → Answers c r fun a _ => P a

/-- `P` holds of what the production answers where it matches. -/
def Finds (ts : List Token) (P : α → Prop) (p : Reader (Option α)) : Prop :=
  Draws ts (fun o => ∀ a ∈ o, P a) p

section Rules

theorem Forward.tokens_eq {r : Reader α} (h : Forward r) {c c' : Cursor} {a : α}
    (hrun : r c = .ok (a, c')) : c'.tokens = c.tokens := by
  obtain ⟨⟨read, hafter, hbefore, -⟩, -⟩ := h.answers c a c' hrun
  rw [tokens, tokens, hafter, hbefore]
  simp

theorem draws_of_yields {r : Reader α} (h : Yields P r) : Draws ts P r :=
  fun c _ => h c

theorem draws_trivial (r : Reader α) : Draws ts (fun _ => True) r :=
  draws_of_yields (yields_trivial r)

theorem draws_pure {a : α} (h : P a) : Draws ts P (pure a) :=
  draws_of_yields (yields_pure h)

theorem draws_fail {reason : Reason} : Draws ts P (fail reason) :=
  draws_of_yields yields_fail

theorem draws_bind {r : Reader α} {f : α → Reader β} [hr : Forward r] (h : Draws ts P r)
    (hf : ∀ a, P a → Draws ts Q (f a)) : Draws ts Q (r >>= f) := by
  intro c hc
  apply answers_bind
  intro a c' hrun
  exact hf a (h c hc a c' hrun) c' ((hr.tokens_eq hrun).trans hc)

/-- What the first reader answers does not matter. -/
theorem draws_seq {r : Reader α} {f : α → Reader β} [Forward r] (hf : ∀ a, Draws ts Q (f a)) :
    Draws ts Q (r >>= f) :=
  draws_bind (draws_trivial r) fun a _ => hf a

/-- A choice between two readers with one reader behind them. -/
theorem draws_choice {b : Bool} {r r' : Reader α} {f : α → Reader β} [Forward r] [Forward r']
    (h : Draws ts P (if b then r else r')) (hf : ∀ a, P a → Draws ts Q (f a)) :
    Draws ts Q (if b then r >>= f else r' >>= f) := by
  cases b with
  | true => exact draws_bind h hf
  | false => exact draws_bind h hf

theorem draws_ite {c : Prop} [Decidable c] {r r' : Reader α} (h : Draws ts P r)
    (h' : Draws ts P r') : Draws ts P (if c then r else r') := by
  split
  · exact h
  · exact h'

theorem finds_none : Finds ts P (pure none) :=
  draws_pure (by simp)

theorem finds_some {a : α} (h : P a) : Finds ts P (pure (some a)) :=
  draws_pure (by simpa using h)

/-- The reader behind what has already matched. -/
theorem finds_of_draws {r : Reader α} [Forward r] (h : Draws ts P r) :
    Finds ts P (r >>= fun a => pure (some a)) :=
  draws_bind h fun _ ha => finds_some ha

/-- What stands behind a mark or a word that may be missing. -/
theorem finds_ite {b : Bool} {p : Reader (Option α)} (h : Finds ts P p) :
    Finds ts P (if b then p else pure none) :=
  draws_ite h finds_none

theorem finds_bind {p : Reader (Option α)} {f : α → Reader (Option β)} [Forward p]
    (h : Finds ts P p) (hf : ∀ a, P a → Finds ts Q (f a)) :
    Finds ts Q (p >>= fun o => match o with
      | none => pure none
      | some a => f a) := by
  apply draws_bind h
  intro o ho
  cases o with
  | none => exact finds_none
  | some a => exact hf a (ho a rfl)

theorem draws_expect {p : Reader (Option α)} {reason : Reason} (h : Finds ts P p) :
    Draws ts P (expect reason p) :=
  fun c hc => answers_expect ((h c hc).mono fun _ _ ho a ha => ho a ha)

theorem finds_attempt {p : Reader (Option α)} (h : Finds ts P p) : Finds ts P (attempt p) := by
  intro c hc
  apply answers_attempt
  intro o c' hrun
  have ho := h c hc o c' hrun
  constructor
  · rintro a rfl
    exact ho
  · simp

theorem finds_nil : Finds ts P (firstOf []) :=
  finds_none

theorem finds_cons {p : Reader (Option α)} {ps : List (Reader (Option α))} [Forward p]
    (hp : Finds ts P p) (hps : Finds ts P (firstOf ps)) : Finds ts P (firstOf (p :: ps)) := by
  apply draws_bind hp
  intro o ho
  cases o with
  | none => exact hps
  | some a => exact finds_some (ho a rfl)

theorem finds_mapped {p : Reader (Option α)} {f : α → β} [Forward p] (hp : Finds ts P p)
    (hf : ∀ a, P a → Q (f a)) : Finds ts Q (mapped f p) :=
  draws_bind hp fun _ ho => draws_pure (by simpa using fun a ha => hf a (ho a ha))

theorem draws_bounded {p : Nat → Reader α} (h : ∀ n, Draws ts P (p n)) : Draws ts P (bounded p) :=
  fun c hc => answers_bounded fun n => h n c hc

theorem draws_untilDone {step : Reader (α ⊕ β)} [hstep : Forward step]
    (h : Draws ts (Sum.elim P Q) step) :
    Draws ts (fun r => (∀ a ∈ r.1, P a) ∧ Q r.2) (untilDone step) := by
  intro c hc
  apply answers_untilDone (I := fun as c => c.tokens = ts ∧ ∀ a ∈ as, P a)
    (Q := fun as b _ => (∀ a ∈ as, P a) ∧ Q b)
  · exact ⟨hc, by simp⟩
  · rintro as c ⟨hc, has⟩ r c' hrun
    have hr := h c hc r c' hrun
    constructor
    · rintro a rfl
      refine ⟨(hstep.tokens_eq hrun).trans hc, List.forall_mem_append.mpr ⟨has, ?_⟩⟩
      exact List.forall_mem_singleton.mpr hr
    · rintro b rfl
      exact ⟨has, hr⟩

theorem draws_many {step : Reader (Option α)} [Forward step] (h : Finds ts P step) :
    Draws ts (fun as => ∀ a ∈ as, P a) (many step) := by
  refine draws_bind (draws_untilDone (?_ : Draws ts (Sum.elim P fun _ : Unit => True) _))
    fun r hr => draws_pure hr.1
  apply draws_bind h
  intro o ho
  cases o with
  | none => exact draws_pure trivial
  | some a => exact draws_pure (ho a rfl)

theorem draws_afterCommas {item : Reader α} [Forward item] (h : Draws ts P item) :
    Draws ts (fun as => ∀ a ∈ as, P a) (afterCommas item) := by
  apply draws_many
  apply draws_seq
  intro comma
  exact finds_ite (finds_of_draws h)

theorem finds_commaSeparated {first : Reader (Option α)} {next : Reader α} [Forward first]
    [Forward next] (hfirst : Finds ts P first) (hnext : Draws ts P next) :
    Finds ts (fun as => ∀ a ∈ as, P a) (commaSeparated first next) := by
  refine finds_bind hfirst fun a ha => ?_
  refine draws_bind (draws_afterCommas hnext) fun as has => ?_
  exact finds_some (List.forall_mem_cons.mpr ⟨ha, has⟩)

theorem draws_trivia (hd : d.keepTrivia = false) : Draws ts (· = []) (trivia d) := by
  intro c _
  apply answers_bind
  apply answers_get
  apply answers_bind
  apply answers_skip
  apply answers_pure
  simp [hd]

theorem draws_body {entry : List Trivia → Reader α} [∀ leading, Forward (entry leading)]
    (hd : d.keepTrivia = false) (h : Draws ts P (entry [])) :
    Draws ts (fun r => (∀ a ∈ r.1, P a) ∧ r.2 = []) (body d entry) := by
  refine draws_untilDone (Q := (· = [])) ?_
  refine draws_bind (draws_trivia hd) fun leading hleading => draws_seq fun closed => ?_
  subst hleading
  cases closed with
  | true => exact draws_pure rfl
  | false => exact draws_bind h fun a ha => draws_pure ha

/-- A token that is read is one of these, without its escape mark. -/
theorem finds_token (kind : TokenKind) (text : Option String) :
    Finds ts (fun u => ∃ t ∈ ts, t.kind = kind ∧ u = t.unescape) (token kind text) := by
  intro c hc
  apply answers_token
  · rintro t rest hafter hkind -
    have hmem : t ∈ ts := by
      rw [← hc, tokens, hafter]
      simp
    simpa using ⟨t, hmem, hkind, rfl⟩
  · simp

theorem finds_identifier : Finds ts (fun s => Drawn ts (word s)) identifier := by
  have htoken : Productive (token .identifier none) := productive_tokenOf (by decide) (by decide)
  refine draws_seq fun _ => draws_bind (finds_token .identifier none) fun o ho => draws_pure ?_
  intro s hs
  obtain ⟨u, hu, rfl⟩ := Option.map_eq_some_iff.mp hs
  obtain ⟨t, ht, hkind, rfl⟩ := ho u hu
  exact .name ht hkind

theorem draws_expectIdentifier {reason : Reason} :
    Draws ts (fun s => Drawn ts (word s)) (expectIdentifier reason) :=
  draws_expect finds_identifier

end Rules

section Types

theorem draws_namedType {inner : Reader (Option IdlType)} [Productive inner]
    (hinner : Finds ts (fun t => Made ts (ofType t)) inner) {name : String}
    (hname : Drawn ts (word name)) :
    Draws ts (fun t => Made ts (ofType t)) (namedType inner name) := by
  refine draws_seq fun generic => ?_
  cases generic with
  | true =>
    refine draws_bind (draws_expect hinner) fun t ht => draws_seq fun _ => draws_seq fun s => ?_
    apply draws_pure
    simpa [ofType] using ⟨hname, ht, made_ofSuffix s⟩
  | false =>
    refine draws_seq fun s => draws_ite draws_fail (draws_pure ?_)
    simpa [ofType] using ⟨hname, made_ofSuffix s⟩

theorem finds_singleType {inner : Reader (Option IdlType)} [Productive inner]
    (hinner : Finds ts (fun t => Made ts (ofType t)) inner) :
    Finds ts (fun t => Made ts (ofType t)) (singleType inner) := by
  refine draws_seq fun primitive => ?_
  cases primitive with
  | some p =>
    refine draws_seq fun s => finds_some ?_
    simpa [ofType] using ⟨made_primitive p, made_ofSuffix s⟩
  | none =>
    refine draws_bind finds_identifier fun o ho => ?_
    cases o with
    | none => exact finds_none
    | some name => exact finds_of_draws (draws_namedType hinner (ho name rfl))

theorem finds_unionType {inner : Reader (Option IdlType)} [Productive inner]
    (hinner : Finds ts (fun t => Made ts (ofType t)) inner) :
    Finds ts (fun t => Made ts (ofType t)) (unionType inner) := by
  refine draws_seq fun opened => finds_ite ?_
  refine draws_bind (draws_expect hinner) fun first hfirst => ?_
  have hothers : Finds ts (fun t => Made ts (ofType t)) (do
      if ← keyword "or" then
        return some (← expect .noUnionMember inner)
      else
        return none) :=
    draws_seq fun more => finds_ite (finds_of_draws (draws_expect hinner))
  refine draws_bind (draws_many hothers) fun others h => draws_seq fun _ => ?_
  refine draws_ite draws_fail (draws_seq fun s => finds_some ?_)
  have hor : Drawn ts (word "or") := .word (by decide)
  have hmore : Made ts (others.flatMap alternative) := by
    apply made_flatMap
    intro t ht
    simpa [alternative, hor] using h t ht
  simpa [ofType, ofMembers_cons] using ⟨hfirst, hmore, made_ofSuffix s⟩

theorem finds_idlTypeWithin (n : Nat) :
    Finds ts (fun t => Made ts (ofType t)) (idlTypeWithin n) := by
  induction n with
  | zero => exact finds_none
  | succ n ih => exact finds_cons (finds_singleType ih) (finds_cons (finds_unionType ih) finds_nil)

theorem finds_idlType : Finds ts (fun t => Made ts (ofType t)) idlType :=
  draws_bounded finds_idlTypeWithin

theorem draws_returnType : Draws ts (fun t => Made ts (ofType t)) returnType :=
  draws_expect finds_idlType

theorem draws_constType : Draws ts (fun t => Made ts (ofType t)) constType := by
  refine draws_seq fun primitive => ?_
  cases primitive with
  | some p =>
    refine draws_seq fun nullable => draws_pure ?_
    simpa [ofType] using ⟨made_primitive p, made_ofSuffix _⟩
  | none =>
    refine draws_bind draws_expectIdentifier fun name hname => draws_seq fun nullable => ?_
    apply draws_pure
    simpa [ofType] using ⟨hname, made_ofSuffix _⟩

end Types

section Literals

theorem finds_plainLiteral (w : String) {l : Literal} (h : Made ts (ofLiteral l)) :
    Finds ts (fun l => Made ts (ofLiteral l)) (plainLiteral w l) := by
  refine draws_seq fun found => ?_
  cases found with
  | true => exact finds_some h
  | false => exact finds_none

theorem finds_numeralToken {kind : TokenKind} (hkind : kind = .float ∨ kind = .integer)
    [Productive (token kind none)] :
    Finds ts (fun l => Made ts (ofLiteral l))
      (mapped (fun t : Token => .number t.text) (token kind none)) := by
  refine finds_mapped (finds_token kind none) fun u hu => ?_
  obtain ⟨t, ht, rfl, rfl⟩ := hu
  rw [unescape_of_kind (by rcases hkind with hkind | hkind <;> simp [hkind])]
  simpa [ofLiteral] using Drawn.numeral ht hkind

theorem finds_numeral : Finds ts (fun l => Made ts (ofLiteral l)) numeral := by
  have hfloat : Productive (token .float none) := productive_tokenOf (by decide) (by decide)
  have hinteger : Productive (token .integer none) := productive_tokenOf (by decide) (by decide)
  refine draws_seq fun _ => ?_
  exact finds_cons (finds_numeralToken (.inl rfl))
    (finds_cons (finds_numeralToken (.inr rfl)) finds_nil)

theorem finds_negativeInfinity : Finds ts (fun l => Made ts (ofLiteral l)) negativeInfinity := by
  have hword : Drawn ts (word "Infinity") := .word (by decide)
  refine draws_seq fun minus => finds_ite (draws_seq fun infinity => ?_)
  cases infinity with
  | true => exact finds_some (by simpa [ofLiteral] using hword)
  | false => exact draws_of_yields (yields_seq fun _ => offers_none)

theorem finds_constValue : Finds ts (fun l => Made ts (ofLiteral l)) constValue := by
  have hplain : ∀ {w : String}, w ∈ grammarWords → Made ts [word w] :=
    fun hw => by simpa using Drawn.word hw
  exact finds_cons (finds_plainLiteral "true" (hplain (by decide)))
    (finds_cons (finds_plainLiteral "false" (hplain (by decide)))
    (finds_cons (finds_plainLiteral "null" (hplain (by decide)))
    (finds_cons (finds_plainLiteral "Infinity" (hplain (by decide)))
    (finds_cons (finds_plainLiteral "NaN" (hplain (by decide)))
    (finds_cons finds_numeral (finds_cons finds_negativeInfinity finds_nil))))))

theorem finds_stringLiteral : Finds ts (fun l => Made ts (ofLiteral l)) stringLiteral := by
  have hstring : Productive (token .string none) := productive_tokenOf (by decide) (by decide)
  refine draws_seq fun _ => finds_mapped (finds_token .string none) fun u hu => ?_
  obtain ⟨t, ht, hkind, rfl⟩ := hu
  rw [unescape_of_kind (by simp [hkind])]
  simpa [ofLiteral] using Drawn.literal ht hkind

theorem finds_defaultValue : Finds ts (fun l => Made ts (ofLiteral l)) defaultValue := by
  have hempty : Finds ts (fun l => Made ts (ofLiteral l)) emptySequence := by
    refine draws_seq fun opened => finds_ite (draws_seq fun _ => finds_some ?_)
    simp [ofLiteral]
  have hstring : Finds ts (fun l => Made ts (ofLiteral l)) (firstOf [stringLiteral]) :=
    finds_cons finds_stringLiteral finds_nil
  have hvalue := finds_cons finds_constValue (finds_cons hempty hstring)
  exact draws_seq fun equals => finds_ite (finds_of_draws (draws_expect hvalue))

end Literals

section Attributes

theorem made_ofArguments {as : List Argument} (h : ∀ a ∈ as, Made ts (ofArgument a)) :
    Made ts (ofArguments as) := by
  have hmore : ∀ as : List Argument, (∀ a ∈ as, Made ts (ofArgument a)) →
      Made ts (ofMoreArguments as) := by
    intro as has
    induction as with
    | nil => exact made_nil
    | cons a as ih =>
      obtain ⟨ha, has⟩ := List.forall_mem_cons.mp has
      have hspace : Made ts (if a.leading.isEmpty then [space] else []) := by
        split <;> simp
      simp only [ofMoreArguments, List.cons_append, made_cons, made_append]
      exact ⟨drawn_mark ",", ⟨hspace, ha⟩, ih has⟩
  cases as with
  | nil => exact made_nil
  | cons a as =>
    obtain ⟨ha, has⟩ := List.forall_mem_cons.mp h
    exact made_append.mpr ⟨ha, hmore as has⟩

theorem made_ofAttributes {es : List ExtendedAttribute} (h : ∀ e ∈ es, Made ts (ofAttribute e)) :
    Made ts (ofAttributes es) := by
  cases es with
  | nil => exact made_nil
  | cons e es =>
    obtain ⟨he, hes⟩ := List.forall_mem_cons.mp h
    rw [ofAttributes_cons, made_append]
    refine ⟨he, made_flatMap fun f hf => ?_⟩
    simpa using hes f hf

theorem finds_argument (hd : d.keepTrivia = false) {attributes : Reader (List ExtendedAttribute)}
    [Forward attributes] (h : Draws ts (fun es => ∀ e ∈ es, Made ts (ofAttribute e)) attributes) :
    Finds ts (fun a => Made ts (ofArgument a)) (argument d attributes) := by
  apply finds_attempt
  refine draws_bind (draws_trivia hd) fun leading hleading => draws_bind h fun es hes => ?_
  refine draws_bind (draws_trivia hd) fun after hafter => draws_seq fun optional => ?_
  refine draws_bind finds_idlType fun o ho => ?_
  cases o with
  | none => exact finds_none
  | some type =>
    refine draws_choice (draws_trivial _) fun variadic _ => draws_bind finds_identifier fun o hn => ?_
    cases o with
    | none => exact finds_none
    | some name =>
      have hdefault : Finds ts (fun l => Made ts (ofLiteral l))
          (if optional then defaultValue else pure none) := finds_ite finds_defaultValue
      refine draws_choice hdefault fun default hl => ?_
      refine draws_bind (draws_trivia hd) fun trailing htrailing => finds_some ?_
      subst hleading hafter htrailing
      have hpoints : Made ts (if variadic then [mark ".", mark ".", mark "."] else []) := by
        split <;> simp
      simpa [ofArgument, Spelling.trivia] using ⟨made_bracketed (made_ofAttributes hes),
        made_wordIf (by decide) optional, ho type rfl, hpoints, hn name rfl, made_ofDefault hl⟩

theorem finds_argumentsWith {argument : Reader (Option Argument)} [Productive argument]
    (h : Finds ts (fun a => Made ts (ofArgument a)) argument) :
    Finds ts (fun as => ∀ a ∈ as, Made ts (ofArgument a)) (argumentsWith argument) :=
  finds_commaSeparated h (draws_expect h)

theorem finds_typePair :
    Finds ts (fun p : IdlType × IdlType => Made ts (ofType p.1) ∧ Made ts (ofType p.2))
      typePair := by
  apply finds_attempt
  refine draws_bind finds_idlType fun o ho => ?_
  cases o with
  | none => exact finds_none
  | some key =>
    refine draws_seq fun comma => finds_ite (draws_bind finds_idlType fun o' ho' => draws_pure ?_)
    simpa using fun value hvalue => ⟨ho key rfl, ho' value hvalue⟩

theorem draws_moreNames : Draws ts (fun ns => ∀ n ∈ ns, Drawn ts (word n)) moreNames :=
  draws_afterCommas draws_expectIdentifier

theorem draws_nameList : Draws ts (fun ns => ∀ n ∈ ns, Drawn ts (word n)) nameList := by
  refine draws_bind finds_identifier fun first hfirst => ?_
  refine draws_bind draws_moreNames fun more hmore => draws_pure ?_
  rw [List.forall_mem_append]
  exact ⟨by simpa using hfirst, hmore⟩

theorem draws_attributeValue : Draws ts (fun v => Made ts (ofValue v)) attributeValue := by
  refine draws_seq fun equals => draws_ite ?_ (draws_pure made_nil)
  refine draws_bind finds_identifier fun o ho => ?_
  cases o with
  | some name =>
    apply draws_pure
    simpa [ofValue] using ho name rfl
  | none =>
    refine draws_seq fun opened => draws_ite ?_ draws_fail
    refine draws_bind draws_nameList fun names hnames => draws_seq fun _ => draws_pure ?_
    have hjoined : Made ts (joined [mark ","] (names.map fun n => [word n])) :=
      made_joined (by simp) fun n hn => by simpa using hnames n hn
    simpa [ofValue] using hjoined

theorem draws_attributeParameters {argument : Reader (Option Argument)} [Productive argument]
    (h : Finds ts (fun a => Made ts (ofArgument a)) argument) :
    Draws ts (fun p => Made ts (ofParameters p)) (attributeParameters argument) := by
  have harguments : ∀ {as : List Argument}, (∀ a ∈ as, Made ts (ofArgument a)) →
      Made ts (ofParameters (.arguments as)) :=
    fun has => by simpa [ofParameters] using made_ofArguments has
  refine draws_seq fun opened => draws_ite ?_ (draws_pure made_nil)
  refine draws_bind (?_ : Finds ts (fun p => Made ts (ofParameters p)) _)
    fun o ho => draws_seq fun _ => draws_pure ?_
  · refine finds_cons (finds_mapped (finds_argumentsWith h) fun as has => harguments has) ?_
    refine finds_cons (finds_mapped finds_typePair fun p hp => ?_) finds_nil
    simpa [ofParameters] using hp
  cases o with
  | none => exact harguments (by simp)
  | some parameters => exact ho parameters rfl

theorem finds_extendedAttribute {argument : Reader (Option Argument)} [Productive argument]
    (h : Finds ts (fun a => Made ts (ofArgument a)) argument) :
    Finds ts (fun e => Made ts (ofAttribute e)) (extendedAttribute argument) := by
  refine draws_bind finds_identifier fun o ho => ?_
  cases o with
  | none => exact finds_none
  | some name =>
    refine draws_bind draws_attributeValue fun value hvalue => ?_
    refine draws_bind (draws_attributeParameters h) fun parameters hparameters => finds_some ?_
    simpa [ofAttribute] using ⟨ho name rfl, hvalue, hparameters⟩

theorem draws_extendedAttributesWith {argument : Reader (Option Argument)} [Productive argument]
    (h : Finds ts (fun a => Made ts (ofArgument a)) argument) :
    Draws ts (fun es => ∀ e ∈ es, Made ts (ofAttribute e)) (extendedAttributesWith argument) := by
  have hattribute := finds_extendedAttribute h
  refine draws_seq fun opened => draws_ite ?_ (draws_pure (by simp))
  refine draws_bind (draws_expect hattribute) fun first hfirst => ?_
  refine draws_bind (draws_afterCommas (draws_expect hattribute)) fun others hothers => ?_
  exact draws_seq fun _ => draws_pure (List.forall_mem_cons.mpr ⟨hfirst, hothers⟩)

theorem draws_extendedAttributesWithin (hd : d.keepTrivia = false) (n : Nat) :
    Draws ts (fun es => ∀ e ∈ es, Made ts (ofAttribute e)) (extendedAttributesWithin d n) := by
  induction n with
  | zero => exact draws_pure (by simp)
  | succ n ih => exact draws_extendedAttributesWith (finds_argument hd ih)

theorem draws_extendedAttributes (hd : d.keepTrivia = false) :
    Draws ts (fun es => Made ts (bracketed (ofAttributes es) [])) (extendedAttributes d) := by
  refine draws_bounded fun n c hc es c' hrun => ?_
  exact made_bracketed (made_ofAttributes (draws_extendedAttributesWithin hd n c hc es c' hrun))

theorem draws_argumentList (hd : d.keepTrivia = false) :
    Draws ts (fun as => Made ts (ofArguments as)) (argumentList d) := by
  have hattributes : Draws ts (fun es => ∀ e ∈ es, Made ts (ofAttribute e)) (extendedAttributes d) :=
    draws_bounded (draws_extendedAttributesWithin hd)
  refine draws_bind (finds_argumentsWith (finds_argument hd hattributes)) fun o ho => draws_pure ?_
  cases o with
  | none => exact made_nil
  | some as => exact made_ofArguments (ho as rfl)

end Attributes

section Members

theorem finds_typedef (hd : d.keepTrivia = false) :
    Finds ts (fun t => Made ts (ofTypedef t)) (typedef d) := by
  have hkeyword : Drawn ts (word "typedef") := .word (by decide)
  refine draws_seq fun begun => finds_ite ?_
  refine draws_bind (draws_extendedAttributes hd) fun es hes => ?_
  refine draws_bind (draws_trivia hd) fun after hafter => ?_
  refine draws_bind (draws_expect finds_idlType) fun type htype => ?_
  refine draws_bind draws_expectIdentifier fun name hname => draws_seq fun _ => finds_some ?_
  subst hafter
  simpa [ofTypedef, hkeyword] using ⟨hes, htype, hname⟩

theorem finds_const : Finds ts (fun c => Made ts (ofConst c)) const := by
  have hkeyword : Drawn ts (word "const") := .word (by decide)
  refine draws_seq fun begun => finds_ite ?_
  refine draws_bind draws_constType fun type htype => ?_
  refine draws_bind draws_expectIdentifier fun name hname => draws_seq fun _ => ?_
  refine draws_bind (draws_expect finds_constValue) fun value hvalue => ?_
  refine draws_seq fun _ => finds_some ?_
  have hdefault : Made ts (ofDefault (some value)) := made_ofDefault (by simpa using hvalue)
  simpa [ofConst, hkeyword] using ⟨htype, hname, hdefault⟩

theorem finds_attributeMember : Finds ts (fun a => Made ts (ofAttributeMember a)) attributeMember := by
  have hkeyword : Drawn ts (word "attribute") := .word (by decide)
  apply finds_attempt
  refine draws_seq fun isStatic => draws_choice (draws_trivial _) fun stringifier _ => ?_
  refine draws_seq fun inherits => draws_ite draws_fail (draws_seq fun readonly => ?_)
  refine draws_seq fun begun => finds_ite ?_
  refine draws_bind (draws_expect finds_idlType) fun type htype => draws_ite draws_fail ?_
  refine draws_bind draws_expectIdentifier fun name hname => draws_seq fun _ => finds_some ?_
  have hmark : ∀ {w : String} (flag : Bool), w ∈ grammarWords → Made ts (wordIf flag w) :=
    fun flag hw => made_wordIf hw flag
  simpa [ofAttributeMember, hkeyword] using ⟨hmark isStatic (by decide),
    hmark stringifier (by decide), hmark inherits (by decide), hmark readonly (by decide), htype,
    hname⟩

/-- What is written for the name of an operation that may have none. -/
theorem draws_operationRest (hd : d.keepTrivia = false) :
    Draws ts (fun r => ∀ type, Made ts (ofType type) → Made ts (signature type r.1 r.2))
      (operationRest d) := by
  refine draws_bind finds_identifier fun name hname => draws_seq fun _ => ?_
  refine draws_bind (draws_argumentList hd) fun args hargs => draws_seq fun _ => draws_seq fun _ => ?_
  refine draws_pure fun type htype => ?_
  have hnamed : Made ts (name.toList.flatMap fun n => [space, word n]) :=
    made_flatMap fun n hn => by simpa using hname n (by simpa using hn)
  simpa [signature] using ⟨htype, hnamed, hargs⟩

theorem draws_markedOperation (hd : d.keepTrivia = false) (marks : Specials)
    (isStatic stringifier : Bool) : Draws ts (fun k => Made ts (ofMemberKind k))
      (markedOperation d marks isStatic stringifier) := by
  refine draws_bind draws_returnType fun type htype => ?_
  refine draws_bind (draws_operationRest hd) fun r hr => draws_pure ?_
  have hmarks : Made ts (marks.toList.flatMap fun s => [word s.keyword, space]) := by
    apply made_flatMap
    intro s _
    simpa using Drawn.word (by cases s <;> decide)
  have hsignature := hr type htype
  simpa [ofMemberKind, ofOperation, hmarks] using ⟨made_wordIf (by decide) stringifier,
    made_wordIf (by decide) isStatic, hsignature⟩

theorem draws_stringifierRest (hd : d.keepTrivia = false) :
    Draws ts (fun k => Made ts (ofMemberKind k)) (stringifierRest d) := by
  have hkeyword : Drawn ts (word "stringifier") := .word (by decide)
  refine draws_seq fun bare => draws_ite (draws_pure ?_) (draws_markedOperation hd {} false true)
  simpa [ofMemberKind, ofOperation] using hkeyword

theorem draws_iteratorRest {type : IdlType} (htype : Made ts (ofType type)) :
    Draws ts (fun k => Made ts (ofMemberKind k)) (iteratorRest type) := by
  have hkeyword : Drawn ts (word "iterator") := .word (by decide)
  have hobject : Drawn ts (word "object") := .word (by decide)
  have hproduced : Draws ts (fun o => Made ts (ofIterator ⟨type, o⟩)) iteratorObject := by
    refine draws_seq fun isObject => draws_ite (draws_pure ?_) ?_
    · simpa [ofIterator, hkeyword, hobject] using htype
    · refine draws_seq fun assigned => draws_ite ?_ (draws_pure ?_)
      · refine draws_bind draws_expectIdentifier fun name hname => draws_pure ?_
        simpa [ofIterator, hkeyword] using ⟨htype, hname⟩
      · simpa [ofIterator, hkeyword] using htype
  exact draws_bind hproduced fun produced hp => draws_seq fun _ => draws_pure hp

theorem finds_plainOperation (hd : d.keepTrivia = false) :
    Finds ts (fun k => Made ts (ofMemberKind k)) (plainOperation d) := by
  apply finds_attempt
  refine draws_bind finds_idlType fun o ho => ?_
  cases o with
  | none => exact finds_none
  | some type =>
    refine draws_seq fun iterator => draws_ite (finds_of_draws (draws_iteratorRest (ho type rfl))) ?_
    refine draws_seq fun call => finds_ite ?_
    refine draws_bind (draws_operationRest hd) fun r hr => finds_some ?_
    have hsignature := hr type (ho type rfl)
    simpa [ofMemberKind, ofOperation, wordIf, Specials.toList, Special.all, Specials.contains]
      using hsignature

theorem finds_operation (hd : d.keepTrivia = false) :
    Finds ts (fun k => Made ts (ofMemberKind k)) (operation d) := by
  refine draws_seq fun specials => ?_
  refine draws_ite (finds_of_draws (draws_markedOperation hd specials false false)) ?_
  refine draws_seq fun isStatic => ?_
  refine draws_ite (finds_of_draws (draws_markedOperation hd {} true false)) ?_
  refine draws_seq fun stringifier => ?_
  exact draws_ite (finds_of_draws (draws_stringifierRest hd)) (finds_plainOperation hd)

theorem draws_patternNames (inheritMore : Bool) :
    Draws ts (fun ns => Made ts (Spelling.nameList ns)) (patternNames inheritMore) := by
  have hlist : ∀ {ns : List String}, (∀ n ∈ ns, Drawn ts (word n)) →
      Made ts (Spelling.nameList ns) :=
    fun hns => made_joined (by simp) fun n hn => by simpa using hns n hn
  refine draws_bind finds_identifier fun o ho => ?_
  cases o with
  | none => exact draws_pure made_nil
  | some first =>
    refine draws_ite (draws_pure (hlist (by simpa using ho first rfl))) ?_
    refine draws_bind draws_moreNames fun more hmore => draws_pure (hlist ?_)
    exact List.forall_mem_cons.mpr ⟨ho first rfl, hmore⟩

theorem draws_serializerPattern :
    Draws ts (fun s => Made ts (ofSerializer s)) serializerPattern := by
  have hkeyword : Drawn ts (word "serializer") := .word (by decide)
  refine draws_seq fun isMap => draws_ite ?_ (draws_seq fun isList => draws_ite ?_ ?_)
  · refine draws_bind (draws_patternNames true) fun names hnames => draws_seq fun _ => draws_pure ?_
    simpa [ofSerializer, hkeyword] using hnames
  · refine draws_bind (draws_patternNames false) fun names hnames => draws_seq fun _ => draws_pure ?_
    simpa [ofSerializer, hkeyword] using hnames
  · refine draws_bind draws_expectIdentifier fun name hname => draws_pure ?_
    simpa [ofSerializer, hkeyword] using hname

theorem finds_serializer (hd : d.keepTrivia = false) :
    Finds ts (fun s => Made ts (ofSerializer s)) (serializer d) := by
  have hkeyword : Drawn ts (word "serializer") := .word (by decide)
  refine draws_seq fun begun => finds_ite ?_
  refine draws_seq fun bare => draws_ite (finds_some (by simpa [ofSerializer] using hkeyword)) ?_
  refine draws_seq fun assigned => draws_ite ?_ ?_
  · exact draws_bind draws_serializerPattern fun pattern hp => draws_seq fun _ => finds_some hp
  · refine draws_bind draws_returnType fun type htype => ?_
    refine draws_bind (draws_operationRest hd) fun r hr => finds_some ?_
    have hsignature := hr type htype
    simpa [ofSerializer, hkeyword] using hsignature

theorem draws_iterableRest (readonly : Bool) (kind : IterableKind) :
    Draws ts (fun i => Made ts (ofIterable i)) (iterableRest readonly kind) := by
  have hsecond : Draws ts (fun types => ∀ t ∈ types, Made ts (ofType t)) (secondType kind) := by
    refine draws_ite (draws_seq fun comma => ?_) (draws_pure (by simp))
    have hother : Finds ts (fun t => Made ts (ofType t)) (if comma then idlType else pure none) :=
      finds_ite finds_idlType
    refine draws_choice hother fun second hs => draws_ite draws_fail (draws_pure ?_)
    simpa using hs
  refine draws_seq fun _ => draws_bind (draws_expect finds_idlType) fun first hfirst => ?_
  refine draws_bind hsecond fun second hs => draws_seq fun _ => draws_seq fun _ => draws_pure ?_
  have hkeyword : Drawn ts (word kind.keyword) := .word (by cases kind <;> decide)
  have htypes : Made ts (joined [mark ",", space] ((first :: second).map ofType)) :=
    made_joined (by simp) (List.forall_mem_cons.mpr ⟨hfirst, hs⟩)
  rw [List.map_cons] at htypes
  simpa [ofIterable, hkeyword] using ⟨made_wordIf (by decide) readonly, htypes⟩

theorem finds_iterable : Finds ts (fun i => Made ts (ofIterable i)) iterable := by
  apply finds_attempt
  refine draws_seq fun readonly => draws_seq fun o => ?_
  cases o with
  | none => exact finds_none
  | some kind => exact finds_of_draws (draws_iterableRest readonly kind)

theorem draws_interfaceMember (hd : d.keepTrivia = false) :
    Draws ts (fun k => Made ts (ofMemberKind k)) (interfaceMember d) := by
  have hnested : Finds ts (fun t => Made ts (ofTypedef t)) (nestedTypedef d) :=
    draws_ite (finds_typedef hd) finds_none
  apply draws_expect
  refine finds_cons (finds_mapped finds_const fun _ h => h) ?_
  refine finds_cons (finds_mapped hnested fun _ h => h) ?_
  refine finds_cons (finds_mapped finds_iterable fun _ h => h) ?_
  refine finds_cons (finds_mapped (finds_serializer hd) fun _ h => h) ?_
  refine finds_cons (finds_mapped finds_attributeMember fun _ h => h) ?_
  exact finds_cons (finds_operation hd) finds_nil

theorem draws_exceptionMember : Draws ts (fun k => Made ts (ofMemberKind k)) exceptionMember := by
  refine draws_bind finds_const fun o ho => ?_
  cases o with
  | some c => exact draws_pure (ho c rfl)
  | none =>
    refine draws_bind finds_idlType fun type htype => draws_bind finds_identifier fun name hname => ?_
    cases type with
    | none => exact draws_fail
    | some type =>
      cases name with
      | none => exact draws_fail
      | some name =>
        refine draws_seq fun _ => draws_pure ?_
        simpa [ofMemberKind, ofField, wordIf, ofDefault] using ⟨htype type rfl, hname name rfl⟩

theorem draws_dictionaryField : Draws ts (fun k => Made ts (ofMemberKind k)) dictionaryField := by
  refine draws_seq fun required => draws_bind (draws_expect finds_idlType) fun type htype => ?_
  refine draws_bind draws_expectIdentifier fun name hname => ?_
  refine draws_bind finds_defaultValue fun default hl => draws_ite draws_fail ?_
  refine draws_seq fun _ => draws_pure ?_
  simpa [ofMemberKind, ofField] using
    ⟨made_wordIf (by decide) required, htype, hname, made_ofDefault hl⟩

theorem draws_member (hd : d.keepTrivia = false) {kind : Reader MemberKind} [Forward kind]
    (h : Draws ts (fun k => Made ts (ofMemberKind k)) kind) :
    Draws ts (fun m => Made ts (ofMember m)) (member d kind []) := by
  refine draws_bind (draws_extendedAttributes hd) fun es hes => ?_
  refine draws_bind (draws_trivia hd) fun after hafter => draws_bind h fun kind hk => draws_pure ?_
  subst hafter
  simpa [ofMember, Spelling.trivia] using ⟨hes, hk⟩

end Members

section Definitions

/-- What is written of a body and its members. -/
theorem made_block {us : List Token} (hus : Made ts us) : Made ts (block us []) := by
  simpa [block, Spelling.trivia] using hus

theorem made_header {keywords : List String} (hkeywords : keywords ⊆ grammarWords) {name : String}
    (hname : Drawn ts (word name)) (isPartial : Bool) {inheritance : Option String}
    (hbase : ∀ base ∈ inheritance, Drawn ts (word base)) :
    Made ts (header keywords name isPartial inheritance) := by
  have hbehind : Made ts (inheritance.toList.flatMap fun base => [space, mark ":", space, word base]) :=
    made_flatMap fun base hmem => by simpa using hbase base (by simpa using hmem)
  simpa [header] using ⟨made_wordIf (by decide) isPartial, made_words hkeywords, hname, hbehind⟩

theorem finds_inheritance : Finds ts (fun base => Drawn ts (word base)) (inheritance d) := by
  refine draws_seq fun colon => draws_ite (finds_of_draws draws_expectIdentifier) ?_
  exact draws_seq fun more => finds_ite (finds_of_draws draws_expectIdentifier)

theorem finds_inheritanceUnless (isPartial : Bool) :
    Finds ts (fun base => Drawn ts (word base)) (inheritanceUnless isPartial d) :=
  draws_ite finds_none finds_inheritance

theorem draws_memberBody (hd : d.keepTrivia = false) {kind : Reader MemberKind} [Consuming kind]
    (h : Draws ts (fun k => Made ts (ofMemberKind k)) kind) :
    Draws ts (fun r => Made ts (block (members r.1) r.2)) (body d (member d kind)) := by
  intro c hc r c' hrun
  obtain ⟨hmembers, hclosing⟩ := draws_body hd (draws_member hd h) c hc r c' hrun
  rw [hclosing]
  exact made_block (made_flatMap hmembers)

theorem draws_headedBody (hd : d.keepTrivia = false) {isPartial : Bool}
    {noName noBody unfinished : Reason} {kind : Reader MemberKind} [Consuming kind]
    {f : String → Option String → List Member → List Trivia → α}
    (hkind : Draws ts (fun k => Made ts (ofMemberKind k)) kind)
    (h : ∀ name base ms closing,
      (∀ ws, ws ⊆ grammarWords →
        Made ts (header ws name isPartial base ++ block (members ms) closing)) →
      P (f name base ms closing)) :
    Draws ts P (headedBody d isPartial noName noBody unfinished kind f) := by
  refine draws_bind draws_expectIdentifier fun name hname => ?_
  refine draws_bind (finds_inheritanceUnless isPartial) fun base hbase => draws_seq fun _ => ?_
  refine draws_bind (draws_memberBody hd hkind) fun r hr => draws_seq fun _ => draws_pure ?_
  refine h name base r.1 r.2 fun ws hws => ?_
  exact made_append.mpr ⟨made_header hws hname isPartial hbase, hr⟩

theorem draws_interfaceRest (hd : d.keepTrivia = false) (isPartial : Bool) :
    Draws ts (fun i => ∀ ws, ws ⊆ grammarWords → Made ts (ofInterface ws i))
      (interfaceRest d isPartial) := by
  rw [interfaceRest_eq]
  exact draws_headedBody hd (draws_interfaceMember hd) fun _ _ _ _ hmade => hmade

theorem finds_interface (hd : d.keepTrivia = false) (isPartial : Bool) :
    Finds ts (fun k => Made ts (ofDefinitionKind k)) (interface d isPartial) := by
  have hrest := @draws_interfaceRest ts d hd isPartial
  refine draws_seq fun isInterface => draws_ite ?_ (draws_seq fun isClass => finds_ite ?_)
  · exact draws_bind hrest fun i hi => finds_some (hi ["interface"] (by decide))
  · exact draws_bind hrest fun i hi => finds_some (hi ["class"] (by decide))

theorem finds_callback (hd : d.keepTrivia = false) :
    Finds ts (fun k => Made ts (ofDefinitionKind k)) (callback d) := by
  have hkeyword : Drawn ts (word "callback") := .word (by decide)
  have hrest : Draws ts (fun c => Made ts (ofCallback c)) (callbackRest d) := by
    refine draws_bind draws_expectIdentifier fun name hname => draws_seq fun _ => ?_
    refine draws_bind draws_returnType fun type htype => draws_seq fun _ => ?_
    refine draws_bind (draws_argumentList hd) fun args hargs => draws_seq fun _ => ?_
    refine draws_seq fun _ => draws_pure ?_
    simpa [ofCallback, hkeyword, signature] using ⟨hname, htype, hargs⟩
  refine draws_seq fun begun => finds_ite (draws_seq fun isInterface => draws_ite ?_ ?_)
  · refine draws_bind (draws_interfaceRest hd false) fun i hi => ?_
    exact finds_some (hi ["callback", "interface"] (by decide))
  · refine draws_seq fun isClass => draws_ite draws_fail ?_
    exact draws_bind hrest fun c hc => finds_some hc

theorem finds_dictionary (hd : d.keepTrivia = false) (isPartial : Bool) :
    Finds ts (fun k => Made ts (ofDefinitionKind k)) (dictionary d isPartial) := by
  rw [dictionary_eq]
  refine draws_seq fun begun => finds_ite (draws_headedBody hd draws_dictionaryField ?_)
  rintro name base ms closing hmade _ ⟨⟩
  exact hmade ["dictionary"] (by decide)

theorem finds_exception (hd : d.keepTrivia = false) :
    Finds ts (fun k => Made ts (ofDefinitionKind k)) (exception d) := by
  rw [exception_eq]
  refine draws_seq fun begun => finds_ite (draws_headedBody hd draws_exceptionMember ?_)
  rintro name base ms closing hmade _ ⟨⟩
  exact hmade ["exception"] (by decide)

theorem finds_partialDefinition (hd : d.keepTrivia = false) :
    Finds ts (fun k => Made ts (ofDefinitionKind k)) (partialDefinition d) := by
  have hkinds : Finds ts (fun k => Made ts (ofDefinitionKind k))
      (firstOf [dictionary d true, interface d true]) :=
    finds_cons (finds_dictionary hd true) (finds_cons (finds_interface hd true) finds_nil)
  exact draws_seq fun begun => finds_ite (finds_of_draws (draws_expect hkinds))

theorem draws_enumValue (hd : d.keepTrivia = false) :
    Draws ts (fun r => Made ts (ofEnumValue r.1)) (enumValue d []) := by
  have hstring : Productive (token .string none) := productive_tokenOf (by decide) (by decide)
  refine draws_bind (draws_expect (finds_token .string none)) fun u hu => ?_
  obtain ⟨t, ht, hkind, rfl⟩ := hu
  refine draws_bind (draws_trivia hd) fun trailing htrailing => draws_seq fun comma => draws_pure ?_
  subst htrailing
  rw [unescape_of_kind (by simp [hkind])]
  simpa [ofEnumValue, Spelling.trivia] using Drawn.value ht hkind

theorem made_ofEnumValues (trailingComma : Bool) {vs : List EnumValue}
    (h : ∀ v ∈ vs, Made ts (ofEnumValue v)) : Made ts (ofEnumValues trailingComma vs) := by
  induction vs with
  | nil => exact made_nil
  | cons v vs ih =>
    obtain ⟨hv, hvs⟩ := List.forall_mem_cons.mp h
    cases vs with
    | nil =>
      rw [ofEnumValues, made_append]
      refine ⟨hv, ?_⟩
      split <;> simp
    | cons w rest =>
      rw [ofEnumValues, made_append, made_cons]
      exact ⟨hv, drawn_mark ",", ih hvs⟩

theorem finds_enum (hd : d.keepTrivia = false) :
    Finds ts (fun k => Made ts (ofDefinitionKind k)) (enum d) := by
  refine draws_seq fun begun => finds_ite ?_
  refine draws_bind draws_expectIdentifier fun name hname => draws_seq fun _ => ?_
  refine draws_bind (draws_body hd (draws_enumValue hd)) fun r hr => draws_seq fun _ => ?_
  obtain ⟨hvalues, hclosing⟩ := hr
  refine finds_some ?_
  have hmade : ∀ v ∈ r.1.map Prod.fst, Made ts (ofEnumValue v) :=
    List.forall_mem_map.mpr hvalues
  rw [hclosing]
  exact made_append.mpr ⟨made_header (by decide) hname false (by simp),
    made_block (made_ofEnumValues _ hmade)⟩

theorem finds_implements : Finds ts (fun k => Made ts (ofDefinitionKind k)) implements := by
  have hkeyword : Drawn ts (word "implements") := .word (by decide)
  apply finds_attempt
  refine draws_bind finds_identifier fun o ho => ?_
  cases o with
  | none => exact finds_none
  | some target =>
    refine draws_seq fun begun => finds_ite ?_
    refine draws_bind draws_expectIdentifier fun mixin hmixin => draws_seq fun _ => finds_some ?_
    simpa [ofDefinitionKind, ofImplements, hkeyword] using ⟨ho target rfl, hmixin⟩

theorem finds_definitionKind (hd : d.keepTrivia = false) :
    Finds ts (fun k => Made ts (ofDefinitionKind k)) (definitionKind d) := by
  refine finds_cons (finds_callback hd) (finds_cons (finds_interface hd false) ?_)
  refine finds_cons (finds_partialDefinition hd) (finds_cons (finds_dictionary hd false) ?_)
  refine finds_cons (finds_exception hd) (finds_cons (finds_enum hd) ?_)
  refine finds_cons (finds_mapped (finds_typedef hd) fun _ h => h) ?_
  exact finds_cons finds_implements finds_nil

theorem draws_program (hd : d.keepTrivia = false) :
    Draws ts (fun p => ∀ x ∈ p.definitions, Made ts (ofDefinition x)) (program d) := by
  have hentry : Forward (programEntry d) := (gains_programEntry d).forward
  have hget : Forward (get : Reader Cursor) :=
    ⟨fun c => answers_get ⟨reaches_refl c, False.elim⟩⟩
  have hdraws : Draws ts (Sum.elim (fun x => Made ts (ofDefinition x)) fun _ => True)
      (programEntry d) := by
    refine draws_bind (draws_trivia hd) fun leading hleading => ?_
    refine draws_bind (draws_extendedAttributes hd) fun es hes => ?_
    refine draws_bind (draws_trivia hd) fun after hafter => ?_
    refine draws_bind (finds_definitionKind hd) fun o ho => ?_
    subst hleading hafter
    cases o with
    | some kind =>
      apply draws_pure
      simpa [ofDefinition, Spelling.trivia] using ⟨hes, ho kind rfl⟩
    | none => exact draws_ite (draws_pure trivial) draws_fail
  refine draws_bind (draws_untilDone hdraws) fun r hr => draws_seq fun c => ?_
  exact draws_ite (draws_pure hr.1) draws_fail

end Definitions

end WebIdl.Grammar

namespace WebIdl

open Token Spelling

/-- A tree is written with nothing but the grammar and the tokens that it was read from. -/
theorem made_of_parse {d : Dialect} {ts : List Token} {p : Program} (hd : d.keepTrivia = false)
    (h : parse d ts = .ok p) : ∀ x ∈ p.definitions, Made ts (ofDefinition x) := by
  obtain ⟨c, hrun⟩ := parse_eq_ok_iff.mp h
  exact Grammar.draws_program hd _ (Cursor.tokens_ofTokens ts) p c hrun

end WebIdl

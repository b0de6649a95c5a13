import WebIdl.Proofs.Progress.Forward

/-!
# Runs that are watched

The grammar may be run so that a record is kept of every cursor it is moved to. Such a run comes to
what the plain run comes to, never moves behind its start, and stops where it has been. So what
holds of the cursors in its record holds at every point of a parse.
-/

namespace WebIdl.Grammar

open Token Cursor

variable {α β σ : Type}

set_option synthInstance.maxSize 512

/-- A run that is watched: what it leads to, and the cursors that it passes. -/
def Watched (α : Type) : Type :=
  Cursor → Except ParseError (α × Cursor) × List Cursor

namespace Watched

/-- The second run behind the first, if that has an answer. -/
def andThen (w : Watched α) (f : α → Watched β) : Watched β := fun c =>
  match w c with
  | (.error e, points) => (.error e, points)
  | (.ok (a, c1), points) => ((f a c1).1, points ++ (f a c1).2)

instance instMonad : Monad Watched where
  pure a := fun c => (.ok (a, c), [])
  bind := andThen

/-- Wherever the cursor is moved to, it is seen there. -/
instance instMonadStateOf : MonadStateOf Cursor Watched where
  get := fun c => (.ok (c, c), [])
  set c' := fun _ => (.ok ((), c'), [c'])
  modifyGet f := fun c => (.ok (f c), [(f c).2])

instance instMonadExceptOf : MonadExceptOf ParseError Watched where
  throw e := fun _ => (.error e, [])
  tryCatch w handle := fun c =>
    match w c with
    | (.error e, points) => ((handle e c).1, points ++ (handle e c).2)
    | run => run

end Watched

/-- At the cursor `c` the watched run does what the plain one does. All that it passes lies ahead of
`s`; it ends where it has been, and it fails where it has been. -/
structure Honest (s c : Cursor) (r : Reader α) (w : Watched α) : Prop where
  result : (w c).1 = r c
  reaches : ∀ c' ∈ c :: (w c).2, Reaches s c'
  ends : ∀ a c', r c = .ok (a, c') → c' ∈ c :: (w c).2
  fails : ∀ e, r c = .error e → ∃ c' ∈ c :: (w c).2, ∃ reason, e = c'.fail reason

/-- The watched run is honest wherever it starts. -/
class Watches (r : Reader α) (w : Watched α) : Prop where
  honest : ∀ c, Honest c c r w

/-- A production whose watched run does what its plain run does. -/
abbrev Seen (r : ∀ {m : Type → Type} [Monad m] [MonadStateOf Cursor m]
    [MonadExceptOf ParseError m], m α) : Prop :=
  Watches (@r Reader _ _ _) (@r Watched _ _ _)

variable {s c : Cursor} {r : Reader α} {w : Watched α}

theorem Honest.mono {s' : Cursor} (h : Honest s c r w) (hs : Reaches s' s) :
    Honest s' c r w :=
  ⟨h.result, fun c' hc' => hs.trans (h.reaches c' hc'), h.ends, h.fails⟩

theorem honest_pure (hs : Reaches s c) (a : α) :
    Honest s c (pure a) (pure a) := by
  refine ⟨rfl, ?_, ?_, ?_⟩
  · intro c' hc'
    obtain rfl : c' = c := List.mem_singleton.mp hc'
    exact hs
  · rintro _ _ ⟨⟩
    exact List.mem_cons_self
  · rintro _ ⟨⟩

theorem honest_bind {f : α → Reader β} {g : α → Watched β} (h : Honest s c r w)
    (hf : ∀ a c1, r c = .ok (a, c1) → Reaches s c1 → Honest s c1 (f a) (g a)) :
    Honest s c (r >>= f) (w >>= g) := by
  obtain ⟨hresult, hreaches, hends, hfails⟩ := h
  have hrun : (r >>= f) c = (r c >>= fun p => f p.1 p.2) := rfl
  have hseen : (w >>= g) c = match w c with
      | (.error e, points) => (.error e, points)
      | (.ok (a, c1), points) => ((g a c1).1, points ++ (g a c1).2) := rfl
  cases hr : r c with
  | error e =>
    have hw : w c = (.error e, (w c).2) := Prod.ext (hresult.trans hr) rfl
    rw [hr] at hrun
    rw [hw] at hseen
    refine ⟨by rw [hseen, hrun]; rfl, by rw [hseen]; exact hreaches, ?_, ?_⟩
    · intro a c' hok
      rw [hrun] at hok
      cases hok
    · intro e' herror
      rw [hrun] at herror
      cases herror
      rw [hseen]
      exact hfails e hr
  | ok p =>
    obtain ⟨a, c1⟩ := p
    have hc1 := hends a c1 hr
    have hnext := hf a c1 hr (hreaches c1 hc1)
    have hw : w c = (.ok (a, c1), (w c).2) := Prod.ext (hresult.trans hr) rfl
    rw [hr] at hrun
    rw [hw] at hseen
    have hrun : (r >>= f) c = f a c1 := hrun
    have hpoints : ((w >>= g) c).2 = (w c).2 ++ (g a c1).2 := by rw [hseen]
    -- what the second run has seen is where the first one ended, or behind it
    have hmem : ∀ c' ∈ c1 :: (g a c1).2, c' ∈ c :: ((w >>= g) c).2 := by
      intro c' hc'
      rw [hpoints]
      rcases List.mem_cons.mp hc' with rfl | hc'
      · exact List.mem_append_left _ hc1
      · exact List.mem_cons_of_mem c (List.mem_append_right _ hc')
    refine ⟨by rw [hseen, hrun]; exact hnext.result, ?_, ?_, ?_⟩
    · intro c' hc'
      rw [hpoints, ← List.cons_append] at hc'
      rcases List.mem_append.mp hc' with hc' | hc'
      · exact hreaches c' hc'
      · exact hnext.reaches c' (List.mem_cons_of_mem c1 hc')
    · intro b c' hok
      exact hmem c' (hnext.ends b c' (hrun ▸ hok))
    · intro e herror
      obtain ⟨c', hc', hfail⟩ := hnext.fails e (hrun ▸ herror)
      exact ⟨c', hmem c' hc', hfail⟩

theorem honest_get (hs : Reaches s c) :
    Honest s c (get : Reader Cursor) (get : Watched Cursor) := by
  refine ⟨rfl, ?_, ?_, ?_⟩
  · intro c' hc'
    obtain rfl : c' = c := List.mem_singleton.mp hc'
    exact hs
  · rintro _ _ ⟨⟩
    exact List.mem_cons_self
  · rintro _ ⟨⟩

/-- The cursor may be moved to any place that lies ahead of the start. -/
theorem honest_modify {f : Cursor → Cursor} (hs : Reaches s c) (hf : Reaches s (f c)) :
    Honest s c (modify f : Reader PUnit) (modify f : Watched PUnit) := by
  refine ⟨rfl, ?_, ?_, ?_⟩
  · intro c' hc'
    rcases List.mem_cons.mp hc' with rfl | hc'
    · exact hs
    · obtain rfl : c' = f c := List.mem_singleton.mp hc'
      exact hf
  · rintro _ _ ⟨⟩
    exact List.mem_cons_of_mem c (List.mem_singleton.mpr rfl)
  · rintro _ ⟨⟩

theorem honest_set {c' : Cursor} (hs : Reaches s c) (hc' : Reaches s c') :
    Honest s c (set c' : Reader PUnit) (set c' : Watched PUnit) := by
  refine ⟨rfl, ?_, ?_, ?_⟩
  · intro c'' hc''
    rcases List.mem_cons.mp hc'' with rfl | hc''
    · exact hs
    · obtain rfl : c'' = c' := List.mem_singleton.mp hc''
      exact hc'
  · rintro _ _ ⟨⟩
    exact List.mem_cons_of_mem c (List.mem_singleton.mpr rfl)
  · rintro _ ⟨⟩

instance watches_pure (a : α) : Watches (pure a) (pure a) :=
  ⟨fun c => honest_pure (reaches_refl c) a⟩

instance watches_bind {f : α → Reader β} {g : α → Watched β} [h : Watches r w]
    [hf : ∀ a, Watches (f a) (g a)] : Watches (r >>= f) (w >>= g) :=
  ⟨fun c => honest_bind (h.honest c) fun a c1 _ hc1 => ((hf a).honest c1).mono hc1⟩

instance watches_fail (reason : Reason) :
    Watches (fail reason : Reader α) (fail reason : Watched α) := by
  refine ⟨fun c => ⟨rfl, ?_, ?_, ?_⟩⟩
  · intro c' hc'
    obtain rfl : c' = c := List.mem_singleton.mp hc'
    exact reaches_refl c'
  · rintro _ _ ⟨⟩
  · rintro _ ⟨⟩
    exact ⟨c, List.mem_cons_self, reason, rfl⟩

instance watches_get : Watches (get : Reader Cursor) (get : Watched Cursor) :=
  ⟨fun c => honest_get (reaches_refl c)⟩

instance watches_ite {b : Prop} [Decidable b] {r r' : Reader α} {w w' : Watched α}
    [h : Watches r w] [h' : Watches r' w'] :
    Watches (if b then r else r') (if b then w else w') := by
  split
  · exact h
  · exact h'

/-- Either there is an answer to go on with or there is none. -/
instance watches_bind_option {p : Reader (Option α)} {q : Watched (Option α)}
    {f : Option α → Reader β} {g : Option α → Watched β} [hp : Watches p q]
    [hsome : ∀ a, Watches (f (some a)) (g (some a))] [hnone : Watches (f none) (g none)] :
    Watches (p >>= f) (q >>= g) := by
  have hf : ∀ o, Watches (f o) (g o) := by
    intro o
    cases o with
    | none => exact hnone
    | some a => exact hsome a
  exact watches_bind

instance watches_skip : Watches (skip : Reader Unit) (skip : Watched Unit) :=
  ⟨fun c => honest_modify (reaches_refl c) (reaches_skip c)⟩

instance watches_trivia (d : Dialect) :
    Watches (trivia d : Reader (List Trivia)) (trivia d : Watched (List Trivia)) := by
  unfold trivia
  infer_instance

theorem watches_token {kind : TokenKind} {text : Option String} (hkind : kind ≠ .whitespace)
    (hknown : kind = .other → ∃ m ∈ text, m ∈ grammarMarks) :
    Watches (token kind text : Reader (Option Token))
      (token kind text : Watched (Option Token)) := by
  refine ⟨fun c => honest_bind (honest_get (reaches_refl c)) ?_⟩
  rintro _ _ ⟨⟩ hc
  have hread : Forward (token kind text) := (productive_token hkind hknown).forward
  cases hconsume : c.consume? kind text with
  | none => exact honest_pure hc none
  | some p =>
    obtain ⟨t, c1⟩ := p
    have hrun : (token kind text : Reader (Option Token)) c = .ok (some t, c1) := by
      rw [token_apply, hconsume]
      rfl
    have hc1 := (hread.answers c _ _ hrun).1
    exact honest_bind (honest_set hc hc1) fun _ c2 _ hc2 => honest_pure hc2 (some t)

instance watches_mark (m : String) [h : Punctuation m] :
    Watches (token .other (some m) : Reader (Option Token))
      (token .other (some m) : Watched (Option Token)) :=
  watches_token (by decide) fun _ => ⟨m, rfl, h.mem⟩

theorem watches_tokenOf {kind : TokenKind} {text : Option String} (hkind : kind ≠ .whitespace)
    (hother : kind ≠ .other) :
    Watches (token kind text : Reader (Option Token)) (token kind text : Watched (Option Token)) :=
  watches_token hkind fun h => absurd h hother

instance watches_keyword (word : String) :
    Watches (keyword word : Reader Bool) (keyword word : Watched Bool) := by
  have htoken := @watches_tokenOf .identifier (some word) (by decide) (by decide)
  unfold keyword
  infer_instance

instance watches_symbol (m : String) [Punctuation m] :
    Watches (symbol m : Reader Bool) (symbol m : Watched Bool) := by
  unfold symbol
  infer_instance

instance seen_identifier : Seen identifier := by
  have htoken := @watches_tokenOf .identifier none (by decide) (by decide)
  unfold identifier
  infer_instance

instance watches_expect {p : Reader (Option α)} {q : Watched (Option α)} {reason : Reason}
    [hp : Watches p q] : Watches (expect reason p) (expect reason q) := by
  unfold expect
  infer_instance

instance watches_expectSymbol {m : String} [Punctuation m] {reason : Reason} :
    Watches (expectSymbol m reason : Reader Unit) (expectSymbol m reason : Watched Unit) := by
  unfold expectSymbol
  infer_instance

instance watches_expectIdentifier {reason : Reason} :
    Watches (expectIdentifier reason : Reader String) (expectIdentifier reason : Watched String) :=
  watches_expect

/-- The place that is gone back to has been passed. -/
instance watches_attempt {p : Reader (Option α)} {q : Watched (Option α)} [hp : Watches p q] :
    Watches (attempt p) (attempt q) := by
  refine ⟨fun c => honest_bind (honest_get (reaches_refl c)) ?_⟩
  rintro _ _ ⟨⟩ hc
  refine honest_bind (hp.honest c) fun o c1 _ hc1 => ?_
  cases o with
  | none => exact honest_bind (honest_set hc1 hc) fun _ c2 _ hc2 => honest_pure hc2 none
  | some a => exact honest_pure hc1 (some a)

instance watches_firstOf_nil :
    Watches (firstOf [] : Reader (Option α)) (firstOf [] : Watched (Option α)) :=
  watches_pure none

instance watches_firstOf {p : Reader (Option α)} {ps : List (Reader (Option α))}
    {q : Watched (Option α)} {qs : List (Watched (Option α))} [hp : Watches p q]
    [hps : Watches (firstOf ps) (firstOf qs)] :
    Watches (firstOf (p :: ps)) (firstOf (q :: qs)) := by
  rw [firstOf, firstOf]
  infer_instance

theorem watches_firstOf_map {f : σ → Reader (Option α)} {g : σ → Watched (Option α)}
    (xs : List σ) [h : ∀ x, Watches (f x) (g x)] :
    Watches (firstOf (xs.map f)) (firstOf (xs.map g)) := by
  induction xs with
  | nil => exact watches_firstOf_nil
  | cons x xs ih =>
    rw [List.map_cons, List.map_cons]
    infer_instance

instance watches_mapped {f : α → β} {p : Reader (Option α)} {q : Watched (Option α)}
    [hp : Watches p q] : Watches (mapped f p) (mapped f q) := by
  unfold mapped
  infer_instance

instance watches_bounded {p : Nat → Reader α} {q : Nat → Watched α}
    [hp : ∀ n, Watches (p n) (q n)] :
    Watches (bounded p) (bounded q) := by
  unfold bounded
  infer_instance

instance watches_untilWithin {step : Reader (α ⊕ β)} {watch : Watched (α ⊕ β)}
    [hstep : Watches step watch] (n : Nat) :
    Watches (untilWithin step n) (untilWithin watch n) := by
  induction n with
  | zero => exact watches_fail .unrecognised
  | succ n ih =>
    have hround : ∀ r : α ⊕ β, Watches (match r with
        | .inl a => untilWithin step n >>= fun rest => pure (a :: rest.1, rest.2)
        | .inr b => pure ([], b)) (match r with
        | .inl a => untilWithin watch n >>= fun rest => pure (a :: rest.1, rest.2)
        | .inr b => pure ([], b)) := by
      intro r
      cases r with
      | inl a => exact watches_bind
      | inr b => exact watches_pure ([], b)
    exact @watches_bind _ _ _ _ _ _ hstep hround

instance watches_untilDone {step : Reader (α ⊕ β)} {watch : Watched (α ⊕ β)}
    [Watches step watch] : Watches (untilDone step) (untilDone watch) := by
  unfold untilDone
  infer_instance

instance watches_many {step : Reader (Option α)} {watch : Watched (Option α)}
    [hstep : Watches step watch] : Watches (many step) (many watch) := by
  unfold many
  infer_instance

instance watches_iterateWithin {step : σ → Reader (Option σ)} {watch : σ → Watched (Option σ)}
    [hstep : ∀ s, Watches (step s) (watch s)] (n : Nat) (s : σ) :
    Watches (iterateWithin step n s) (iterateWithin watch n s) := by
  induction n generalizing s with
  | zero => exact watches_pure s
  | succ n ih =>
    unfold iterateWithin
    infer_instance

instance watches_iterate {step : σ → Reader (Option σ)} {watch : σ → Watched (Option σ)} {s : σ}
    [∀ s, Watches (step s) (watch s)] : Watches (iterate step s) (iterate watch s) := by
  unfold iterate
  infer_instance

instance watches_afterCommas {item : Reader α} {watch : Watched α} [Watches item watch] :
    Watches (afterCommas item) (afterCommas watch) := by
  unfold afterCommas
  infer_instance

instance watches_commaSeparated {first : Reader (Option α)} {next : Reader α}
    {first' : Watched (Option α)} {next' : Watched α} [Watches first first']
    [Watches next next'] : Watches (commaSeparated first next) (commaSeparated first' next') := by
  unfold commaSeparated
  infer_instance

instance watches_body {d : Dialect} {entry : List Trivia → Reader α}
    {watch : List Trivia → Watched α} [∀ leading, Watches (entry leading) (watch leading)] :
    Watches (body d entry) (body d watch) := by
  unfold body
  infer_instance

instance seen_integerType : Seen integerType := by
  unfold Seen integerType
  infer_instance

instance seen_floatType : Seen floatType := by
  unfold Seen floatType
  infer_instance

instance seen_plainType (w : String) (p : Primitive) : Seen (plainType w p) := by
  unfold Seen plainType
  infer_instance

instance seen_primitiveType : Seen primitiveType := by
  unfold Seen primitiveType
  infer_instance

instance seen_moreSuffix (s : Suffix) : Seen (moreSuffix s) := by
  unfold Seen moreSuffix
  infer_instance

instance seen_suffixes : Seen suffixes := by
  unfold Seen suffixes
  infer_instance

instance watches_namedType {inner : Reader (Option IdlType)}
    {inner' : Watched (Option IdlType)} [Watches inner inner'] (name : String) :
    Watches (namedType inner name) (namedType inner' name) := by
  unfold namedType
  infer_instance

instance watches_singleType {inner : Reader (Option IdlType)}
    {inner' : Watched (Option IdlType)} [Watches inner inner'] :
    Watches (singleType inner) (singleType inner') := by
  unfold singleType
  infer_instance

instance watches_unionType {inner : Reader (Option IdlType)}
    {inner' : Watched (Option IdlType)} [Watches inner inner'] :
    Watches (unionType inner) (unionType inner') := by
  unfold unionType
  infer_instance

instance seen_idlTypeWithin (n : Nat) : Seen (idlTypeWithin n) := by
  induction n with
  | zero => exact watches_pure none
  | succ n ih =>
    unfold Seen idlTypeWithin idlTypeWith
    infer_instance

instance seen_idlType : Seen idlType := by
  unfold Seen idlType
  infer_instance

instance seen_returnType : Seen returnType := by
  unfold Seen returnType
  infer_instance

instance seen_plainLiteral (w : String) (l : Literal) : Seen (plainLiteral w l) := by
  unfold Seen plainLiteral
  infer_instance

instance seen_numeral : Seen numeral := by
  have hfloat := @watches_tokenOf .float none (by decide) (by decide)
  have hinteger := @watches_tokenOf .integer none (by decide) (by decide)
  unfold Seen numeral
  infer_instance

/-- The step back leads no further than to the minus. -/
instance seen_negativeInfinity : Seen negativeInfinity := by
  refine ⟨fun c => honest_bind ((watches_symbol "-").honest c) fun opened c1 hopened hc1 => ?_⟩
  cases opened with
  | false => exact honest_pure hc1 none
  | true =>
    have hminus := ((gains_symbol "-").answers c _ _ hopened).2 rfl
    have hword := ((watches_keyword "Infinity").honest c1).mono hc1
    refine honest_bind hword fun infinite c2 hinfinite hc2 => ?_
    cases infinite with
    | true => exact honest_pure hc2 _
    | false =>
      have hread := ((forward_keyword "Infinity").answers c1 _ _ hinfinite).1
      have hback := (hminus.trans hread).unconsume
      exact honest_bind (honest_modify hc2 hback) fun _ c3 _ hc3 => honest_pure hc3 none

instance seen_constValue : Seen constValue := by
  unfold Seen constValue
  infer_instance

instance seen_emptySequence : Seen emptySequence := by
  unfold Seen emptySequence
  infer_instance

instance seen_stringLiteral : Seen stringLiteral := by
  have hstring := @watches_tokenOf .string none (by decide) (by decide)
  unfold Seen stringLiteral
  infer_instance

instance seen_defaultValue : Seen defaultValue := by
  unfold Seen defaultValue
  infer_instance

instance seen_ellipsis : Seen ellipsis := by
  unfold Seen ellipsis
  infer_instance

instance watches_argument {d : Dialect} {attributes : Reader (List ExtendedAttribute)}
    {attributes' : Watched (List ExtendedAttribute)} [Watches attributes attributes'] :
    Watches (argument d attributes) (argument d attributes') := by
  unfold argument
  infer_instance

instance watches_argumentsWith {argument : Reader (Option Argument)}
    {argument' : Watched (Option Argument)} [Watches argument argument'] :
    Watches (argumentsWith argument) (argumentsWith argument') := by
  unfold argumentsWith
  infer_instance

instance seen_typePair : Seen typePair := by
  unfold Seen typePair
  infer_instance

instance seen_moreNames : Seen moreNames := by
  unfold Seen moreNames
  infer_instance

instance seen_nameList : Seen nameList := by
  unfold Seen nameList
  infer_instance

instance seen_attributeValue : Seen attributeValue := by
  unfold Seen attributeValue
  infer_instance

instance watches_attributeParameters {argument : Reader (Option Argument)}
    {argument' : Watched (Option Argument)} [Watches argument argument'] :
    Watches (attributeParameters argument) (attributeParameters argument') := by
  unfold attributeParameters
  infer_instance

instance watches_extendedAttribute {argument : Reader (Option Argument)}
    {argument' : Watched (Option Argument)} [Watches argument argument'] :
    Watches (extendedAttribute argument) (extendedAttribute argument') := by
  unfold extendedAttribute
  infer_instance

instance watches_extendedAttributesWith {argument : Reader (Option Argument)}
    {argument' : Watched (Option Argument)} [Watches argument argument'] :
    Watches (extendedAttributesWith argument) (extendedAttributesWith argument') := by
  unfold extendedAttributesWith
  infer_instance

instance seen_extendedAttributesWithin (d : Dialect) (n : Nat) :
    Seen (extendedAttributesWithin d n) := by
  induction n with
  | zero => exact watches_pure []
  | succ n ih =>
    unfold Seen extendedAttributesWithin
    infer_instance

instance seen_extendedAttributes (d : Dialect) : Seen (extendedAttributes d) := by
  unfold Seen extendedAttributes
  infer_instance

instance seen_argumentList (d : Dialect) : Seen (argumentList d) := by
  unfold Seen argumentList
  infer_instance

instance seen_typedef (d : Dialect) : Seen (typedef d) := by
  unfold Seen typedef
  infer_instance

instance seen_constType : Seen constType := by
  unfold Seen constType
  infer_instance

instance seen_const : Seen const := by
  unfold Seen const
  infer_instance

instance seen_attributeMember : Seen attributeMember := by
  unfold Seen attributeMember
  infer_instance

instance seen_operationRest (d : Dialect) : Seen (operationRest d) := by
  unfold Seen operationRest
  infer_instance

instance seen_special (s : Special) : Seen (special s) := by
  unfold Seen special
  infer_instance

instance seen_specials : Seen specials := by
  have hspecial := @watches_firstOf_map _ _ special special Special.all _
  unfold Seen specials
  infer_instance

instance seen_markedOperation (d : Dialect) (marks : Specials) (isStatic stringifier : Bool) :
    Seen (markedOperation d marks isStatic stringifier) := by
  unfold Seen markedOperation
  infer_instance

instance seen_stringifierRest (d : Dialect) : Seen (stringifierRest d) := by
  unfold Seen stringifierRest
  infer_instance

instance seen_iteratorObject : Seen iteratorObject := by
  unfold Seen iteratorObject
  infer_instance

instance seen_iteratorRest (type : IdlType) : Seen (iteratorRest type) := by
  unfold Seen iteratorRest
  infer_instance

/-- Whether a call follows is found out on the way ahead, and then the cursor is back. -/
instance seen_callAhead : Seen callAhead := by
  refine ⟨fun c => honest_bind (honest_get (reaches_refl c)) ?_⟩
  rintro _ _ ⟨⟩ hc
  refine honest_bind (seen_identifier.honest c) fun _ c1 _ hc1 => ?_
  refine honest_bind (((watches_symbol "(").honest c1).mono hc1) fun isCall c2 _ hc2 => ?_
  exact honest_bind (honest_set hc2 hc) fun _ c3 _ hc3 => honest_pure hc3 isCall

instance seen_plainOperation (d : Dialect) : Seen (plainOperation d) := by
  unfold Seen plainOperation
  infer_instance

instance seen_operation (d : Dialect) : Seen (operation d) := by
  unfold Seen operation
  infer_instance

instance seen_patternNames (inheritMore : Bool) : Seen (patternNames inheritMore) := by
  unfold Seen patternNames
  infer_instance

instance seen_serializerPattern : Seen serializerPattern := by
  unfold Seen serializerPattern
  infer_instance

instance seen_serializer (d : Dialect) : Seen (serializer d) := by
  unfold Seen serializer
  infer_instance

instance seen_iterableKeyword (kind : IterableKind) : Seen (iterableKeyword kind) := by
  unfold Seen iterableKeyword
  infer_instance

instance seen_iterableKind (readonly : Bool) : Seen (iterableKind readonly) :=
  watches_firstOf_map _

instance seen_secondType (kind : IterableKind) : Seen (secondType kind) := by
  unfold Seen secondType
  infer_instance

instance seen_iterableRest (readonly : Bool) (kind : IterableKind) :
    Seen (iterableRest readonly kind) := by
  unfold Seen iterableRest
  infer_instance

instance seen_iterable : Seen iterable := by
  unfold Seen iterable
  infer_instance

instance seen_nestedTypedef (d : Dialect) : Seen (nestedTypedef d) := by
  unfold Seen nestedTypedef
  infer_instance

instance seen_interfaceMember (d : Dialect) : Seen (interfaceMember d) := by
  unfold Seen interfaceMember
  infer_instance

instance seen_exceptionField : Seen exceptionField := by
  unfold Seen exceptionField
  infer_instance

instance seen_exceptionMember : Seen exceptionMember := by
  unfold Seen exceptionMember
  infer_instance

instance seen_dictionaryField : Seen dictionaryField := by
  unfold Seen dictionaryField
  infer_instance

instance watches_member {d : Dialect} {kind : Reader MemberKind} {kind' : Watched MemberKind}
    [Watches kind kind'] (leading : List Trivia) :
    Watches (member d kind leading) (member d kind' leading) := by
  unfold member
  infer_instance

instance seen_extendsKeyword (d : Dialect) : Seen (extendsKeyword d) := by
  unfold Seen extendsKeyword
  infer_instance

instance seen_inheritance (d : Dialect) : Seen (inheritance d) := by
  unfold Seen inheritance
  infer_instance

instance seen_inheritanceUnless (isPartial : Bool) (d : Dialect) :
    Seen (inheritanceUnless isPartial d) := by
  unfold Seen inheritanceUnless
  infer_instance

instance seen_interfaceRest (d : Dialect) (isPartial : Bool) :
    Seen (interfaceRest d isPartial) := by
  unfold Seen interfaceRest
  infer_instance

instance seen_classKeyword (d : Dialect) : Seen (classKeyword d) := by
  unfold Seen classKeyword
  infer_instance

instance seen_interface (d : Dialect) (isPartial : Bool) : Seen (interface d isPartial) := by
  unfold Seen interface
  infer_instance

instance seen_callbackRest (d : Dialect) : Seen (callbackRest d) := by
  unfold Seen callbackRest
  infer_instance

instance seen_callback (d : Dialect) : Seen (callback d) := by
  unfold Seen callback
  infer_instance

instance seen_dictionary (d : Dialect) (isPartial : Bool) : Seen (dictionary d isPartial) := by
  unfold Seen dictionary
  infer_instance

instance seen_partialDefinition (d : Dialect) : Seen (partialDefinition d) := by
  unfold Seen partialDefinition
  infer_instance

instance seen_exception (d : Dialect) : Seen (exception d) := by
  unfold Seen exception
  infer_instance

instance seen_enumValue (d : Dialect) (leading : List Trivia) : Seen (enumValue d leading) := by
  have hstring := @watches_tokenOf .string none (by decide) (by decide)
  unfold Seen enumValue
  infer_instance

instance seen_enum (d : Dialect) : Seen (enum d) := by
  unfold Seen enum
  infer_instance

instance seen_implements : Seen implements := by
  unfold Seen implements
  infer_instance

instance seen_definitionKind (d : Dialect) : Seen (definitionKind d) := by
  unfold Seen definitionKind
  infer_instance

instance seen_programEntry (d : Dialect) : Seen (programEntry d) := by
  unfold Seen programEntry
  infer_instance

instance seen_program (d : Dialect) : Seen (program d) := by
  unfold Seen program
  infer_instance

end WebIdl.Grammar

import WebIdl.Proofs.Twins.Rules

/-!
# Types, literals and attributes side by side

What stands inside a member or in front of a definition reads no `;`, so it leaves paired cursors
paired.
-/

namespace WebIdl.Grammar

open Token Cursor

variable {K : Pairing} {d : Dialect}

section Types

theorem offer_integerType : Offer K K.rel id integerType integerType := by
  refine twins_seq (steady_keyword _) fun unsigned => twins_seq (steady_keyword _) fun short => ?_
  cases short with
  | true => exact offer_some rfl
  | false =>
    refine twins_seq (steady_keyword _) fun long => ?_
    cases long with
    | true => exact twins_seq (steady_keyword _) fun double => offer_some rfl
    | false =>
      cases unsigned with
      | true => exact twins_fail
      | false => exact offer_none

theorem offer_floatType : Offer K K.rel id floatType floatType := by
  refine twins_seq (steady_keyword _) fun unrestricted => ?_
  refine twins_seq (steady_keyword _) fun float => ?_
  cases float with
  | true => exact offer_some rfl
  | false =>
    refine twins_seq (steady_keyword _) fun double => ?_
    cases double with
    | true => exact offer_some rfl
    | false =>
      cases unrestricted with
      | true => exact twins_fail
      | false => exact offer_none

theorem offer_plainType (w : String) (p : Primitive) :
    Offer K K.rel id (plainType w p) (plainType w p) := by
  refine twins_seq (steady_keyword w) fun found => ?_
  cases found with
  | true => exact offer_some rfl
  | false => exact offer_none

theorem offer_primitiveType : Offer K K.rel id primitiveType primitiveType :=
  offer_firstOf_cons offer_integerType (offer_firstOf_cons offer_floatType
    (offer_firstOf_cons (offer_plainType _ _) (offer_firstOf_cons (offer_plainType _ _)
      (offer_firstOf_cons (offer_plainType _ _) offer_firstOf_nil))))

theorem offer_moreSuffix (s : Suffix) : Offer K K.rel id (moreSuffix s) (moreSuffix s) := by
  refine twins_seq (steady_symbol (by decide)) fun nullable => ?_
  refine twins_ite (twins_ite twins_fail (offer_some rfl)) ?_
  refine twins_seq (steady_symbol (by decide)) fun array => offer_ite ?_
  exact twins_seq (steady_expectSymbol (by decide)) fun _ => offer_some rfl

theorem steady_suffixes : Steady K id suffixes suffixes :=
  steady_iterate offer_moreSuffix {}

section Inner

variable {inner : Reader (Option IdlType)} (hinner : Offer K K.rel id inner inner)

include hinner

theorem steady_namedType (name : String) :
    Steady K id (namedType inner name) (namedType inner name) := by
  refine twins_seq (steady_symbol (by decide)) fun generic => ?_
  cases generic with
  | true =>
    refine twins_seq (twins_expect hinner) fun t => ?_
    exact twins_seq (steady_expectSymbol (by decide)) fun _ =>
      twins_seq steady_suffixes fun s => steady_pure rfl
  | false =>
    exact twins_seq steady_suffixes fun s => twins_ite twins_fail (steady_pure rfl)

theorem offer_singleType : Offer K K.rel id (singleType inner) (singleType inner) := by
  refine twins_option offer_primitiveType (fun p => ?_) ?_
  · exact twins_seq steady_suffixes fun s => offer_some rfl
  · refine twins_option offer_identifier (fun name => ?_) offer_none
    exact offer_of_twins (steady_namedType hinner name)

theorem offer_unionType [Productive inner] :
    Offer K K.rel id (unionType inner) (unionType inner) := by
  refine twins_seq (steady_symbol (by decide)) fun opened => offer_ite ?_
  refine twins_seq (twins_expect hinner) fun first => ?_
  have hmore : Offer K K.rel id (do
      if ← keyword "or" then
        return some (← expect .noUnionMember inner)
      else
        return none) (do
      if ← keyword "or" then
        return some (← expect .noUnionMember inner)
      else
        return none) := by
    refine twins_seq (steady_keyword "or") fun more => offer_ite ?_
    exact offer_of_twins (twins_expect hinner)
  refine twins_seq (steady_many hmore) fun others => ?_
  rw [List.map_id]
  refine twins_seq (steady_expectSymbol (by decide)) fun _ => ?_
  cases others with
  | nil => exact twins_fail
  | cons second more => exact twins_seq steady_suffixes fun s => offer_some rfl

end Inner

theorem offer_idlTypeWithin (n : Nat) :
    Offer K K.rel id (idlTypeWithin n) (idlTypeWithin n) := by
  induction n with
  | zero => exact offer_none
  | succ n ih =>
    exact offer_firstOf_cons (offer_singleType ih)
      (offer_firstOf_cons (offer_unionType ih) offer_firstOf_nil)

theorem offer_idlType : Offer K K.rel id idlType idlType :=
  twins_bounded stable_idlTypeWithin stable_idlTypeWithin offer_idlTypeWithin

theorem steady_returnType : Steady K id returnType returnType :=
  twins_expect offer_idlType

theorem steady_constType : Steady K id constType constType := by
  refine twins_option offer_primitiveType (fun p => ?_) ?_
  · exact twins_seq (steady_symbol (by decide)) fun nullable => steady_pure rfl
  · refine twins_seq steady_expectIdentifier fun name => ?_
    exact twins_seq (steady_symbol (by decide)) fun nullable => steady_pure rfl

end Types

section Literals

theorem offer_plainLiteral (w : String) (l : Literal) :
    Offer K K.rel id (plainLiteral w l) (plainLiteral w l) := by
  refine twins_seq (steady_keyword w) fun found => ?_
  cases found with
  | true => exact offer_some rfl
  | false => exact offer_none

theorem offer_numeral : Offer K K.rel id numeral numeral := by
  have htoken {kind : TokenKind} (hkind : kind ≠ .whitespace) (hother : kind ≠ .other)
      (post : Cursor → Cursor → Prop) (hpost : ∀ c c', K.Settled c c' → post c c') :
      Twins K K.Settled (fun o => o.elim post fun _ => K.rel) (Option.map id)
        (mapped (fun t : Token => Literal.number t.text) (token kind none))
        (mapped (fun t : Token => Literal.number t.text) (token kind none)) := by
    refine twins_bind (twins_lexeme hkind fun h => absurd h hother) fun o => ?_
    cases o with
    | none => exact twins_pure rfl hpost
    | some t => exact twins_pure rfl fun _ _ h => h
  refine twins_bind twins_skip fun _ => twins_bind
    (htoken (by decide) (by decide) K.Settled fun _ _ h => h) fun o => ?_
  cases o with
  | some l => exact twins_pure rfl fun _ _ h => h
  | none =>
    refine twins_bind (htoken (by decide) (by decide) K.rel fun _ _ h => h.rel) fun o => ?_
    cases o with
    | some l => exact twins_pure rfl fun _ _ h => h
    | none => exact twins_pure rfl fun _ _ h => h

/-- Behind a minus, from where both runs may step back. -/
structure Dashed (K : Pairing) (c c' : Cursor) : Prop where
  rel : K.rel c c'
  back : K.Stuck c.skip.unconsume c'.skip.unconsume

theorem twins_dash :
    Twins K K.rel (fun b => cond b (Dashed K) K.rel) id (symbol "-") (symbol "-") := by
  have htoken : Twins K K.Settled (fun o => o.elim K.rel fun _ => Dashed K) (Option.map id)
      (token .other (some "-")) (token .other (some "-")) := by
    refine twins_token (fun h => h) (fun {c c' t rest rest'} h hafter hafter' ht htext => ?_)
      fun h => h.rel
    obtain rfl : t = mark "-" := eq_of_asked ht htext
    refine ⟨K.next h.rel hafter hafter' rfl (by decide), ?_⟩
    exact (K.minus h.rel hafter hafter').imp_right fun h => ⟨h.1, h.2.1, h.2.2⟩
  refine twins_bind twins_skip fun _ => twins_bind htoken fun o => ?_
  cases o with
  | none => exact twins_pure rfl fun _ _ h => h
  | some t => exact twins_pure rfl fun _ _ h => h

/-- Where `Infinity` does not stand behind the minus, a step back leads to stuck runs. -/
theorem twins_infinity :
    Twins K (Dashed K) (fun b c c' => cond b (K.rel c c') (K.Stuck c.unconsume c'.unconsume)) id
      (keyword "Infinity") (keyword "Infinity") := by
  have hskip : Twins K (Dashed K)
      (fun _ c c' => K.Settled c c' ∧ K.Stuck c.unconsume c'.unconsume) id skip skip := by
    refine fun c c' hc => ⟨?_, ?_⟩
    · rintro _ _ ⟨⟩
      exact ⟨c'.skip, rfl, ⟨K.skip hc.rel, settled_skip c, settled_skip c'⟩, hc.back⟩
    · rintro - _ ⟨⟩
  have htoken : Twins K (fun c c' => K.Settled c c' ∧ K.Stuck c.unconsume c'.unconsume)
      (fun o c c' => o.elim (K.Stuck c.unconsume c'.unconsume) fun _ => K.rel c c')
      (Option.map id) (token .identifier (some "Infinity")) (token .identifier (some "Infinity")) := by
    refine twins_token (fun h => h.1) (fun {c c' t rest rest'} h hafter hafter' ht htext => ?_)
      fun h => h.2
    refine K.next h.1.rel hafter hafter' (by simp [isWhitespace, ht]) ?_
    rintro rfl
    cases ht
  refine twins_bind hskip fun _ => twins_bind htoken fun o => ?_
  cases o with
  | none => exact twins_pure rfl fun _ _ h => h
  | some t => exact twins_pure rfl fun _ _ h => h

theorem twins_negativeInfinity :
    Twins K K.rel (fun o => o.elim K.Stuck fun _ => K.rel) (Option.map id) negativeInfinity
      negativeInfinity := by
  refine twins_bind twins_dash fun minus => ?_
  cases minus with
  | false => exact twins_pure rfl fun _ _ h => .inl h
  | true =>
    refine twins_bind twins_infinity fun infinity => ?_
    cases infinity with
    | true => exact twins_pure rfl fun _ _ h => h
    | false =>
      refine fun c c' hc => ⟨?_, ?_⟩
      · rintro _ _ ⟨⟩
        exact ⟨c'.unconsume, rfl, hc⟩
      · rintro - _ ⟨⟩

theorem twins_constValue :
    Twins K K.rel (fun o => o.elim K.Stuck fun _ => K.rel) (Option.map id) constValue
      constValue := by
  have hnegative : Twins K K.rel (fun o => o.elim K.Stuck fun _ => K.rel) (Option.map id)
      (firstOf [negativeInfinity]) (firstOf [negativeInfinity]) := by
    refine twins_bind twins_negativeInfinity fun o => ?_
    cases o with
    | none => exact twins_pure rfl fun _ _ h => h
    | some l => exact twins_pure rfl fun _ _ h => h
  have hplain (w : String) (l : Literal) {ps : List (Reader (Option Literal))}
      (hps : Twins K K.rel (fun o => o.elim K.Stuck fun _ => K.rel) (Option.map id) (firstOf ps)
        (firstOf ps)) :=
    twins_firstOf_cons (offer_plainLiteral w l) (fun _ _ _ h => h) hps
  exact hplain _ _ (hplain _ _ (hplain _ _ (hplain _ _ (hplain _ _
    (twins_firstOf_cons offer_numeral (fun _ _ _ h => h) hnegative)))))

theorem offer_emptySequence : Offer K K.rel id emptySequence emptySequence := by
  refine twins_seq (steady_symbol (by decide)) fun opened => offer_ite ?_
  exact twins_seq (steady_expectSymbol (by decide)) fun _ => offer_some rfl

theorem offer_stringLiteral : Offer K K.rel id stringLiteral stringLiteral := by
  refine twins_bind twins_skip fun _ =>
    twins_bind (twins_lexeme (by decide) fun h => absurd h (by decide)) fun o => ?_
  cases o with
  | none => exact twins_pure rfl fun _ _ h => h.rel
  | some t => exact twins_pure rfl fun _ _ h => h

theorem refused_skip {c : Cursor} (hc : Refused c) : Refused c.skip := by
  rw [Refused, ahead_skip]
  exact hc

/-- What is refused is read neither as a sequence nor as a string. -/
theorem reads_firstOf_refused {c : Cursor} (hc : Refused c) :
    Reads c (firstOf [emptySequence, stringLiteral]) fun o c' => o = none ∧ Refused c' := by
  refine reads_firstOf_next (reads_bind.mpr (reads_bind.mpr (reads_skip.mpr ?_)))
  rw [reads_bind]
  refine reads_token_none (fun t ht hkind htext => ?_) (reads_pure.mpr (reads_pure.mpr ⟨rfl, ?_⟩))
  · rw [head?_after_skip] at ht
    exact (hc t ht).1 (eq_of_asked hkind htext)
  · refine reads_firstOf_next (reads_bind.mpr (reads_skip.mpr (reads_mapped ?_)))
    refine reads_token_none (fun t ht hkind _ => ?_)
      ⟨rfl, reads_pure.mpr ⟨rfl, refused_skip (refused_skip hc)⟩⟩
    rw [head?_after_skip, ahead_skip] at ht
    exact (hc t ht).2 hkind

/-- No default is found where everything is refused. -/
theorem twins_refusing :
    Twins K K.Refusing (fun o => o.elim K.Refusing fun _ => K.rel) (Option.map id)
      (firstOf [emptySequence, stringLiteral]) (firstOf [emptySequence, stringLiteral]) := by
  intro c c' hc
  obtain ⟨_, c1, hrun, rfl, h1⟩ := reads_firstOf_refused hc.left
  obtain ⟨_, c1', hrun', rfl, h1'⟩ := reads_firstOf_refused hc.right
  rw [hrun, hrun']
  exact twins_pure rfl (fun _ _ h => h) c1 c1' ⟨h1, h1', hc.fail⟩

theorem offer_defaultValue : Offer K K.rel id defaultValue defaultValue := by
  refine twins_seq (steady_symbol (by decide)) fun assigned => offer_ite ?_
  have hothers : Twins K K.Stuck (fun o => o.elim K.Stuck fun _ => K.rel) (Option.map id)
      (firstOf [emptySequence, stringLiteral]) (firstOf [emptySequence, stringLiteral]) := by
    have hrel : Offer K K.rel id (firstOf [emptySequence, stringLiteral])
        (firstOf [emptySequence, stringLiteral]) :=
      offer_firstOf_cons offer_emptySequence
        (offer_firstOf_cons offer_stringLiteral offer_firstOf_nil)
    rintro c c' (hc | hc)
    · refine hrel.mono (fun _ _ h => h) (fun o _ _ h => ?_) c c' hc
      cases o with
      | none => exact .inl h
      | some l => exact h
    · refine twins_refusing.mono (fun _ _ h => h) (fun o _ _ h => ?_) c c' hc
      cases o with
      | none => exact .inr h
      | some l => exact h
  have hvalue : Twins K K.rel (fun o => o.elim K.Stuck fun _ => K.rel) (Option.map id)
      (firstOf [constValue, emptySequence, stringLiteral])
      (firstOf [constValue, emptySequence, stringLiteral]) := by
    refine twins_bind twins_constValue fun o => ?_
    cases o with
    | none => exact hothers
    | some l => exact twins_pure rfl fun _ _ h => h
  refine offer_of_twins (twins_bind hvalue fun o => ?_)
  cases o with
  | none => exact twins_fail_of_stuck
  | some l => exact twins_pure rfl fun _ _ h => h

end Literals

section Attributes

/-- Behind a dot, where both runs find another one or neither does. -/
structure Dotted (K : Pairing) (c c' : Cursor) : Prop where
  rel : K.rel c c'
  alike : c.after.head? = some (mark ".") ↔ c'.after.head? = some (mark ".")

theorem Pairing.dotted_next {c c' : Cursor} {rest rest' : List Token} (h : K.rel c c')
    (hafter : c.after = mark "." :: rest) (hafter' : c'.after = mark "." :: rest') :
    Dotted K (c.next (mark ".") rest) (c'.next (mark ".") rest') :=
  ⟨K.next h hafter hafter' rfl (by decide), K.dots h hafter hafter'⟩

theorem twins_dot :
    Twins K K.Settled (fun o => o.elim K.Settled fun _ => Dotted K) (Option.map id)
      (token .other (some ".")) (token .other (some ".")) := by
  refine twins_token (fun h => h) (fun {c c' t rest rest'} h hafter hafter' ht htext => ?_)
    fun h => h
  obtain rfl : t = mark "." := eq_of_asked ht htext
  exact Pairing.dotted_next h.rel hafter hafter'

/-- A dot that has to stand right behind another one. -/
theorem twins_dot_of_dotted :
    Twins K (Dotted K) (fun o => o.elim K.rel fun _ => Dotted K) (Option.map id)
      (token .other (some ".")) (token .other (some ".")) := by
  intro c c' hc
  by_cases hdot : c.after.head? = some (mark ".")
  · obtain ⟨rest, hafter⟩ := List.head?_eq_some_iff.mp hdot
    obtain ⟨rest', hafter'⟩ := List.head?_eq_some_iff.mp (hc.alike.mp hdot)
    rw [token_of_cons hafter, token_of_cons hafter', if_pos (by decide), if_pos (by decide)]
    exact twins_pure rfl (fun _ _ h => h) (c.next (mark ".") rest) (c'.next (mark ".") rest')
      (Pairing.dotted_next hc.rel hafter hafter')
  · have hnone {c : Cursor} (h : c.after.head? ≠ some (mark ".")) :
        (token .other (some ".") : Reader _) c = .ok (none, c) := by
      cases hafter : c.after with
      | nil => exact token_of_nil hafter
      | cons t rest =>
        rw [token_of_cons hafter, if_neg]
        rintro ⟨ht, htext⟩
        exact h (by rw [hafter, eq_of_asked ht htext]; rfl)
    rw [hnone hdot, hnone fun h => hdot (hc.alike.mpr h)]
    exact twins_pure rfl (fun _ _ h => h) c c' hc.rel

theorem steady_ellipsis : Steady K id ellipsis ellipsis := by
  have hlast (second : Option Token) :
      Twins K (second.elim K.rel fun _ => Dotted K) (fun o => o.elim K.rel fun _ => K.rel)
        (Option.map id) (if second.isSome then token .other (some ".") else pure none)
        (if second.isSome then token .other (some ".") else pure none) := by
    cases second with
    | none => exact offer_none
    | some t =>
      refine twins_dot_of_dotted.mono (fun _ _ h => h) fun o _ _ h => ?_
      cases o with
      | none => exact h
      | some t => exact h.rel
  have hdots : Twins K K.Settled (fun o => o.elim K.rel fun _ => K.rel) (Option.map id)
      (do
        let first ← token .other (some ".")
        let second ← if first.isSome then token .other (some ".") else pure none
        if second.isSome then token .other (some ".") else return none)
      (do
        let first ← token .other (some ".")
        let second ← if first.isSome then token .other (some ".") else pure none
        if second.isSome then token .other (some ".") else return none) := by
    refine twins_bind twins_dot fun first => ?_
    cases first with
    | none => exact twins_pure rfl fun _ _ h => h.rel
    | some t =>
      refine twins_bind twins_dot_of_dotted fun second => ?_
      cases second with
      | none => exact hlast none
      | some u => exact hlast (some u)
  refine twins_bind twins_skip fun _ => twins_bind (twins_attempt hdots) fun o => ?_
  cases o with
  | none => exact twins_pure rfl fun _ _ h => h.rel
  | some t => exact twins_pure rfl fun _ _ h => h

variable {arg arg' : Reader (Option Argument)}

theorem offer_argument {attributes attributes' : Reader (List ExtendedAttribute)}
    (h : Steady K (List.map ExtendedAttribute.erase) attributes attributes') :
    Offer K K.rel Argument.erase (argument d attributes) (argument d.plain attributes') := by
  refine offer_attempt (twins_seq (steady_trivia d) fun leading => twins_seq h fun es => ?_)
  refine twins_seq (steady_trivia d) fun after => twins_seq (steady_keyword _) fun optional => ?_
  refine twins_option offer_idlType (fun type => ?_) offer_none
  have hvariadic : Steady K id (if optional then pure false else ellipsis)
      (if optional then pure false else ellipsis) := by
    cases optional with
    | true => exact steady_pure rfl
    | false => exact steady_ellipsis
  have hdefault : Steady K (Option.map id) (if optional then defaultValue else pure none)
      (if optional then defaultValue else pure none) := by
    cases optional with
    | true => exact steady_of_offer offer_defaultValue
    | false => exact steady_pure rfl
  refine twins_choice hvariadic fun variadic => ?_
  refine twins_option offer_identifier (fun name => ?_) offer_none
  refine twins_choice hdefault fun default => twins_seq (steady_trivia d) fun trailing => ?_
  exact offer_some (by rw [Argument.erase_eq, Option.map_id]; rfl)

theorem offer_argumentsWith [Productive arg] [Productive arg']
    (h : Offer K K.rel Argument.erase arg arg') :
    Offer K K.rel (List.map Argument.erase) (argumentsWith arg) (argumentsWith arg') :=
  offer_commaSeparated h (twins_expect h)

theorem offer_typePair : Offer K K.rel id typePair typePair := by
  refine offer_attempt (twins_option offer_idlType (fun key => ?_) offer_none)
  refine twins_seq (steady_symbol (by decide)) fun comma => offer_ite ?_
  refine twins_bind offer_idlType fun o => ?_
  cases o with
  | none => exact twins_pure rfl fun _ _ h => h
  | some value => exact twins_pure rfl fun _ _ h => h

theorem steady_moreNames : Steady K (List.map id) moreNames moreNames :=
  steady_afterCommas steady_expectIdentifier

theorem steady_nameList : Steady K id nameList nameList := by
  refine twins_bind offer_identifier fun o => ?_
  have hrest : Twins K K.rel (fun _ => K.rel) id
      (do return o.toList ++ (← moreNames)) (do return o.toList ++ (← moreNames)) :=
    twins_seq steady_moreNames fun names => steady_pure (by simp)
  cases o with
  | none => exact hrest
  | some name => exact hrest

theorem steady_attributeValue : Steady K id attributeValue attributeValue := by
  refine twins_seq (steady_symbol (by decide)) fun assigned => ?_
  cases assigned with
  | false => exact steady_pure rfl
  | true =>
    refine twins_option offer_identifier (fun name => steady_pure rfl) ?_
    refine twins_seq (steady_symbol (by decide)) fun opened => ?_
    cases opened with
    | false => exact twins_fail
    | true =>
      refine twins_seq steady_nameList fun names => ?_
      exact twins_seq (steady_expectSymbol (by decide)) fun _ => steady_pure rfl

/-- The parameters of an attribute without their trivia. -/
def erasedParameters (p : AttributeParameters) : AttributeParameters :=
  p.map (fun _ => []) id

theorem steady_attributeParameters [Productive arg] [Productive arg']
    (h : Offer K K.rel Argument.erase arg arg') :
    Steady K erasedParameters (attributeParameters arg) (attributeParameters arg') := by
  refine twins_seq (steady_symbol (by decide)) fun opened => ?_
  cases opened with
  | false => exact steady_pure rfl
  | true =>
    refine twins_option (?_ : Offer K K.rel erasedParameters _ _) (fun parameters => ?_) ?_
    · refine offer_firstOf_cons (offer_mapped (offer_argumentsWith h) fun as => ?_)
        (offer_firstOf_cons (offer_mapped offer_typePair fun _ => rfl) offer_firstOf_nil)
      rw [erasedParameters, AttributeParameters.map, Argument.mapAll_eq]
      rfl
    · exact twins_seq (steady_expectSymbol (by decide)) fun _ => steady_pure rfl
    · exact twins_seq (steady_expectSymbol (by decide)) fun _ => steady_pure rfl

theorem offer_extendedAttribute [Productive arg] [Productive arg']
    (h : Offer K K.rel Argument.erase arg arg') :
    Offer K K.rel ExtendedAttribute.erase (extendedAttribute arg) (extendedAttribute arg') := by
  refine twins_option offer_identifier (fun name => ?_) offer_none
  refine twins_seq steady_attributeValue fun value => ?_
  exact twins_seq (steady_attributeParameters h) fun parameters => offer_some rfl

theorem steady_extendedAttributesWith [Productive arg] [Productive arg']
    (h : Offer K K.rel Argument.erase arg arg') :
    Steady K (List.map ExtendedAttribute.erase) (extendedAttributesWith arg)
      (extendedAttributesWith arg') := by
  refine twins_seq (steady_symbol (by decide)) fun opened => ?_
  cases opened with
  | false => exact steady_pure rfl
  | true =>
    have hattribute := offer_extendedAttribute h
    refine twins_seq (twins_expect hattribute) fun first => ?_
    refine twins_seq (steady_afterCommas (twins_expect hattribute)) fun others => ?_
    exact twins_seq (steady_expectSymbol (by decide)) fun _ => steady_pure rfl

theorem steady_extendedAttributesWithin (d : Dialect) (n : Nat) :
    Steady K (List.map ExtendedAttribute.erase) (extendedAttributesWithin d n)
      (extendedAttributesWithin d.plain n) := by
  induction n with
  | zero => exact steady_pure rfl
  | succ n ih => exact steady_extendedAttributesWith (offer_argument ih)

theorem steady_extendedAttributes (d : Dialect) :
    Steady K (List.map ExtendedAttribute.erase) (extendedAttributes d)
      (extendedAttributes d.plain) :=
  twins_bounded (stable_extendedAttributesWithin d) (stable_extendedAttributesWithin d.plain)
    (steady_extendedAttributesWithin d)

theorem steady_argumentList (d : Dialect) :
    Steady K (List.map Argument.erase) (argumentList d) (argumentList d.plain) := by
  have hargument := @offer_argument K d _ _ (steady_extendedAttributes d)
  refine twins_option (offer_argumentsWith hargument) (fun as => ?_) ?_
  · exact steady_pure rfl
  · exact steady_pure rfl

end Attributes

end WebIdl.Grammar

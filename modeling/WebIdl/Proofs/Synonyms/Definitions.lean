import WebIdl.Proofs.Synonyms.Enumerations

/-!
# Definitions over forked lists

The first run may belong to a dialect without the word `extends`, and the second one to a dialect
that has it; else the dialects are the same. What is inside of a definition does not depend on that
word. In the head of a definition a base is found in both runs, and where the first run finds none
but the second one would, the brace that has to follow is missing in the first run.
-/

namespace WebIdl

/-- The dialect, with the word `extends` if `e` is set. -/
def Dialect.extending (d : Dialect) (e : Bool) : Dialect :=
  { d with allowExtends := d.allowExtends || e }

namespace Grammar

open Token Cursor

variable {d d' : Dialect} {e : Bool} {c c' : Cursor} {α β : Type}

set_option synthInstance.maxSize 1024

section Dialects

theorem trivia_extending (d : Dialect) (e : Bool) :
    (trivia (d.extending e) : Reader _) = trivia d :=
  rfl

theorem extendedAttributes_extending (d : Dialect) (e : Bool) :
    (extendedAttributes (d.extending e) : Reader _) = extendedAttributes d := by
  have hwithin (n : Nat) : (extendedAttributesWithin (d.extending e) n : Reader _) =
      extendedAttributesWithin d n := by
    induction n with
    | zero => rfl
    | succ n ih =>
      rw [extendedAttributesWithin, extendedAttributesWithin, ih]
      rfl
  rw [extendedAttributes, extendedAttributes, funext hwithin]

theorem argumentList_extending (d : Dialect) (e : Bool) :
    (argumentList (d.extending e) : Reader _) = argumentList d := by
  rw [argumentList, argumentList, extendedAttributes_extending]
  rfl

theorem operationRest_extending (d : Dialect) (e : Bool) :
    (operationRest (d.extending e) : Reader _) = operationRest d := by
  rw [operationRest, operationRest, argumentList_extending]

theorem callbackRest_extending (d : Dialect) (e : Bool) :
    (callbackRest (d.extending e) : Reader _) = callbackRest d := by
  rw [callbackRest, callbackRest, argumentList_extending]

theorem typedef_extending (d : Dialect) (e : Bool) :
    (typedef (d.extending e) : Reader _) = typedef d := by
  rw [typedef, typedef, extendedAttributes_extending]
  rfl

theorem interfaceMember_extending (d : Dialect) (e : Bool) :
    (interfaceMember (d.extending e) : Reader _) = interfaceMember d := by
  simp only [interfaceMember, nestedTypedef, serializer, operation, markedOperation, stringifierRest,
    plainOperation, typedef_extending, operationRest_extending]
  rfl

theorem member_extending (d : Dialect) (e : Bool) (kind : Reader MemberKind) :
    member (d.extending e) kind = member d kind := by
  funext leading
  rw [member, member, extendedAttributes_extending]
  rfl

end Dialects

section Attributes

instance guided_bracket {r s : Reader α} [hr : ∀ S, Shuts S r] [hs : Guided d s s] :
    Guided d (symbol "[" >>= fun opened => if opened then r else s)
      (symbol "[" >>= fun opened => if opened then r else s) := by
  have hopen : Guided d (symbol "[" : Reader Bool) (symbol "[") := guided_symbol_of_ne (by decide)
  have hshut : Guided d r r := guided_of_moves hr rfl
  infer_instance

instance guided_extendedAttributes (d' : Dialect) :
    Guided d (extendedAttributes d' : Reader _) (extendedAttributes d') := by
  apply guided_bounded (stable_extendedAttributesWithin d') (stable_extendedAttributesWithin d')
  intro n
  cases n with
  | zero => exact guided_pure []
  | succ n =>
    unfold extendedAttributesWithin extendedAttributesWith
    infer_instance

end Attributes

section Heads

/-- A base is found in both runs, unless the first run stands in front of the word `extends`. -/
class Heading (d : Dialect) (i i' : Reader (Option String)) : Prop where
  leads : ∀ c c', Forked d c c' → Answers c i fun o c1 =>
    c1.ahead.head? = some (word "extends") ∨ ∃ c1', i' c' = .ok (o, c1') ∧ Forked d c1 c1'

instance heading_none : Heading d (pure none) (pure none) :=
  ⟨fun _ c' hc => answers_pure (.inr ⟨c', rfl, hc⟩)⟩

/-- The word is found in both runs or in neither, or it comes next and the first run leaves it. -/
theorem answers_extendsKeyword (hc : Facing (d.extending e) c c') :
    Answers c (extendsKeyword d) fun found c1 =>
      c.ahead.head? = some (word "extends") ∧ found = false ∧ c1 = c ∨
      ∃ c1', (extendsKeyword (d.extending e) : Reader _) c' = .ok (found, c1') ∧
        Forked (d.extending e) c1 c1' := by
  cases hd : d.allowExtends with
  | true =>
    have hkeyword : (extendsKeyword d : Reader _) = keyword "extends" := if_pos hd
    have hkeyword' : (extendsKeyword (d.extending e) : Reader _) = keyword "extends" :=
      if_pos (by simp [Dialect.extending, hd])
    rw [hkeyword, hkeyword']
    intro found c1 hrun
    obtain ⟨c1', hrun', h1⟩ := follows_abreast_keyword "extends" c c' hc.abreast found c1 hrun
    refine .inr ⟨c1', hrun', ?_⟩
    cases found with
    | true => exact h1
    | false => exact h1.forked
  | false =>
    have hkeyword : (extendsKeyword d : Reader _) = pure false := if_neg (by simp [hd])
    rw [hkeyword]
    apply answers_pure
    cases e with
    | false =>
      have hkeyword' : (extendsKeyword (d.extending false) : Reader _) = pure false :=
        if_neg (by simp [Dialect.extending, hd])
      rw [hkeyword']
      exact .inr ⟨c', rfl, hc.forked⟩
    | true =>
      have hkeyword' : (extendsKeyword (d.extending true) : Reader _) = keyword "extends" :=
        if_pos (by simp [Dialect.extending])
      rw [hkeyword']
      rcases keyword_cases "extends" c' with hnext | hrun'
      · rw [← hc.abreast.2, head?_after_skip] at hnext
        exact .inl ⟨hnext, rfl, rfl⟩
      · refine .inr ⟨c'.skip, hrun', ?_⟩
        rw [Forked, show c'.skip.after = c'.after from hc.right]
        exact hc.forked

theorem answers_inheritance_abreast (hc : Abreast (d.extending e) c c') :
    Answers c (inheritance d) fun o c1 => c1.ahead.head? = some (word "extends") ∨
      ∃ c1', (inheritance (d.extending e) : Reader _) c' = .ok (o, c1') ∧
        Forked (d.extending e) c1 c1' := by
  apply answers_bind
  intro colon c1 hcolon
  obtain ⟨c1', hcolon', h1⟩ := follows_abreast_symbol ":" c c' hc colon c1 hcolon
  unfold inheritance
  rw [run_bind_of_ok hcolon']
  cases colon with
  | true =>
    apply answers_bind
    intro name c2 hname
    obtain ⟨c2', hname', h2⟩ := follows_forked_expectIdentifier .noBase c1 c1' h1 name c2 hname
    exact answers_pure (.inr ⟨c2', run_bind_of_ok hname', h2⟩)
  | false =>
    apply answers_bind
    intro found c2 hfound
    rcases answers_extendsKeyword (show Facing _ c1 c1' from h1) found c2 hfound with
      ⟨hnext, rfl, rfl⟩ | ⟨c2', hfound', h2⟩
    · exact answers_pure (.inl hnext)
    · simp only [Bool.false_eq_true, if_false]
      rw [run_bind_of_ok hfound']
      cases found with
      | false => exact answers_pure (.inr ⟨c2', rfl, h2⟩)
      | true =>
        apply answers_bind
        intro name c3 hname
        obtain ⟨c3', hname', h3⟩ := follows_forked_expectIdentifier .noBase c2 c2' h2 name c3 hname
        exact answers_pure (.inr ⟨c3', run_bind_of_ok hname', h3⟩)

/-- The first run reads the `:` and the second one the word, and the base is the same. -/
theorem answers_inheritance_parting (hc : Parting (d.extending e) c c') :
    Answers c (inheritance d) fun o c1 =>
      ∃ c1', (inheritance (d.extending e) : Reader _) c' = .ok (o, c1') ∧
        Forked (d.extending e) c1 c1' := by
  obtain ⟨hd, w, rest, hw, hafter, hafter'⟩ := hc
  have hcolon : (symbol ":" : Reader _) c = .ok (true, c.skip.next (mark ":") rest) :=
    symbol_of_mark hafter
  have hcolon' : (symbol ":" : Reader _) c' = .ok (false, c'.skip) :=
    symbol_of_kind hafter' (by decide)
  have hextends' : (extendsKeyword (d.extending e) : Reader _) c'.skip =
      .ok (true, c'.skip.next (word "extends") (w :: rest)) := by
    rw [extendsKeyword, if_pos hd, keyword_of_word (by rwa [skip_skip]), skip_skip]
  have hbase : Abreast (d.extending e) (c.skip.next (mark ":") rest)
      (c'.skip.next (word "extends") (w :: rest)) :=
    abreast_of_core_eq (core_cons_of_blank hw).symm
  unfold inheritance
  rw [Answers, run_bind_of_ok hcolon, run_bind_of_ok hcolon']
  simp only [if_true, Bool.false_eq_true, if_false]
  rw [run_bind_of_ok hextends']
  apply answers_bind
  intro name c2 hname
  obtain ⟨c2', hname', h2⟩ := follows_abreast_expectIdentifier .noBase _ _ hbase name c2 hname
  exact answers_pure ⟨c2', run_bind_of_ok hname', h2⟩

instance heading_inheritance :
    Heading (d.extending e) (inheritance d) (inheritance (d.extending e)) := by
  constructor
  intro c c' hc
  rcases hc.abreast_or with habreast | hparting
  · exact answers_inheritance_abreast habreast
  · exact fun o c1 hrun => .inr (answers_inheritance_parting hparting o c1 hrun)

instance heading_inheritanceUnless (isPartial : Bool) :
    Heading (d.extending e) (inheritanceUnless isPartial d)
      (inheritanceUnless isPartial (d.extending e)) := by
  cases isPartial with
  | true => exact heading_none
  | false => exact heading_inheritance

/-- In front of a word there is no brace. -/
theorem not_answers_brace {w m : String} {reason : Reason} (hc : c.ahead.head? = some (word w)) :
    Answers c (expectSymbol m reason) fun _ _ => False := by
  rw [← head?_after_skip] at hc
  obtain ⟨rest, hafter⟩ := List.head?_eq_some_iff.mp hc
  rw [expectSymbol, Answers, run_bind_of_ok (symbol_of_kind hafter (by simp [word]))]
  exact answers_fail

/-- The head of a definition, and what stands in its braces. -/
instance (priority := high) guided_head {r s : Reason} {i i' : Reader (Option String)}
    {g g' : String → Option String → Unit → Reader β} [hi : Heading d i i']
    [hg : ∀ name base u, Guided d (g name base u) (g' name base u)] :
    Guided d
      (expectIdentifier r >>= fun name => i >>= fun base => expectSymbol "\x7b" s >>= g name base)
      (expectIdentifier r >>= fun name => i' >>= fun base =>
        expectSymbol "\x7b" s >>= g' name base) := by
  constructor
  · intro c c' hc
    apply answers_bind
    intro name c1 hname
    obtain ⟨c1', hname', h1⟩ := follows_forked_expectIdentifier r c c' hc name c1 hname
    rw [run_bind_of_ok hname']
    apply answers_bind
    intro base c2 hbase
    rcases hi.leads c1 c1' h1 base c2 hbase with hextends | ⟨c2', hbase', h2⟩
    · apply answers_bind
      exact fun u c3 hbrace => (not_answers_brace hextends u c3 hbrace).elim
    · rw [run_bind_of_ok hbase']
      have hrest : Guided d (expectSymbol "\x7b" s >>= g name base)
          (expectSymbol "\x7b" s >>= g' name base) := inferInstance
      exact hrest.leads c2 c2' h2
  · intro c hc
    apply answers_bind
    exact fun name c1 hname => (not_answers_expectIdentifier hc name c1 hname).elim

end Heads

section Definitions

instance guided_body {entry entry' : List Trivia → Reader α}
    [∀ leading, Consuming (entry leading)] [∀ leading, Consuming (entry' leading)]
    [∀ leading, Guided d' (entry leading) (entry' leading)] :
    Guided d' (body d entry) (body (d.extending e) entry') := by
  have hround : Guided d' (bodyRound d entry) (bodyRound d entry') := by
    unfold bodyRound
    infer_instance
  show Guided d' (bounded (untilWithin (bodyRound d entry)))
    (bounded (untilWithin (bodyRound d entry')))
  apply guided_bounded (stable_untilWithin gains_bodyRound) (stable_untilWithin gains_bodyRound)
  exact fun n => guided_untilWithin n

instance guided_interfaceRest (isPartial : Bool) :
    Guided (d.extending e) (interfaceRest d isPartial : Reader _)
      (interfaceRest (d.extending e) isPartial) := by
  unfold interfaceRest
  rw [interfaceMember_extending, member_extending]
  infer_instance

instance guided_classKeyword :
    Guided d' (classKeyword d : Reader _) (classKeyword (d.extending e)) := by
  show Guided d' (classKeyword d : Reader _) (classKeyword d)
  unfold classKeyword
  infer_instance

instance guided_interface (isPartial : Bool) :
    Guided (d.extending e) (interface d isPartial : Reader _)
      (interface (d.extending e) isPartial) := by
  unfold interface
  infer_instance

instance guided_callback :
    Guided (d.extending e) (callback d : Reader _) (callback (d.extending e)) := by
  unfold callback
  rw [callbackRest_extending]
  infer_instance

instance guided_dictionary (isPartial : Bool) :
    Guided (d.extending e) (dictionary d isPartial : Reader _)
      (dictionary (d.extending e) isPartial) := by
  unfold dictionary
  rw [member_extending]
  infer_instance

instance guided_partialDefinition :
    Guided (d.extending e) (partialDefinition d : Reader _)
      (partialDefinition (d.extending e)) := by
  unfold partialDefinition
  infer_instance

instance guided_exception :
    Guided (d.extending e) (exception d : Reader _) (exception (d.extending e)) := by
  unfold exception
  rw [member_extending]
  infer_instance

instance guided_typedef :
    Guided d' (typedef d : Reader _) (typedef (d.extending e)) := by
  rw [typedef_extending, typedef]
  infer_instance

/-- In front of a `:` there is no name to begin with. -/
theorem answers_implements_atColon (hc : AtColon c) :
    Answers c (implements : Reader _) fun _ c1 => AtColon c1 := by
  apply answers_attempt
  apply answers_bind
  intro o c1 hrun
  obtain ⟨ho, -⟩ := answers_lexeme_atColon (f := Option.map Token.text)
    (colonless_identifier none) hc o c1 hrun
  obtain rfl : o = none := ho
  apply answers_pure
  exact ⟨by simp, fun _ => hc⟩

/-- What follows the first name of an `implements` statement. -/
def implementsRest (target : String) : Reader (Option DefinitionKind) := do
  if ← keyword "implements" then
    let mixin ← expectIdentifier .incompleteImplements
    expectSymbol ";" .unfinishedImplements
    return some (.implements { target, mixin })
  else
    return none

/-- Behind a name both runs find the word `implements` or neither does. -/
theorem follows_implementsRest (target : String) :
    Follows (Forked d) (fun _ => Forked d) (implementsRest target) (implementsRest target) := by
  have hkeyword : Follows (Forked d) (fun _ => Forked d) (keyword "implements")
      (keyword "implements") :=
    follows_forked (f := Option.isSome) (by decide) (colonless_identifier _) (by decide)
  apply follows_bind hkeyword
  intro found
  cases found with
  | false => exact follows_pure fun _ _ h => h
  | true =>
    simp only [if_true]
    exact follows_of_moves (f := fun _ => none) (fun S => inferInstance) rfl

theorem follows_implements :
    Follows (fun c c' => Abreast d c c' ∧ Forked d c c')
      (fun o => o.elim (fun c c' => Abreast d c c' ∧ Forked d c c') fun _ => Forked d)
      implements implements := by
  apply follows_attempt (B := fun _ _ => True)
  apply follows_bind (R := fun o => o.elim (fun _ _ => True) fun _ => Forked d)
  · intro c c' hc
    exact follows_abreast (f := Option.map Token.text) (by decide) (fun _ _ _ h => h)
      (fun _ _ _ => trivial) c c' hc.1
  · intro o
    cases o with
    | none => exact follows_pure fun _ _ h => h
    | some target =>
      apply (follows_implementsRest target).mono
      intro o c c' h
      cases o with
      | none => trivial
      | some k => exact h

instance guided_implements : Guided d (implements : Reader _) implements := by
  constructor
  · intro c c' hc
    rcases hc.abreast_or with habreast | hparting
    · intro o c1 hrun
      obtain ⟨c1', hrun', h1⟩ := follows_implements c c' ⟨habreast, hc⟩ o c1 hrun
      refine .inr ⟨c1', hrun', ?_⟩
      cases o with
      | none => exact h1.2
      | some k => exact h1
    · exact fun o c1 hrun => .inl (answers_implements_atColon hparting.atColon o c1 hrun)
  · exact fun c hc => answers_implements_atColon hc

instance guided_definitionKind :
    Guided (d.extending e) (definitionKind d : Reader _) (definitionKind (d.extending e)) := by
  have henum : Guided (d.extending e) (enum d : Reader _) (enum (d.extending e)) := guided_enum rfl
  unfold definitionKind
  infer_instance

instance guided_programEntry :
    Guided (d.extending e) (programEntry d : Reader _) (programEntry (d.extending e)) := by
  unfold programEntry
  rw [extendedAttributes_extending, trivia_extending]
  infer_instance

end Definitions

end Grammar

end WebIdl

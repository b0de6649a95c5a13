import WebIdl.Proofs.Sound.Parses

/-!
# Dictionaries are tables

Whatever the tokens are, nothing but fields is read into a dictionary.
-/

namespace WebIdl

def DefinitionKind.Tabular : DefinitionKind → Prop
  | .dictionary b => ∀ m ∈ b.members, ∃ f, m.kind = .field f
  | _ => True

namespace Grammar

variable {α : Type} {P : α → Prop} {d : Dialect}

theorem yields_tableField : Yields (fun k => ∃ f, k = MemberKind.field f) dictionaryField := by
  refine yields_seq fun required => yields_seq fun type => yields_seq fun name => ?_
  refine yields_seq fun default => yields_ite yields_fail ?_
  exact yields_seq fun _ => yields_pure ⟨_, rfl⟩

theorem yields_tableMember (leading : List Trivia) :
    Yields (fun m => ∃ f, m.kind = MemberKind.field f) (member d dictionaryField leading) := by
  refine yields_seq fun es => yields_seq fun after => ?_
  exact yields_bind yields_tableField fun kind hkind => yields_pure hkind

theorem tabular_dictionary (isPartial : Bool) :
    Offers DefinitionKind.Tabular (dictionary d isPartial) := by
  rw [dictionary_eq]
  refine yields_seq fun begun => offers_ite (yields_headedBody yields_tableMember ?_)
  rintro name base ms closing - hms _ ⟨⟩
  exact hms

theorem tabular_interface (isPartial : Bool) :
    Offers DefinitionKind.Tabular (interface d isPartial) := by
  refine yields_seq fun isInterface => yields_ite ?_ (yields_seq fun isClass => offers_ite ?_)
  · exact yields_seq fun i => offers_some trivial
  · exact yields_seq fun i => offers_some trivial

theorem tabular_callback : Offers DefinitionKind.Tabular (callback d) := by
  refine yields_seq fun begun => offers_ite (yields_seq fun isInterface => yields_ite ?_ ?_)
  · exact yields_seq fun i => offers_some trivial
  · refine yields_seq fun isClass => yields_ite yields_fail ?_
    exact yields_seq fun c => offers_some trivial

theorem tabular_partialDefinition : Offers DefinitionKind.Tabular (partialDefinition d) := by
  have hkinds : Offers DefinitionKind.Tabular (firstOf [dictionary d true, interface d true]) := by
    apply offers_firstOf
    simpa using ⟨tabular_dictionary true, tabular_interface true⟩
  exact yields_seq fun begun => offers_ite (offers_of_yields (yields_expect hkinds))

theorem tabular_exception : Offers DefinitionKind.Tabular (exception d) := by
  refine yields_seq fun begun => offers_ite (yields_seq fun name => yields_seq fun base => ?_)
  exact yields_seq fun _ => yields_seq fun r => yields_seq fun _ => offers_some trivial

theorem tabular_enum : Offers DefinitionKind.Tabular (enum d) := by
  refine yields_seq fun begun => offers_ite (yields_seq fun name => yields_seq fun _ => ?_)
  exact yields_seq fun r => yields_seq fun _ => offers_some trivial

theorem tabular_implements : Offers DefinitionKind.Tabular implements := by
  refine offers_attempt (yields_seq fun target => ?_)
  cases target with
  | none => exact offers_none
  | some target =>
    refine yields_seq fun begun => offers_ite (yields_seq fun mixin => yields_seq fun _ => ?_)
    exact offers_some trivial

theorem tabular_definitionKind : Offers DefinitionKind.Tabular (definitionKind d) := by
  apply offers_firstOf
  simp only [List.forall_mem_cons, List.not_mem_nil, false_implies, implies_true, and_true]
  have htypedef : Offers (fun _ => True) (typedef d) :=
    (yields_trivial _).mono fun _ _ => by simp
  exact ⟨tabular_callback, tabular_interface false, tabular_partialDefinition,
    tabular_dictionary false, tabular_exception, tabular_enum,
    offers_mapped htypedef fun _ _ => trivial, tabular_implements⟩

theorem tabular_program :
    Yields (fun p : Program => ∀ x ∈ p.definitions, x.kind.Tabular) (program d) := by
  have hentry : Yields (Sum.elim (fun x : Definition => x.kind.Tabular) fun _ => True)
      (programEntry d) := by
    refine yields_seq fun leading => yields_seq fun es => yields_seq fun after => ?_
    refine yields_bind tabular_definitionKind fun o ho => ?_
    cases o with
    | some kind => exact yields_pure (ho kind rfl)
    | none => exact yields_ite (yields_pure trivial) yields_fail
  refine yields_bind (yields_untilDone hentry) fun r hr => yields_seq fun c => ?_
  exact yields_ite (yields_pure hr) yields_fail

end Grammar

/-- The dictionaries of a program hold nothing but fields. -/
theorem tabular_of_parse {d : Dialect} {tokens : List Token} {p : Program}
    (h : parse d tokens = .ok p) : ∀ x ∈ p.definitions, x.kind.Tabular := by
  obtain ⟨c, hrun⟩ := parse_eq_ok_iff.mp h
  exact Grammar.tabular_program _ p c hrun

end WebIdl

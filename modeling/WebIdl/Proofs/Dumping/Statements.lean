import WebIdl.Proofs.Dumping.Phrases

/-!
# Programs as JSON

Members and definitions share one key space with what stands beside them: the tag of the kind, the
attributes and the trivia. No two of these names are the same, so an object tells its tag, the tag
tells the slots, and these tell the rest.
-/

namespace WebIdl

open Json

section Slots

variable {α : Type}

/-- What stands beside the content of a member or of a definition. -/
def annotationSlots (name : String) (extAttrs : List ExtendedAttribute)
    (leading afterAttrs : List Trivia) (tag : String) : Slots :=
  [(name, unlessEmpty (attributesToJson extAttrs)),
    ("leading", unlessEmpty (leading.map Trivia.toJson)),
    ("after_attrs", unlessEmpty (afterAttrs.map Trivia.toJson)), ("type", some (.string tag))]

theorem faithful_optionalName : Faithful fun v : Option String => orNull (v.map .string) :=
  faithful_string.orNull fun _ => nofun

theorem IdlType.toJson_ne_null (t : IdlType) : t.toJson ≠ .null := by
  cases t <;> nofun

theorem faithful_optionalType : Faithful fun v : Option IdlType => orNull (v.map IdlType.toJson) :=
  faithful_idlType.orNull IdlType.toJson_ne_null

theorem IterableKind.keyword_injective : Function.Injective IterableKind.keyword := by
  intro k l h
  cases k <;> cases l <;> first | rfl | exact absurd h (by decide)

theorem IteratorObject.eq_of_rel {a b : IteratorObject}
    (h : Option.Rel Same a.toJson? b.toJson?) : a = b := by
  cases a with
  | absent =>
    cases b with
    | absent => rfl
    | object | named => exact absurd h rel_none_some
  | object =>
    cases b with
    | absent => exact absurd h rel_some_none
    | object => rfl
    | named => exact nomatch rel_some.mp h
  | named name =>
    cases b with
    | absent => exact absurd h rel_some_none
    | object => exact nomatch rel_some.mp h
    | named name' =>
      have hname := sameFields_single_iff.mp (same_object_iff.mp (rel_some.mp h))
      rw [same_string_iff.mp hname.2]

theorem IteratorObject.slotDistinct (a : IteratorObject) : SlotDistinct a.toJson? := by
  cases a with
  | absent => nofun
  | object => exact slotDistinct_some.mpr (.string "object")
  | named name => exact slotDistinct_some.mpr (distinctKeys_single (.string name))

def Typedef.slots (t : Typedef) : Slots :=
  [("typeExtAttrs", unlessEmpty (attributesToJson t.typeExtAttrs)),
    ("after_type_attrs", unlessEmpty (t.afterTypeAttrs.map Trivia.toJson)),
    ("idlType", some t.type.toJson), ("name", some (.string t.name))]

def Const.slots (c : Const) : Slots :=
  [("idlType", some c.type.toJson), ("name", some (.string c.name)),
    ("value", some c.value.toJson)]

def Field.slots (f : Field) : Slots :=
  [("required", some (.bool f.required)), ("idlType", some f.type.toJson),
    ("name", some (.string f.name)), ("default", f.default.map Literal.toJson)]

def Attribute.slots (a : Attribute) : Slots :=
  [("static", some (.bool a.isStatic)), ("stringifier", some (.bool a.stringifier)),
    ("inherit", some (.bool a.inherits)), ("readonly", some (.bool a.readonly)),
    ("idlType", some a.type.toJson), ("name", some (.string a.name))]

def Operation.slots (o : Operation) : Slots :=
  [("getter", some (.bool o.specials.getter)), ("setter", some (.bool o.specials.setter)),
    ("creator", some (.bool o.specials.creator)), ("deleter", some (.bool o.specials.deleter)),
    ("legacycaller", some (.bool o.specials.legacyCaller)), ("static", some (.bool o.isStatic)),
    ("stringifier", some (.bool o.stringifier)),
    ("idlType", some (orNull (o.returnType.map IdlType.toJson))),
    ("name", some (orNull (o.name.map .string))),
    ("arguments", some (.array (argumentsToJson o.arguments)))]

def IteratorMember.slots (i : IteratorMember) : Slots :=
  [("idlType", some i.returnType.toJson), ("iteratorObject", i.object.toJson?)]

namespace Serializer

def form : Serializer → String
  | bare => "bare"
  | named _ => "named"
  | patternMap _ => "pattern-map"
  | patternList _ => "pattern-list"
  | operation .. => "operation"

def slots : Serializer → Slots
  | bare => [("form", some (.string "bare"))]
  | named name => [("form", some (.string "named")), ("name", some (.string name))]
  | patternMap names =>
    [("form", some (.string "pattern-map")), ("names", some (nameList names))]
  | patternList names =>
    [("form", some (.string "pattern-list")), ("names", some (nameList names))]
  | operation returnType name arguments =>
    [("form", some (.string "operation")), ("idlType", some returnType.toJson),
      ("name", some (orNull (name.map .string))),
      ("arguments", some (.array (argumentsToJson arguments)))]

end Serializer

def Iterable.slots (i : Iterable) : Slots :=
  [("kind", some (.string i.kind.keyword)), ("readonly", some (.bool i.readonly)),
    ("idlType", some (.array (typesToJson i.types)))]

def MemberKind.slots : MemberKind → Slots
  | const c => c.slots
  | field f => f.slots
  | .attribute a => a.slots
  | operation o => o.slots
  | iterator i => i.slots
  | serializer s => s.slots
  | iterable i => i.slots
  | typedef t => t.slots

theorem Typedef.fields_eq (t : Typedef) : t.fields = present t.slots := by
  simp [Typedef.fields, Typedef.slots, attributesField, triviaField]

theorem MemberKind.fields_eq (k : MemberKind) : k.fields = present k.slots := by
  match k with
  | .const c => rfl
  | .field f => simp [fields, Field.fields, slots, Field.slots]
  | .attribute a => rfl
  | .operation o => rfl
  | .iterator i => simp [fields, IteratorMember.fields, slots, IteratorMember.slots]
  | .serializer s => cases s <;> rfl
  | .iterable i => rfl
  | .typedef t => exact t.fields_eq

end Slots

section Values

@[simp] theorem sameItems_trivia_iff {ts us : List Trivia} :
    SameItems (ts.map Trivia.toJson) (us.map Trivia.toJson) ↔ ts = us :=
  faithful_trivia.sameItems_iff

@[simp] theorem sameItems_attributes_iff {as bs : List ExtendedAttribute} :
    SameItems (attributesToJson as) (attributesToJson bs) ↔ as = bs :=
  same_array_iff.symm.trans faithful_attributes.same_iff

@[simp] theorem sameItems_arguments_iff {as bs : List Argument} :
    SameItems (argumentsToJson as) (argumentsToJson bs) ↔ as = bs :=
  same_array_iff.symm.trans faithful_arguments.same_iff

@[simp] theorem sameItems_types_iff {ts us : List IdlType} :
    SameItems (typesToJson ts) (typesToJson us) ↔ ts = us :=
  same_array_iff.symm.trans faithful_types.same_iff

@[simp] theorem same_type_iff {t u : IdlType} : Same t.toJson u.toJson ↔ t = u :=
  faithful_idlType.same_iff

@[simp] theorem same_literal_iff {l m : Literal} : Same l.toJson m.toJson ↔ l = m :=
  faithful_literal.same_iff

@[simp] theorem rel_literal_iff {l m : Option Literal} :
    Option.Rel Same (l.map Literal.toJson) (m.map Literal.toJson) ↔ l = m :=
  faithful_literal.rel_map_iff

@[simp] theorem same_nameList_iff {ns ms : List String} :
    Same (nameList ns) (nameList ms) ↔ ns = ms :=
  faithful_nameList.same_iff

@[simp] theorem same_optionalName_iff {n m : Option String} :
    Same (orNull (n.map .string)) (orNull (m.map .string)) ↔ n = m :=
  faithful_optionalName.same_iff

@[simp] theorem same_optionalType_iff {t u : Option IdlType} :
    Same (orNull (t.map IdlType.toJson)) (orNull (u.map IdlType.toJson)) ↔ t = u :=
  faithful_optionalType.same_iff

end Values

section Kinds

/-- Slots of one kind that agree belong to one value. -/
theorem Typedef.eq_of_sameSlots {t u : Typedef} (h : SameSlots t.slots u.slots) : t = u := by
  cases t
  cases u
  simpa [slots] using h

theorem Const.eq_of_sameSlots {c c' : Const} (h : SameSlots c.slots c'.slots) : c = c' := by
  cases c
  cases c'
  simpa [slots] using h

theorem Field.eq_of_sameSlots {f f' : Field} (h : SameSlots f.slots f'.slots) : f = f' := by
  cases f
  cases f'
  simpa [slots] using h

theorem Attribute.eq_of_sameSlots {a a' : Attribute} (h : SameSlots a.slots a'.slots) :
    a = a' := by
  cases a
  cases a'
  simpa [slots] using h

theorem Operation.eq_of_sameSlots {o o' : Operation} (h : SameSlots o.slots o'.slots) :
    o = o' := by
  obtain ⟨⟨getter, setter, creator, deleter, legacyCaller⟩, isStatic, stringifier, type, name,
    args⟩ := o
  obtain ⟨⟨getter', setter', creator', deleter', legacyCaller'⟩, isStatic', stringifier', type',
    name', args'⟩ := o'
  simpa [slots, and_assoc] using h

theorem IteratorMember.eq_of_sameSlots {i i' : IteratorMember} (h : SameSlots i.slots i'.slots) :
    i = i' := by
  obtain ⟨type, target⟩ := i
  obtain ⟨type', target'⟩ := i'
  simp only [slots, List.forall₂_cons, rel_some, same_type_iff] at h
  obtain ⟨rfl, htarget, -⟩ := h
  rw [IteratorObject.eq_of_rel htarget]

theorem Iterable.eq_of_sameSlots {i i' : Iterable} (h : SameSlots i.slots i'.slots) : i = i' := by
  obtain ⟨kind, readonly, types⟩ := i
  obtain ⟨kind', readonly', types'⟩ := i'
  simp only [slots, List.forall₂_cons, rel_some, same_string_iff, same_bool_iff, same_array_iff,
    sameItems_types_iff] at h
  obtain ⟨hkind, rfl, rfl, -⟩ := h
  rw [IterableKind.keyword_injective hkind]

theorem Serializer.eq_of_sameSlots {s s' : Serializer} (h : SameSlots s.slots s'.slots) :
    s = s' := by
  cases s <;> cases s' <;> simp_all [slots]

end Kinds

section Annotations

variable {name tag tag' : String} {as as' : List ExtendedAttribute}
  {leading leading' afterAttrs afterAttrs' : List Trivia} {es es' : Slots}

theorem tag_eq_of_same
    (h : SameFields (present (annotationSlots name as leading afterAttrs tag ++ es))
      (present (annotationSlots name as' leading' afterAttrs' tag' ++ es')))
    (hes : ((annotationSlots name as leading afterAttrs tag ++ es).map Prod.fst).Nodup)
    (hes' : ((annotationSlots name as' leading' afterAttrs' tag' ++ es').map Prod.fst).Nodup) :
    tag = tag' := by
  have htag : Option.Rel Same (some (.string tag)) (some (.string tag')) :=
    h.agree hes hes' (by simp [annotationSlots] : ("type", _) ∈ _) (by simp [annotationSlots])
  simpa using htag

theorem annotation_eq_of_same
    (h : SameFields (present (annotationSlots name as leading afterAttrs tag ++ es))
      (present (annotationSlots name as' leading' afterAttrs' tag' ++ es')))
    (hkeys : es.map Prod.fst = es'.map Prod.fst)
    (hes : ((annotationSlots name as leading afterAttrs tag ++ es).map Prod.fst).Nodup) :
    as = as' ∧ leading = leading' ∧ afterAttrs = afterAttrs' ∧ SameSlots es es' := by
  have hslots := h.sameSlots (by simp [annotationSlots, hkeys]) hes
  simp only [annotationSlots, List.cons_append, List.nil_append, List.forall₂_cons,
    rel_unlessEmpty, rel_some, sameItems_attributes_iff, sameItems_trivia_iff] at hslots
  obtain ⟨has, hleading, hafter, -, hrest⟩ := hslots
  exact ⟨has, hleading, hafter, hrest⟩

theorem slotDistinct_annotationSlots (name : String) (as : List ExtendedAttribute)
    (leading afterAttrs : List Trivia) (tag : String) :
    ∀ e ∈ annotationSlots name as leading afterAttrs tag, SlotDistinct e.2 := by
  have hattrs : SlotDistinct (unlessEmpty (attributesToJson as)) :=
    slotDistinct_unlessEmpty (distinctKeys_of_mem_attributes as)
  simp [annotationSlots, hattrs, DistinctKeys.string, faithful_trivia.slotDistinct_unlessEmpty]

end Annotations

section Members

theorem slotDistinct_typedef (t : Typedef) : ∀ e ∈ t.slots, SlotDistinct e.2 := by
  have hattrs : SlotDistinct (unlessEmpty (attributesToJson t.typeExtAttrs)) :=
    slotDistinct_unlessEmpty (distinctKeys_of_mem_attributes t.typeExtAttrs)
  simp [Typedef.slots, hattrs, DistinctKeys.string, faithful_idlType.distinct,
    faithful_trivia.slotDistinct_unlessEmpty]

theorem slotDistinct_serializer (s : Serializer) : ∀ e ∈ s.slots, SlotDistinct e.2 := by
  cases s <;> simp [Serializer.slots, DistinctKeys.string, faithful_nameList.distinct,
    faithful_idlType.distinct, faithful_arguments.distinct, faithful_optionalName.distinct]

namespace MemberKind

theorem slotDistinct (k : MemberKind) : ∀ e ∈ k.slots, SlotDistinct e.2 := by
  match k with
  | .const c =>
    simp [slots, Const.slots, DistinctKeys.string, faithful_idlType.distinct,
      faithful_literal.distinct]
  | .field f =>
    simp [slots, Field.slots, DistinctKeys.bool, DistinctKeys.string, faithful_idlType.distinct,
      faithful_literal.slotDistinct]
  | .attribute a =>
    simp [slots, Attribute.slots, DistinctKeys.bool, DistinctKeys.string,
      faithful_idlType.distinct]
  | .operation o =>
    simp [slots, Operation.slots, DistinctKeys.bool, faithful_optionalType.distinct,
      faithful_optionalName.distinct, faithful_arguments.distinct]
  | .iterator i =>
    simp [slots, IteratorMember.slots, faithful_idlType.distinct, i.object.slotDistinct]
  | .serializer s => exact slotDistinct_serializer s
  | .iterable i =>
    simp [slots, Iterable.slots, DistinctKeys.bool, DistinctKeys.string, faithful_types.distinct]
  | .typedef t => exact slotDistinct_typedef t

/-- No name of a field of a member is taken twice. -/
theorem nodup_slots (k : MemberKind) (as : List ExtendedAttribute)
    (leading afterAttrs : List Trivia) :
    ((annotationSlots "ext_attrs" as leading afterAttrs k.tag ++ k.slots).map Prod.fst).Nodup := by
  match k with
  | .const c => simp [annotationSlots, slots, Const.slots]
  | .field f => simp [annotationSlots, slots, Field.slots]
  | .attribute a => simp [annotationSlots, slots, Attribute.slots]
  | .operation o => simp [annotationSlots, slots, Operation.slots]
  | .iterator i => simp [annotationSlots, slots, IteratorMember.slots]
  | .serializer s => cases s <;> simp [annotationSlots, slots, Serializer.slots]
  | .iterable i => simp [annotationSlots, slots, Iterable.slots]
  | .typedef t => simp [annotationSlots, slots, Typedef.slots]

variable {k l : MemberKind}

/-- The tag tells which slots there are, where the serializers have one of their own. -/
theorem keys_eq (htag : k.tag = l.tag)
    (hform : ∀ s s', k = .serializer s → l = .serializer s' → s.form = s'.form) :
    k.slots.map Prod.fst = l.slots.map Prod.fst := by
  cases k <;> cases l <;> simp [tag] at htag <;> try rfl
  rename_i s s'
  have hform := hform s s' rfl rfl
  cases s <;> cases s' <;> simp [Serializer.form] at hform <;> rfl

theorem eq_of_sameSlots (htag : k.tag = l.tag) (h : SameSlots k.slots l.slots) : k = l := by
  cases k <;> cases l <;> simp [tag] at htag
  · exact congrArg _ (Const.eq_of_sameSlots h)
  · exact congrArg _ (Field.eq_of_sameSlots h)
  · exact congrArg _ (Attribute.eq_of_sameSlots h)
  · exact congrArg _ (Operation.eq_of_sameSlots h)
  · exact congrArg _ (IteratorMember.eq_of_sameSlots h)
  · exact congrArg _ (Serializer.eq_of_sameSlots h)
  · exact congrArg _ (Iterable.eq_of_sameSlots h)
  · exact congrArg _ (Typedef.eq_of_sameSlots h)

end MemberKind

theorem Serializer.form_mem (s : Serializer) : ("form", some (.string s.form)) ∈ s.slots := by
  cases s <;> simp [slots, form]

namespace Member

def slots (m : Member) : Slots :=
  annotationSlots "ext_attrs" m.extAttrs m.leading m.afterAttrs m.kind.tag ++ m.kind.slots

theorem toJson_eq (m : Member) : m.toJson = .object (present m.slots) := by
  simp [toJson, slots, annotationSlots, MemberKind.fields_eq, attributesField, triviaField]

end Member

theorem faithful_member : Faithful Member.toJson := by
  constructor
  · intro m
    rw [m.toJson_eq]
    apply distinctKeys_present (m.kind.nodup_slots ..)
    exact List.forall_mem_append.mpr ⟨slotDistinct_annotationSlots _ _ _ _ _, m.kind.slotDistinct⟩
  · rintro ⟨as, leading, afterAttrs, k⟩ ⟨as', leading', afterAttrs', l⟩ h
    rw [Member.toJson_eq, Member.toJson_eq, same_object_iff] at h
    have hk := k.nodup_slots as leading afterAttrs
    have hl := l.nodup_slots as' leading' afterAttrs'
    have htag : k.tag = l.tag := tag_eq_of_same h hk hl
    have hform : ∀ s s', k = .serializer s → l = .serializer s' → s.form = s'.form := by
      rintro s s' rfl rfl
      simpa using h.agree hk hl (List.mem_append_right _ s.form_mem)
        (List.mem_append_right _ s'.form_mem)
    obtain ⟨rfl, rfl, rfl, hslots⟩ := annotation_eq_of_same h (MemberKind.keys_eq htag hform) hk
    rw [MemberKind.eq_of_sameSlots htag hslots]

end Members

section Definitions

theorem faithful_members : Faithful fun ms : List Member => .array (ms.map Member.toJson) :=
  faithful_member.array

@[simp] theorem sameItems_members_iff {ms ns : List Member} :
    SameItems (ms.map Member.toJson) (ns.map Member.toJson) ↔ ms = ns :=
  faithful_member.sameItems_iff

def EnumValue.slots (v : EnumValue) : Slots :=
  [("value", some (.string v.value)), ("leading", unlessEmpty (v.leading.map Trivia.toJson)),
    ("trailing", unlessEmpty (v.trailing.map Trivia.toJson))]

theorem EnumValue.toJson_eq (v : EnumValue) : v.toJson = .object (present v.slots) := by
  simp [toJson, slots, triviaField]

theorem faithful_enumValue : Faithful EnumValue.toJson := by
  constructor
  · intro v
    rw [v.toJson_eq]
    apply distinctKeys_present (by simp [EnumValue.slots])
    simp [EnumValue.slots, DistinctKeys.string, faithful_trivia.slotDistinct_unlessEmpty]
  · rintro ⟨value, leading, trailing⟩ ⟨value', leading', trailing'⟩ h
    rw [EnumValue.toJson_eq, EnumValue.toJson_eq, same_object_iff] at h
    have hslots := h.sameSlots rfl (by simp [EnumValue.slots])
    simpa [EnumValue.slots] using hslots

def Interface.slots (i : Interface) : Slots :=
  [("name", some (.string i.name)), ("partial", some (.bool i.isPartial)),
    ("inheritance", some (orNull (i.inheritance.map .string))),
    ("members", some (.array (i.members.map Member.toJson))),
    ("closing", unlessEmpty (i.closing.map Trivia.toJson))]

def Dictionary.slots (d : Dictionary) : Slots :=
  [("name", some (.string d.name)), ("partial", some (.bool d.isPartial)),
    ("inheritance", some (orNull (d.inheritance.map .string))),
    ("members", some (.array (d.members.map Member.toJson))),
    ("closing", unlessEmpty (d.closing.map Trivia.toJson))]

def Exception.slots (e : Exception) : Slots :=
  [("name", some (.string e.name)), ("inheritance", some (orNull (e.inheritance.map .string))),
    ("members", some (.array (e.members.map Member.toJson))),
    ("closing", unlessEmpty (e.closing.map Trivia.toJson))]

def Callback.slots (c : Callback) : Slots :=
  [("name", some (.string c.name)), ("idlType", some c.returnType.toJson),
    ("arguments", some (.array (argumentsToJson c.arguments)))]

def Enum.slots (e : Enum) : Slots :=
  [("name", some (.string e.name)), ("values", some (.array (e.values.map EnumValue.toJson))),
    ("trailing_comma", some (.bool e.trailingComma)),
    ("closing", unlessEmpty (e.closing.map Trivia.toJson))]

def Implements.slots (i : Implements) : Slots :=
  [("target", some (.string i.target)), ("implements", some (.string i.mixin))]

theorem Interface.eq_of_sameSlots {i j : Interface} (h : SameSlots i.slots j.slots) : i = j := by
  cases i
  cases j
  simpa [slots] using h

theorem Dictionary.eq_of_sameSlots {d d' : Dictionary} (h : SameSlots d.slots d'.slots) :
    d = d' := by
  cases d
  cases d'
  simpa [slots] using h

theorem Exception.eq_of_sameSlots {e e' : Exception} (h : SameSlots e.slots e'.slots) :
    e = e' := by
  cases e
  cases e'
  simpa [slots] using h

theorem Callback.eq_of_sameSlots {c c' : Callback} (h : SameSlots c.slots c'.slots) : c = c' := by
  cases c
  cases c'
  simpa [slots] using h

theorem Enum.eq_of_sameSlots {e e' : Enum} (h : SameSlots e.slots e'.slots) : e = e' := by
  cases e
  cases e'
  simpa [slots, faithful_enumValue.sameItems_iff] using h

theorem Implements.eq_of_sameSlots {i j : Implements} (h : SameSlots i.slots j.slots) :
    i = j := by
  cases i
  cases j
  simpa [slots] using h

namespace DefinitionKind

def slots : DefinitionKind → Slots
  | interface i | .class i | callbackInterface i => i.slots
  | callback c => c.slots
  | dictionary d => d.slots
  | exception e => e.slots
  | enum e => e.slots
  | typedef t => t.slots
  | implements i => i.slots

theorem fields_eq (k : DefinitionKind) : k.fields = present k.slots := by
  cases k with
  | interface i | «class» i | callbackInterface i =>
    simp [fields, Interface.fields, slots, Interface.slots, optionalName, membersField,
      triviaField]
  | callback c => rfl
  | dictionary d =>
    simp [fields, Dictionary.fields, slots, Dictionary.slots, optionalName, membersField,
      triviaField]
  | exception e =>
    simp [fields, Exception.fields, slots, Exception.slots, optionalName, membersField,
      triviaField]
  | enum e => simp [fields, Enum.fields, slots, Enum.slots, triviaField]
  | typedef t => exact t.fields_eq
  | implements i => rfl

theorem slotDistinct (k : DefinitionKind) : ∀ e ∈ k.slots, SlotDistinct e.2 := by
  cases k with
  | interface i | «class» i | callbackInterface i =>
    simp [slots, Interface.slots, DistinctKeys.bool, DistinctKeys.string,
      faithful_optionalName.distinct, faithful_members.distinct,
      faithful_trivia.slotDistinct_unlessEmpty]
  | callback c =>
    simp [slots, Callback.slots, DistinctKeys.string, faithful_idlType.distinct,
      faithful_arguments.distinct]
  | dictionary d =>
    simp [slots, Dictionary.slots, DistinctKeys.bool, DistinctKeys.string,
      faithful_optionalName.distinct, faithful_members.distinct,
      faithful_trivia.slotDistinct_unlessEmpty]
  | exception e =>
    simp [slots, Exception.slots, DistinctKeys.string, faithful_optionalName.distinct,
      faithful_members.distinct, faithful_trivia.slotDistinct_unlessEmpty]
  | enum e =>
    simp [slots, Enum.slots, DistinctKeys.bool, DistinctKeys.string,
      faithful_enumValue.array.distinct, faithful_trivia.slotDistinct_unlessEmpty]
  | typedef t => exact slotDistinct_typedef t
  | implements i => simp [slots, Implements.slots, DistinctKeys.string]

/-- No name of a field of a definition is taken twice. -/
theorem nodup_slots (k : DefinitionKind) (as : List ExtendedAttribute)
    (leading afterAttrs : List Trivia) :
    ((annotationSlots "extAttrs" as leading afterAttrs k.tag ++ k.slots).map Prod.fst).Nodup := by
  cases k with
  | interface i | «class» i | callbackInterface i =>
    simp [annotationSlots, slots, Interface.slots]
  | callback c => simp [annotationSlots, slots, Callback.slots]
  | dictionary d => simp [annotationSlots, slots, Dictionary.slots]
  | exception e => simp [annotationSlots, slots, Exception.slots]
  | enum e => simp [annotationSlots, slots, Enum.slots]
  | typedef t => simp [annotationSlots, slots, Typedef.slots]
  | implements i => simp [annotationSlots, slots, Implements.slots]

variable {k l : DefinitionKind}

theorem keys_eq (htag : k.tag = l.tag) : k.slots.map Prod.fst = l.slots.map Prod.fst := by
  cases k <;> cases l <;> simp [tag] at htag <;> rfl

theorem eq_of_sameSlots (htag : k.tag = l.tag) (h : SameSlots k.slots l.slots) : k = l := by
  cases k <;> cases l <;> simp [tag] at htag
  · exact congrArg _ (Interface.eq_of_sameSlots h)
  · exact congrArg _ (Interface.eq_of_sameSlots h)
  · exact congrArg _ (Callback.eq_of_sameSlots h)
  · exact congrArg _ (Interface.eq_of_sameSlots h)
  · exact congrArg _ (Dictionary.eq_of_sameSlots h)
  · exact congrArg _ (Exception.eq_of_sameSlots h)
  · exact congrArg _ (Enum.eq_of_sameSlots h)
  · exact congrArg _ (Typedef.eq_of_sameSlots h)
  · exact congrArg _ (Implements.eq_of_sameSlots h)

end DefinitionKind

namespace Definition

def slots (d : Definition) : Slots :=
  annotationSlots "extAttrs" d.extAttrs d.leading d.afterAttrs d.kind.tag ++ d.kind.slots

theorem toJson_eq (d : Definition) : d.toJson = .object (present d.slots) := by
  simp [toJson, slots, annotationSlots, DefinitionKind.fields_eq, attributesField, triviaField]

end Definition

theorem faithful_definition : Faithful Definition.toJson := by
  constructor
  · intro d
    rw [d.toJson_eq]
    apply distinctKeys_present (d.kind.nodup_slots ..)
    exact List.forall_mem_append.mpr ⟨slotDistinct_annotationSlots _ _ _ _ _, d.kind.slotDistinct⟩
  · rintro ⟨as, leading, afterAttrs, k⟩ ⟨as', leading', afterAttrs', l⟩ h
    rw [Definition.toJson_eq, Definition.toJson_eq, same_object_iff] at h
    have hk := k.nodup_slots as leading afterAttrs
    have htag : k.tag = l.tag := tag_eq_of_same h hk (l.nodup_slots ..)
    obtain ⟨rfl, rfl, rfl, hslots⟩ :=
      annotation_eq_of_same h (DefinitionKind.keys_eq htag) hk
    rw [DefinitionKind.eq_of_sameSlots htag hslots]

end Definitions

namespace Program

def slots (p : Program) : Slots :=
  [("definitions", some (definitionsToJson p.definitions)),
    ("trailing", unlessEmpty (p.trailing.map Trivia.toJson))]

theorem toJson_eq (p : Program) : p.toJson = .object (present p.slots) := by
  simp [toJson, slots, triviaField]

theorem faithful : Faithful toJson := by
  constructor
  · intro p
    rw [p.toJson_eq]
    apply distinctKeys_present (by simp [slots])
    simp [slots, definitionsToJson, faithful_definition.array.distinct,
      faithful_trivia.slotDistinct_unlessEmpty]
  · rintro ⟨definitions, trailing⟩ ⟨definitions', trailing'⟩ h
    rw [toJson_eq, toJson_eq, same_object_iff] at h
    have hslots := h.sameSlots rfl (by simp [slots])
    simpa [slots, definitionsToJson, faithful_definition.sameItems_iff] using hslots

/-- The JSON of a program has no key twice in an object, and programs whose JSON is equal up to the
order of keys are equal. -/
theorem toJson_unambiguous (p : Program) :
    p.toJson.DistinctKeys ∧ ∀ q : Program, Same p.toJson q.toJson ↔ p = q :=
  ⟨faithful.distinct p, fun _ => faithful.same_iff⟩

end Program

end WebIdl

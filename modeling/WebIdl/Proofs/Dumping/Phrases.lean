import WebIdl.Json.Tree
import WebIdl.Proofs.Dumping.KeyOrder

/-!
# Phrases as JSON

The JSON of trivia, values, types, attributes and arguments has distinct keys and leads back to
what it shows. Each object is given by its slots, and the slots that two of them agree on are the
parts of the trees.
-/

namespace WebIdl

open Json

namespace Json

section Variants

variable {name name' : String} {v w : Json}

theorem variant_eq_present (name : String) (v : Json) :
    variant name v = .object (present [("type", some (.string name)), ("value", some v)]) := rfl

@[simp] theorem same_variant_iff :
    Same (variant name v) (variant name' w) ↔ name = name' ∧ Same v w := by
  constructor
  · intro h
    rw [variant_eq_present, variant_eq_present, same_object_iff] at h
    simpa using h.sameSlots rfl (by simp)
  · rintro ⟨rfl, h⟩
    exact .object (.cons (.string name) (.cons h .nil (List.Perm.refl _)) (List.Perm.refl _))

@[simp] theorem sameFields_single_iff :
    SameFields [(name, v)] [(name', w)] ↔ name = name' ∧ Same v w := by
  constructor
  · intro h
    obtain ⟨u, hu, hsame⟩ := h.exists_fellow List.mem_cons_self
    cases List.mem_singleton.mp hu
    exact ⟨rfl, hsame⟩
  · rintro ⟨rfl, h⟩
    exact .cons h .nil (List.Perm.refl _)

@[simp] theorem same_tagged_nil_iff :
    Same (tagged name []) (tagged name' []) ↔ name = name' := by
  rw [tagged, tagged, same_object_iff, sameFields_single_iff, same_string_iff]
  exact and_iff_right rfl

/-- A variant with content is never the same as one without. -/
@[simp] theorem not_same_variant_tagged : ¬Same (variant name v) (tagged name' []) := by
  intro h
  exact absurd (same_object_iff.mp h).length_eq (by simp)

@[simp] theorem not_same_tagged_variant : ¬Same (tagged name' []) (variant name v) := by
  intro h
  exact absurd (same_object_iff.mp h).length_eq (by simp)

theorem distinctKeys_single (h : DistinctKeys v) : DistinctKeys (.object [(name, v)]) :=
  .object (List.nodup_singleton name) (List.forall_mem_singleton.mpr h)

theorem distinctKeys_variant (h : DistinctKeys v) : DistinctKeys (variant name v) := by
  apply DistinctKeys.object
  · simp
  · simpa using ⟨DistinctKeys.string name, h⟩

theorem distinctKeys_tagged_nil (name : String) : DistinctKeys (tagged name []) :=
  distinctKeys_single (.string name)

end Variants

section Lists

variable {α : Type} {f : α → Json}

theorem distinctKeys_array {xs : List α} (h : ∀ x ∈ xs, DistinctKeys (f x)) :
    DistinctKeys (.array (xs.map f)) := by
  apply DistinctKeys.array
  intro j hj
  obtain ⟨x, hx, rfl⟩ := List.mem_map.mp hj
  exact h x hx

theorem Faithful.array (hf : Faithful f) : Faithful fun xs : List α => .array (xs.map f) :=
  ⟨fun _ => distinctKeys_array fun x _ => hf.distinct x,
    fun h => hf.sameItems_iff.mp (same_array_iff.mp h)⟩

theorem Faithful.orNull (hf : Faithful f) (hnull : ∀ x, f x ≠ .null) :
    Faithful fun x : Option α => Json.orNull (x.map f) := by
  constructor
  · intro x
    cases x with
    | none => exact .null
    | some x => exact hf.distinct x
  · intro x y h
    cases x with
    | none =>
      cases y with
      | none => rfl
      | some y => exact absurd (same_null_left_iff.mp h) (hnull y)
    | some x =>
      cases y with
      | none => exact absurd (same_null_right_iff.mp h) (hnull x)
      | some y => rw [hf.inj h]

theorem Faithful.slotDistinct (hf : Faithful f) (x : Option α) : SlotDistinct (x.map f) := by
  cases x with
  | none => nofun
  | some x => exact slotDistinct_some.mpr (hf.distinct x)

theorem Faithful.slotDistinct_unlessEmpty (hf : Faithful f) (xs : List α) :
    SlotDistinct (unlessEmpty (xs.map f)) := by
  apply Json.slotDistinct_unlessEmpty
  intro j hj
  obtain ⟨x, -, rfl⟩ := List.mem_map.mp hj
  exact hf.distinct x

end Lists

theorem faithful_string : Faithful Json.string :=
  ⟨.string, same_string_iff.mp⟩

theorem faithful_bool : Faithful Json.bool :=
  ⟨.bool, same_bool_iff.mp⟩

end Json

theorem faithful_trivia : Faithful Trivia.toJson := by
  constructor
  · intro t
    cases t <;> exact distinctKeys_variant (.string _)
  · intro t u h
    cases t <;> cases u <;> simp_all [Trivia.toJson]

theorem faithful_nameList : Faithful nameList :=
  faithful_string.array

theorem faithful_literal : Faithful Literal.toJson := by
  constructor
  · intro l
    cases l with
    | boolean b => exact distinctKeys_variant (.bool b)
    | null => exact distinctKeys_tagged_nil _
    | infinity negative => exact distinctKeys_variant (distinctKeys_single (.bool negative))
    | nan => exact distinctKeys_tagged_nil _
    | number spelling => exact distinctKeys_variant (.string spelling)
    | string s => exact distinctKeys_variant (.string s)
    | emptySequence => exact distinctKeys_tagged_nil _
  · intro l m h
    cases l <;> cases m <;> simp_all [Literal.toJson]

namespace Primitive

def all : List Primitive :=
  [.integer false .short, .integer false .long, .integer false .longLong, .integer true .short,
    .integer true .long, .integer true .longLong, .float false, .float true, .double false,
    .double true, .boolean, .byte, .octet]

theorem mem_all (p : Primitive) : p ∈ all := by
  cases p with
  | integer unsigned width => cases unsigned <;> cases width <;> decide
  | float unrestricted => cases unrestricted <;> decide
  | double unrestricted => cases unrestricted <;> decide
  | boolean | byte | octet => decide

theorem spelling_injective : Function.Injective spelling := by
  have hnodup : (all.map spelling).Nodup := by decide +kernel
  intro p q h
  exact List.inj_on_of_nodup_map hnodup (mem_all p) (mem_all q) h

end Primitive

section Types

variable {s s' : Suffix} {kind kind' : String} {v w : Json}

/-- The slots of a type: its kind and its suffixes. -/
def Suffix.slots (s : Suffix) (kind : String) (value : Json) : Slots :=
  [("kind", some (.object (present [("kind", some (.string kind)), ("value", some value)]))),
    ("nullable", some (.bool s.nullable)), ("array", some (.array (s.array.map .bool)))]

theorem Suffix.apply_eq (s : Suffix) (kind : String) (value : Json) :
    s.apply kind value = .object (present (s.slots kind value)) := rfl

theorem Suffix.eq_of_same_apply (h : Same (s.apply kind v) (s'.apply kind' w)) :
    s = s' ∧ kind = kind' ∧ Same v w := by
  rw [apply_eq, apply_eq, same_object_iff] at h
  have hslots := h.sameSlots rfl (by simp [slots])
  simp only [slots, List.forall₂_cons, rel_some, same_object_iff, same_bool_iff, same_array_iff,
    faithful_bool.sameItems_iff] at hslots
  obtain ⟨hkind, hnullable, harray, -⟩ := hslots
  have hinner := hkind.sameSlots rfl (by simp)
  simp only [List.forall₂_cons, rel_some, same_string_iff] at hinner
  obtain ⟨hname, hvalue, -⟩ := hinner
  obtain ⟨nullable, array⟩ := s
  obtain ⟨nullable', array'⟩ := s'
  obtain rfl : nullable = nullable' := hnullable
  obtain rfl : array = array' := harray
  exact ⟨rfl, hname, hvalue⟩

theorem Suffix.distinctKeys_apply (h : DistinctKeys v) : DistinctKeys (s.apply kind v) := by
  have hkind : DistinctKeys (.object (present [("kind", some (.string kind)), ("value", some v)])) := by
    apply distinctKeys_present (by simp)
    simpa using ⟨DistinctKeys.string kind, h⟩
  rw [apply_eq]
  apply distinctKeys_present (by simp [slots])
  simpa [slots] using ⟨hkind, DistinctKeys.bool s.nullable,
    distinctKeys_array fun b _ => DistinctKeys.bool b⟩

theorem eq_of_same_generic {name name' : String}
    (h : Same (.object [("name", .string name), ("inner", v)])
      (.object [("name", .string name'), ("inner", w)])) : name = name' ∧ Same v w := by
  have hslots : ∀ n u, Json.object [("name", .string n), ("inner", u)] =
      .object (present [("name", some (.string n)), ("inner", some u)]) := fun _ _ => rfl
  rw [hslots, hslots, same_object_iff] at h
  simpa using h.sameSlots rfl (by simp)

mutual

theorem IdlType.distinctKeys_toJson : (t : IdlType) → DistinctKeys t.toJson
  | .primitive p s => Suffix.distinctKeys_apply (.string p.spelling)
  | .named name s => Suffix.distinctKeys_apply (.string name)
  | .generic name inner s => by
    apply Suffix.distinctKeys_apply
    apply DistinctKeys.object
    · simp
    · simpa using ⟨DistinctKeys.string name, inner.distinctKeys_toJson⟩
  | .union members s => Suffix.distinctKeys_apply (.array (distinctKeys_of_mem_types members))

theorem distinctKeys_of_mem_types : (ts : List IdlType) → ∀ j ∈ typesToJson ts, DistinctKeys j
  | [] => nofun
  | t :: ts => List.forall_mem_cons.mpr ⟨t.distinctKeys_toJson, distinctKeys_of_mem_types ts⟩

end

mutual

theorem IdlType.eq_of_same : (t u : IdlType) → Same t.toJson u.toJson → t = u
  | .primitive p s, u, h => by
    cases u with
    | primitive q s' =>
      obtain ⟨rfl, -, hvalue⟩ := Suffix.eq_of_same_apply h
      rw [Primitive.spelling_injective (same_string_iff.mp hvalue)]
    | named | generic | union => exact absurd (Suffix.eq_of_same_apply h).2.1 (by simp)
  | .named name s, u, h => by
    cases u with
    | named name' s' =>
      obtain ⟨rfl, -, hvalue⟩ := Suffix.eq_of_same_apply h
      rw [same_string_iff.mp hvalue]
    | primitive | generic | union => exact absurd (Suffix.eq_of_same_apply h).2.1 (by simp)
  | .generic name inner s, u, h => by
    cases u with
    | generic name' inner' s' =>
      obtain ⟨rfl, -, hvalue⟩ := Suffix.eq_of_same_apply h
      obtain ⟨rfl, hinner⟩ := eq_of_same_generic hvalue
      rw [IdlType.eq_of_same inner inner' hinner]
    | primitive | named | union => exact absurd (Suffix.eq_of_same_apply h).2.1 (by simp)
  | .union members s, u, h => by
    cases u with
    | union members' s' =>
      obtain ⟨rfl, -, hvalue⟩ := Suffix.eq_of_same_apply h
      rw [types_eq_of_same members members' (same_array_iff.mp hvalue)]
    | primitive | named | generic => exact absurd (Suffix.eq_of_same_apply h).2.1 (by simp)

theorem types_eq_of_same :
    (ts us : List IdlType) → SameItems (typesToJson ts) (typesToJson us) → ts = us
  | [], [], _ => rfl
  | [], _ :: _, h => nomatch h
  | _ :: _, [], h => nomatch h
  | t :: ts, u :: us, h => by
    obtain ⟨hhead, hrest⟩ := sameItems_cons_iff.mp h
    rw [IdlType.eq_of_same t u hhead, types_eq_of_same ts us hrest]

end

theorem faithful_types : Faithful fun ts : List IdlType => .array (typesToJson ts) :=
  ⟨fun ts => .array (distinctKeys_of_mem_types ts),
    fun h => types_eq_of_same _ _ (same_array_iff.mp h)⟩

theorem faithful_idlType : Faithful IdlType.toJson :=
  ⟨IdlType.distinctKeys_toJson, fun {t u} => IdlType.eq_of_same t u⟩

end Types

section Attributes

theorem AttributeValue.eq_of_rel {a b : AttributeValue}
    (h : Option.Rel Same a.toJson? b.toJson?) : a = b := by
  cases a <;> cases b <;> simp_all [toJson?, faithful_nameList.same_iff]

theorem AttributeValue.slotDistinct (a : AttributeValue) : SlotDistinct a.toJson? := by
  cases a with
  | absent => nofun
  | identifier name => exact slotDistinct_some.mpr (distinctKeys_variant (.string name))
  | identifierList names =>
    exact slotDistinct_some.mpr (distinctKeys_variant (faithful_nameList.distinct names))

/-- The slots of an extended attribute. -/
def attributeSlots (name : String) (value parameters : Option Json) : Slots :=
  [("name", some (.string name)), ("rhs", value), ("params", parameters)]

theorem ExtendedAttribute.toJson_eq (name : String) (value : AttributeValue)
    (parameters : AttributeParameters) : ExtendedAttribute.toJson ⟨name, value, parameters⟩ =
      .object (present (attributeSlots name value.toJson? parameters.toJson?)) := by
  simp [ExtendedAttribute.toJson, attributeSlots]

def Argument.slots (a : Argument) : Slots :=
  [("ext_attrs", unlessEmpty (attributesToJson a.extAttrs)), ("optional", some (.bool a.optional)),
    ("variadic", some (.bool a.variadic)), ("idlType", some a.type.toJson),
    ("name", some (.string a.name)), ("default", a.default.map Literal.toJson),
    ("leading", unlessEmpty (a.leading.map Trivia.toJson)),
    ("after_attrs", unlessEmpty (a.afterAttrs.map Trivia.toJson)),
    ("trailing", unlessEmpty (a.trailing.map Trivia.toJson))]

theorem Argument.toJson_eq (a : Argument) : a.toJson = .object (present a.slots) := by
  cases a
  simp [Argument.toJson, Argument.slots, triviaField]

mutual

theorem ExtendedAttribute.eq_of_same :
    (a b : ExtendedAttribute) → Same a.toJson b.toJson → a = b
  | ⟨name, value, parameters⟩, ⟨name', value', parameters'⟩, h => by
    rw [ExtendedAttribute.toJson_eq, ExtendedAttribute.toJson_eq, same_object_iff] at h
    have hslots := h.sameSlots rfl (by simp [attributeSlots])
    simp only [attributeSlots, List.forall₂_cons, rel_some, same_string_iff] at hslots
    obtain ⟨rfl, hvalue, hparameters, -⟩ := hslots
    rw [AttributeValue.eq_of_rel hvalue, AttributeParameters.eq_of_rel _ _ hparameters]

theorem AttributeParameters.eq_of_rel :
    (a b : AttributeParameters) → Option.Rel Same a.toJson? b.toJson? → a = b
  | .absent, b, h => by
    cases b with
    | absent => rfl
    | arguments | typePair => exact absurd h rel_none_some
  | .arguments args, b, h => by
    cases b with
    | absent => exact absurd h rel_some_none
    | arguments args' =>
      obtain ⟨-, hargs⟩ := same_variant_iff.mp (rel_some.mp h)
      rw [arguments_eq_of_same args args' (same_array_iff.mp hargs)]
    | typePair => exact absurd (same_variant_iff.mp (rel_some.mp h)).1 (by simp)
  | .typePair key value, b, h => by
    cases b with
    | absent => exact absurd h rel_some_none
    | arguments => exact absurd (same_variant_iff.mp (rel_some.mp h)).1 (by simp)
    | typePair key' value' =>
      obtain ⟨-, hpair⟩ := same_variant_iff.mp (rel_some.mp h)
      obtain ⟨hkey, hvalue⟩ := sameItems_cons_iff.mp (same_array_iff.mp hpair)
      rw [faithful_idlType.inj hkey, faithful_idlType.inj (sameItems_cons_iff.mp hvalue).1]

theorem Argument.eq_of_same : (a b : Argument) → Same a.toJson b.toJson → a = b
  | ⟨extAttrs, optional, variadic, type, name, default, leading, afterAttrs, trailing⟩, b, h => by
    obtain ⟨extAttrs', optional', variadic', type', name', default', leading', afterAttrs',
      trailing'⟩ := b
    rw [Argument.toJson_eq, Argument.toJson_eq, same_object_iff] at h
    have hslots := h.sameSlots rfl (by simp [Argument.slots])
    simp only [Argument.slots, List.forall₂_cons, rel_some, same_string_iff, same_bool_iff,
      rel_unlessEmpty, faithful_trivia.sameItems_iff, faithful_literal.rel_map_iff,
      faithful_idlType.same_iff] at hslots
    obtain ⟨hattrs, rfl, rfl, rfl, rfl, rfl, rfl, rfl, rfl, -⟩ := hslots
    rw [attributes_eq_of_same extAttrs extAttrs' hattrs]

theorem arguments_eq_of_same :
    (as bs : List Argument) → SameItems (argumentsToJson as) (argumentsToJson bs) → as = bs
  | [], [], _ => rfl
  | [], _ :: _, h => nomatch h
  | _ :: _, [], h => nomatch h
  | a :: as, b :: bs, h => by
    obtain ⟨hhead, hrest⟩ := sameItems_cons_iff.mp h
    rw [Argument.eq_of_same a b hhead, arguments_eq_of_same as bs hrest]

theorem attributes_eq_of_same :
    (as bs : List ExtendedAttribute) →
      SameItems (attributesToJson as) (attributesToJson bs) → as = bs
  | [], [], _ => rfl
  | [], _ :: _, h => nomatch h
  | _ :: _, [], h => nomatch h
  | a :: as, b :: bs, h => by
    obtain ⟨hhead, hrest⟩ := sameItems_cons_iff.mp h
    rw [ExtendedAttribute.eq_of_same a b hhead, attributes_eq_of_same as bs hrest]

end

mutual

theorem ExtendedAttribute.distinctKeys_toJson : (a : ExtendedAttribute) → DistinctKeys a.toJson
  | ⟨name, value, parameters⟩ => by
    rw [ExtendedAttribute.toJson_eq]
    apply distinctKeys_present (by simp [attributeSlots])
    simpa [attributeSlots] using ⟨DistinctKeys.string name, value.slotDistinct,
      AttributeParameters.slotDistinct parameters⟩

theorem AttributeParameters.slotDistinct : (a : AttributeParameters) → SlotDistinct a.toJson?
  | .absent => nofun
  | .arguments args =>
    slotDistinct_some.mpr (distinctKeys_variant (.array (distinctKeys_of_mem_arguments args)))
  | .typePair key value => by
    apply slotDistinct_some.mpr
    apply distinctKeys_variant
    apply DistinctKeys.array
    simpa using ⟨key.distinctKeys_toJson, value.distinctKeys_toJson⟩

theorem Argument.distinctKeys_toJson : (a : Argument) → DistinctKeys a.toJson
  | ⟨extAttrs, optional, variadic, type, name, default, leading, afterAttrs, trailing⟩ => by
    rw [Argument.toJson_eq]
    apply distinctKeys_present (by simp [Argument.slots])
    have hattrs : SlotDistinct (unlessEmpty (attributesToJson extAttrs)) :=
      slotDistinct_unlessEmpty (distinctKeys_of_mem_attributes extAttrs)
    simp [Argument.slots, hattrs, DistinctKeys.bool, DistinctKeys.string,
      faithful_idlType.distinct, faithful_literal.slotDistinct,
      faithful_trivia.slotDistinct_unlessEmpty]

theorem distinctKeys_of_mem_arguments :
    (as : List Argument) → ∀ j ∈ argumentsToJson as, DistinctKeys j
  | [] => nofun
  | a :: as => List.forall_mem_cons.mpr ⟨a.distinctKeys_toJson, distinctKeys_of_mem_arguments as⟩

theorem distinctKeys_of_mem_attributes :
    (as : List ExtendedAttribute) → ∀ j ∈ attributesToJson as, DistinctKeys j
  | [] => nofun
  | a :: as => List.forall_mem_cons.mpr ⟨a.distinctKeys_toJson, distinctKeys_of_mem_attributes as⟩

end

theorem faithful_arguments : Faithful fun as : List Argument => .array (argumentsToJson as) :=
  ⟨fun as => .array (distinctKeys_of_mem_arguments as),
    fun h => arguments_eq_of_same _ _ (same_array_iff.mp h)⟩

theorem faithful_attributes :
    Faithful fun as : List ExtendedAttribute => .array (attributesToJson as) :=
  ⟨fun as => .array (distinctKeys_of_mem_attributes as),
    fun h => attributes_eq_of_same _ _ (same_array_iff.mp h)⟩

end Attributes

end WebIdl

import WebIdl.Proofs.WellFormed

/-!
# Trees without their trivia

Two trees say the same if they are equal once all trivia is erased. Both this erasure and the
changes that a printer makes to the strings inside attributes are maps over the tree.
-/

namespace WebIdl

variable (f : List Trivia → List Trivia) (g : String → String)

def Literal.mapString : Literal → Literal
  | .string s => .string (g s)
  | l => l

mutual

def ExtendedAttribute.map : ExtendedAttribute → ExtendedAttribute
  | ⟨name, value, parameters⟩ => ⟨name, value, parameters.map⟩

def AttributeParameters.map : AttributeParameters → AttributeParameters
  | .absent => .absent
  | .arguments args => .arguments (Argument.mapAll args)
  | .typePair key value => .typePair key value

def Argument.map : Argument → Argument
  | { extAttrs, optional, variadic, type, name, default, leading, afterAttrs, trailing } =>
    { extAttrs := ExtendedAttribute.mapAll extAttrs
      optional, variadic, type, name
      default := default.map (Literal.mapString g)
      leading := f leading
      afterAttrs := f afterAttrs
      trailing := f trailing }

def Argument.mapAll : List Argument → List Argument
  | [] => []
  | a :: as => a.map :: Argument.mapAll as

def ExtendedAttribute.mapAll : List ExtendedAttribute → List ExtendedAttribute
  | [] => []
  | e :: es => e.map :: ExtendedAttribute.mapAll es

end

theorem Argument.mapAll_eq (as : List Argument) : mapAll f g as = as.map (Argument.map f g) := by
  induction as with
  | nil => rfl
  | cons a as ih => rw [mapAll, ih, List.map_cons]

theorem ExtendedAttribute.mapAll_eq (es : List ExtendedAttribute) :
    mapAll f g es = es.map (ExtendedAttribute.map f g) := by
  induction es with
  | nil => rfl
  | cons e es ih => rw [mapAll, ih, List.map_cons]

def ExtendedAttribute.erase (e : ExtendedAttribute) : ExtendedAttribute :=
  e.map (fun _ => []) id

def Argument.erase (a : Argument) : Argument :=
  a.map (fun _ => []) id

def Typedef.erase (t : Typedef) : Typedef :=
  { t with typeExtAttrs := t.typeExtAttrs.map ExtendedAttribute.erase, afterTypeAttrs := [] }

def Operation.erase (o : Operation) : Operation :=
  { o with arguments := o.arguments.map Argument.erase }

def Serializer.erase : Serializer → Serializer
  | .operation returnType name arguments =>
    .operation returnType name (arguments.map Argument.erase)
  | s => s

def MemberKind.erase : MemberKind → MemberKind
  | .operation o => .operation o.erase
  | .serializer s => .serializer s.erase
  | .typedef t => .typedef t.erase
  | kind => kind

def Member.erase (m : Member) : Member where
  extAttrs := m.extAttrs.map ExtendedAttribute.erase
  leading := []
  afterAttrs := []
  kind := m.kind.erase

def Interface.erase (i : Interface) : Interface :=
  { i with members := i.members.map Member.erase, closing := [] }

def Dictionary.erase (b : Dictionary) : Dictionary :=
  { b with members := b.members.map Member.erase, closing := [] }

def Exception.erase (e : Exception) : Exception :=
  { e with members := e.members.map Member.erase, closing := [] }

def Callback.erase (c : Callback) : Callback :=
  { c with arguments := c.arguments.map Argument.erase }

def EnumValue.erase (v : EnumValue) : EnumValue :=
  ⟨v.value, [], []⟩

def Enum.erase (e : Enum) : Enum :=
  { e with values := e.values.map EnumValue.erase, closing := [] }

def DefinitionKind.erase : DefinitionKind → DefinitionKind
  | .interface i => .interface i.erase
  | .class i => .class i.erase
  | .callback c => .callback c.erase
  | .callbackInterface i => .callbackInterface i.erase
  | .dictionary b => .dictionary b.erase
  | .exception e => .exception e.erase
  | .enum e => .enum e.erase
  | .typedef t => .typedef t.erase
  | .implements i => .implements i

def Definition.erase (x : Definition) : Definition where
  extAttrs := x.extAttrs.map ExtendedAttribute.erase
  leading := []
  afterAttrs := []
  kind := x.kind.erase

def Program.erase (p : Program) : Program :=
  ⟨p.definitions.map Definition.erase, []⟩

theorem Literal.mapString_id (l : Literal) : l.mapString id = l := by
  cases l <;> rfl

theorem Argument.erase_eq (a : Argument) :
    a.erase =
      { a with
        extAttrs := a.extAttrs.map ExtendedAttribute.erase
        leading := []
        afterAttrs := []
        trailing := [] } := by
  obtain ⟨extAttrs, optional, variadic, type, name, default, leading, afterAttrs, trailing⟩ := a
  have hdefault : default.map (Literal.mapString id) = default := by
    cases default with
    | none => rfl
    | some l => rw [Option.map_some, Literal.mapString_id]
  rw [erase, map, ExtendedAttribute.mapAll_eq, hdefault]
  rfl

section Trivialess

variable {d : Dialect}

theorem Dialect.Keeps.eq_nil {items : List Trivia} (h : d.Keeps items)
    (hd : d.keepTrivia = false) : items = [] := by
  simpa [Dialect.Keeps, hd] using h

theorem map_eq_self {α : Type} {h : α → α} {xs : List α} (hxs : ∀ x ∈ xs, h x = x) :
    xs.map h = xs := by
  simpa using List.map_congr_left hxs

mutual

theorem ExtendedAttribute.erase_eq_self (hd : d.keepTrivia = false) :
    ∀ {e : ExtendedAttribute}, e.WellFormed d → e.erase = e
  | ⟨name, value, parameters⟩, .intro _ _ hparameters => by
    rw [ExtendedAttribute.erase, ExtendedAttribute.map]
    exact congrArg (ExtendedAttribute.mk name value)
      (AttributeParameters.erase_eq_self hd hparameters)

theorem AttributeParameters.erase_eq_self (hd : d.keepTrivia = false) :
    ∀ {p : AttributeParameters}, p.WellFormed d → p.map (fun _ => []) id = p
  | .absent, _ => rfl
  | .arguments args, .arguments h => by
    rw [AttributeParameters.map, Argument.mapAll_eq]
    exact congrArg _ (map_eq_self fun a ha => Argument.erase_eq_self hd (h a ha))
  | .typePair _ _, _ => rfl

theorem Argument.erase_eq_self (hd : d.keepTrivia = false) :
    ∀ {a : Argument}, a.WellFormed d → a.erase = a
  | ⟨extAttrs, optional, variadic, type, name, default, leading, afterAttrs, trailing⟩,
    .intro hattributes hafter _ hleading htrailing _ _ _ _ _ _ => by
    have hextAttrs : extAttrs.map ExtendedAttribute.erase = extAttrs :=
      map_eq_self fun e he => ExtendedAttribute.erase_eq_self hd (hattributes e he)
    obtain rfl : afterAttrs = [] := hafter.eq_nil hd
    obtain rfl : leading = [] := hleading.eq_nil hd
    obtain rfl : trailing = [] := htrailing.eq_nil hd
    simp only [Argument.erase_eq, hextAttrs]

end

variable (hd : d.keepTrivia = false)
include hd

theorem erase_arguments_eq_self {as : List Argument} (h : ∀ a ∈ as, a.WellFormed d) :
    as.map Argument.erase = as :=
  map_eq_self fun a ha => Argument.erase_eq_self hd (h a ha)

theorem Annotated.erase_eq_self {es : List ExtendedAttribute} {items : List Trivia}
    (h : Annotated d es items) : es.map ExtendedAttribute.erase = es ∧ items = [] :=
  ⟨map_eq_self fun e he => ExtendedAttribute.erase_eq_self hd (h.attributes e he), h.after.eq_nil hd⟩

theorem Typedef.WellFormed.erase_eq_self {t : Typedef} (h : t.WellFormed d) : t.erase = t := by
  obtain ⟨hattributes, hafter⟩ := h.annotated.erase_eq_self hd
  rw [Typedef.erase, hattributes, ← hafter]

theorem Operation.WellFormed.erase_eq_self {o : Operation} (h : o.WellFormed d) :
    o.erase = o := by
  cases h with
  | bare => rfl
  | marked _ h | static h | stringifier h | plain h =>
    rw [Operation.erase, erase_arguments_eq_self hd h.arguments]

theorem Serializer.WellFormed.erase_eq_self {s : Serializer} (h : s.WellFormed d) :
    s.erase = s := by
  cases s with
  | operation type name args => rw [Serializer.erase, erase_arguments_eq_self hd h.arguments]
  | _ => rfl

theorem MemberKind.InInterface.erase_eq_self {k : MemberKind} (h : k.InInterface d) :
    k.erase = k := by
  cases k with
  | operation o => rw [MemberKind.erase, Operation.WellFormed.erase_eq_self hd h]
  | serializer s => rw [MemberKind.erase, Serializer.WellFormed.erase_eq_self hd h]
  | typedef t => rw [MemberKind.erase, Typedef.WellFormed.erase_eq_self hd h.2]
  | _ => rfl

theorem Body.erase_eq_self {P : MemberKind → Prop} (hP : ∀ k, P k → k.erase = k)
    {ms : List Member} {items : List Trivia} (h : Body d P ms items) :
    ms.map Member.erase = ms ∧ items = [] := by
  refine ⟨map_eq_self fun m hm => ?_, h.closing.eq_nil hd⟩
  obtain ⟨extAttrs, leading, afterAttrs, kind⟩ := m
  have hmember := h.members _ hm
  obtain ⟨hattributes, rfl⟩ := hmember.annotated.erase_eq_self hd
  obtain rfl : leading = [] := hmember.leading.eq_nil hd
  simp only [Member.erase, hattributes, hP kind hmember.kind]

theorem Interface.WellFormed.erase_eq_self {i : Interface} (h : i.WellFormed d) :
    i.erase = i := by
  obtain ⟨hmembers, hclosing⟩ :=
    h.body.erase_eq_self hd fun k hk => MemberKind.InInterface.erase_eq_self hd hk
  rw [Interface.erase, hmembers, ← hclosing]

theorem DefinitionKind.WellFormed.erase_eq_self {k : DefinitionKind} (h : k.WellFormed d) :
    k.erase = k := by
  cases k with
  | interface i => rw [DefinitionKind.erase, Interface.WellFormed.erase_eq_self hd h]
  | «class» i => rw [DefinitionKind.erase, Interface.WellFormed.erase_eq_self hd h.2]
  | callback c =>
    rw [DefinitionKind.erase, Callback.erase, erase_arguments_eq_self hd h.signature.arguments]
  | callbackInterface i => rw [DefinitionKind.erase, Interface.WellFormed.erase_eq_self hd h.2]
  | dictionary b =>
    obtain ⟨hmembers, hclosing⟩ := h.body.erase_eq_self hd fun k hk => by cases k <;> trivial
    rw [DefinitionKind.erase, Dictionary.erase, hmembers, ← hclosing]
  | exception e =>
    obtain ⟨hmembers, hclosing⟩ := h.body.erase_eq_self hd fun k hk => by cases k <;> trivial
    rw [DefinitionKind.erase, Exception.erase, hmembers, ← hclosing]
  | enum e =>
    have hvalues : e.values.map EnumValue.erase = e.values := map_eq_self fun v hv => by
      obtain ⟨value, leading, trailing⟩ := v
      obtain rfl : leading = [] := (h.values _ hv).leading.eq_nil hd
      obtain rfl : trailing = [] := (h.values _ hv).trailing.eq_nil hd
      rfl
    rw [DefinitionKind.erase, Enum.erase, hvalues, ← h.closing.eq_nil hd]
  | typedef t => rw [DefinitionKind.erase, Typedef.WellFormed.erase_eq_self hd h]
  | implements i => rfl

theorem Definition.WellFormed.erase_eq_self {x : Definition} (h : x.WellFormed d) :
    x.erase = x := by
  obtain ⟨extAttrs, leading, afterAttrs, kind⟩ := x
  obtain ⟨hattributes, rfl⟩ := h.annotated.erase_eq_self hd
  obtain rfl : leading = [] := h.leading.eq_nil hd
  simp only [Definition.erase, hattributes, h.kind.erase_eq_self hd]

/-- Where no trivia is kept, there is none to erase. -/
theorem Program.WellFormed.erase_eq_self {p : Program} (h : p.WellFormed d) : p.erase = p := by
  have hdefinitions : p.definitions.map Definition.erase = p.definitions :=
    map_eq_self fun x hx => (h.definitions x hx).erase_eq_self hd
  have htrailing : p.trailing = [] := by simpa [hd] using h.trailing
  rw [Program.erase, hdefinitions, ← htrailing]

end Trivialess

end WebIdl

import WebIdl.Merge
import WebIdl.Proofs.RoundTrip

/-!
# Merged programs

Partial definitions are matched with their targets by name alone, so the members of one may end up
in a body that cannot hold them. They do not if every partial fits the definition it is folded
into, and then the merged program is well-formed and is parsed from what is written of it.
-/

namespace WebIdl

open Token Spelling

variable {d : Dialect}

/-- The members of a definition, if it has any. -/
def Definition.body (x : Definition) : List Member :=
  x.members?.getD []

/-- Whether the body of a definition may hold a member: all but fields in interfaces, nothing else
in dictionaries, and constants and fields with a type and a name in exceptions. A type named `const`
would turn a field of an exception into a constant. -/
def DefinitionKind.takes : DefinitionKind → MemberKind → Bool
  | .interface _, .field _ | .class _, .field _ | .callbackInterface _, .field _ => false
  | .interface _, _ | .class _, _ | .callbackInterface _, _ => true
  | .dictionary _, .field _ => true
  | .exception _, .const _ => true
  | .exception _, .field f => !f.required && f.default.isNone && !decide (Begins ["const"] (ofType f.type))
  | _, _ => false

/-- The members are such as the body of the definition may hold. -/
def Definition.Takes (x : Definition) (ms : List Member) : Prop :=
  ∀ m ∈ ms, x.kind.takes m.kind

instance (x : Definition) (ms : List Member) : Decidable (x.Takes ms) :=
  inferInstanceAs (Decidable (∀ m ∈ ms, x.kind.takes m.kind))

/-- The definition among the earlier ones that takes in the members of a partial one. -/
def target? (before : List Definition) (name : String) : Option Definition :=
  (before.filter fun y => !y.isPartial).find? (Merged.isTarget name)

/-- Each partial definition brings members that its target may hold, if it has a target. -/
def Fitting (before : List Definition) : List Definition → Prop
  | [] => True
  | x :: xs =>
    (x.isPartial → ∀ y ∈ target? before x.name, y.Takes x.body) ∧ Fitting (before ++ [x]) xs

instance decidableFitting (before : List Definition) :
    (xs : List Definition) → Decidable (Fitting before xs)
  | [] => isTrue trivial
  | x :: xs =>
    have := decidableFitting (before ++ [x]) xs
    inferInstanceAs (Decidable (_ ∧ _))

/-- What a member of a well-formed definition of some kind looks like. -/
def DefinitionKind.Admits (d : Dialect) : DefinitionKind → MemberKind → Prop
  | .interface _ | .class _ | .callbackInterface _ => MemberKind.InInterface d
  | .dictionary _ => MemberKind.InDictionary
  | .exception _ => MemberKind.InException
  | _ => fun _ => False

theorem DefinitionKind.Admits.takes {k : DefinitionKind} {m : MemberKind} (h : k.Admits d m) :
    k.takes m := by
  cases k with
  | interface _ | «class» _ | callbackInterface _ =>
    cases m with
    | field f => exact h.elim
    | _ => rfl
  | dictionary _ =>
    cases m with
    | field f => rfl
    | _ => exact h.elim
  | exception _ =>
    cases m with
    | const c => rfl
    | field f =>
      obtain ⟨-, -, -, hoptional, hdefault, hconst⟩ := h
      simp [DefinitionKind.takes, hoptional, hdefault, hconst]
    | _ => exact h.elim
  | _ => exact h.elim

/-- A member of a partial definition may stand in every body that can hold its kind. -/
theorem Definition.admits_of_takes {x : Definition} {k : DefinitionKind} {m : MemberKind}
    (hx : x.isPartial) (hm : x.kind.Admits d m) (hk : k.takes m) : k.Admits d m := by
  obtain ⟨extAttrs, leading, afterAttrs, kind⟩ := x
  have hinterface : k.takes m → MemberKind.InInterface d m → k.Admits d m := by
    intro hk hm
    cases k with
    | interface _ | «class» _ | callbackInterface _ => exact hm
    | dictionary _ | exception _ =>
      cases m with
      | const c => first | exact hm | simp [DefinitionKind.takes] at hk
      | field f => exact hm.elim
      | _ => simp [DefinitionKind.takes] at hk
    | _ => simp [DefinitionKind.takes] at hk
  cases kind with
  | interface _ | «class» _ => exact hinterface hk hm
  | dictionary _ =>
    cases m with
    | field f =>
      have hfield : f.WellFormed := hm
      cases k with
      | dictionary _ => exact hfield
      | exception _ =>
        simp only [DefinitionKind.takes, Bool.and_eq_true, Bool.not_eq_true', Option.isNone_iff_eq_none,
          decide_eq_false_iff_not] at hk
        exact ⟨hfield.type, hfield.name, hfield.apart, hk.1.1, hk.1.2, hk.2⟩
      | _ => simp [DefinitionKind.takes] at hk
    | _ => exact hm.elim
  | _ => simp [Definition.isPartial] at hx

theorem Definition.WellFormed.body {x : Definition} (h : x.WellFormed d) :
    ∀ m ∈ x.body, m.WellFormed d (x.kind.Admits d) := by
  obtain ⟨extAttrs, leading, afterAttrs, kind⟩ := x
  have hkind := h.kind
  cases kind with
  | interface i => exact hkind.body.members
  | «class» i | callbackInterface i => exact hkind.2.body.members
  | dictionary b => exact hkind.body.members
  | exception e => exact hkind.body.members
  | _ => simp [Definition.body, Definition.members?]

theorem Definition.WellFormed.takes_body {x : Definition} (h : x.WellFormed d) :
    x.Takes x.body :=
  fun m hm => (h.body m hm).kind.takes

/-- A definition stays well-formed if all members that are added to it fit its kind. -/
theorem Definition.WellFormed.addMembers {x : Definition} {more : List Member}
    (h : x.WellFormed d) (hmore : ∀ m ∈ more, m.WellFormed d (x.kind.Admits d)) :
    (x.addMembers more).WellFormed d := by
  obtain ⟨extAttrs, leading, afterAttrs, kind⟩ := x
  obtain ⟨hannotated, hleading, hkind⟩ := h
  have happend : ∀ {P : MemberKind → Prop} {ms : List Member} {items : List Trivia},
      Body d P ms items → (∀ m ∈ more, m.WellFormed d P) → Body d P (ms ++ more) items := by
    intro P ms items hbody hmore
    refine ⟨fun m hm => ?_, hbody.closing⟩
    rcases List.mem_append.mp hm with hm | hm
    · exact hbody.members m hm
    · exact hmore m hm
  refine ⟨hannotated, hleading, ?_⟩
  cases kind with
  | interface i => exact ⟨hkind.headed, happend hkind.body hmore⟩
  | «class» i | callbackInterface i => exact ⟨hkind.1, hkind.2.headed, happend hkind.2.body hmore⟩
  | dictionary b => exact ⟨hkind.headed, happend hkind.body hmore⟩
  | exception e => exact ⟨hkind.headed, happend hkind.body hmore⟩
  | _ => exact hkind

/-- Two definitions that take in the members of the same partial definitions. -/
structure SameTarget (x y : Definition) : Prop where
  name : y.name = x.name
  members : y.members?.isSome = x.members?.isSome
  takes (m : MemberKind) : y.kind.takes m = x.kind.takes m

theorem SameTarget.trans {x y z : Definition} (h : SameTarget x y) (h' : SameTarget y z) :
    SameTarget x z :=
  ⟨h'.name.trans h.name, h'.members.trans h.members, fun m => (h'.takes m).trans (h.takes m)⟩

theorem SameTarget.isTarget_eq {x y : Definition} (h : SameTarget x y) (n : String) :
    Merged.isTarget n y = Merged.isTarget n x := by
  rw [Merged.isTarget, Merged.isTarget, h.name, h.members]

theorem sameTarget_addMembers (x : Definition) (more : List Member) :
    SameTarget x (x.addMembers more) := by
  obtain ⟨extAttrs, leading, afterAttrs, kind⟩ := x
  cases kind <;> exact ⟨rfl, rfl, fun m => by cases m <;> rfl⟩

theorem body_addMembers {x : Definition} {n : String} (h : Merged.isTarget n x)
    (more : List Member) : (x.addMembers more).body = x.body ++ more := by
  obtain ⟨extAttrs, leading, afterAttrs, kind⟩ := x
  cases kind <;> first | rfl | simp [Merged.isTarget, Definition.members?] at h

/-- A partial definition is folded into the definition that stands for its target. -/
theorem exists_of_find?_eq_some {us ys : List Definition} (h : List.Forall₂ SameTarget us ys)
    {n : String} {u : Definition} (hu : us.find? (Merged.isTarget n) = some u)
    (more : List Member) :
    ∃ before y after, ys = before ++ y :: after ∧ SameTarget u y ∧ Merged.isTarget n y ∧
      Merged.extendTarget n more ys = some (before ++ y.addMembers more :: after) ∧
      List.Forall₂ SameTarget us (before ++ y.addMembers more :: after) := by
  induction h with
  | nil => cases hu
  | @cons v y vs ys hv hvs ih =>
    have heq := hv.isTarget_eq n
    cases htarget : Merged.isTarget n v with
    | true =>
      rw [List.find?_cons_of_pos htarget] at hu
      cases hu
      rw [htarget] at heq
      refine ⟨[], y, ys, rfl, hv, heq, ?_, .cons (hv.trans (sameTarget_addMembers y more)) hvs⟩
      rw [Merged.extendTarget, if_pos heq]
      rfl
    | false =>
      rw [List.find?_cons_of_neg (by simp [htarget])] at hu
      obtain ⟨before, z, after, rfl, hz, hn, hextend, hsame⟩ := ih hu
      refine ⟨y :: before, z, after, rfl, hz, hn, ?_, .cons hv hsame⟩
      rw [Merged.extendTarget, heq, htarget, hextend]
      rfl

theorem extendTarget_eq_none {us ys : List Definition} (h : List.Forall₂ SameTarget us ys)
    {n : String} (hu : us.find? (Merged.isTarget n) = none) (more : List Member) :
    Merged.extendTarget n more ys = none := by
  induction h with
  | nil => rfl
  | @cons v y vs ys hv hvs ih =>
    rw [List.find?_cons] at hu
    split at hu
    · cases hu
    · next htarget => rw [Merged.extendTarget, hv.isTarget_eq, htarget, ih hu]; rfl

/-- The definitions of a merged program stand for the ones that were not partial. -/
def Stands (before : List Definition) (m : Merged) : Prop :=
  List.Forall₂ SameTarget (before.filter fun y => !y.isPartial) m.definitions

/-- What merging does with one more definition: it is added if it is not partial, its members go
to its target if there is one, and else nothing changes. -/
inductive Adds (before : List Definition) (m : Merged) (x : Definition) : List Definition → Prop
  | append (hx : x.isPartial = false) : Adds before m x (m.definitions ++ [x])
  | extend {u y : Definition} {ys zs : List Definition} (hx : x.isPartial)
      (hu : target? before x.name = some u) (hsame : SameTarget u y)
      (hbody : (y.addMembers x.body).body = y.body ++ x.body)
      (heq : m.definitions = ys ++ y :: zs) : Adds before m x (ys ++ y.addMembers x.body :: zs)
  | drop (hx : x.isPartial) (hu : target? before x.name = none) : Adds before m x m.definitions

theorem Stands.adds {before : List Definition} {m : Merged} (h : Stands before m)
    (x : Definition) :
    Adds before m x (m.add x).definitions ∧ Stands (before ++ [x]) (m.add x) := by
  unfold Stands Merged.add
  rw [List.filter_append]
  cases hx : x.isPartial with
  | false =>
    simp only [Bool.false_eq_true, if_false, List.filter_cons, hx, Bool.not_false, if_true,
      List.filter_nil]
    exact ⟨.append hx, List.rel_append h (.cons ⟨rfl, rfl, fun _ => rfl⟩ .nil)⟩
  | true =>
    simp only [if_true, List.filter_cons, hx, Bool.not_true, Bool.false_eq_true, if_false,
      List.filter_nil, List.append_nil]
    cases hu : target? before x.name with
    | none =>
      rw [extendTarget_eq_none h hu]
      exact ⟨.drop hx hu, h⟩
    | some u =>
      obtain ⟨ys, y, zs, heq, hsame, htarget, hextend, hstands⟩ :=
        exists_of_find?_eq_some h hu (x.members?.getD [])
      rw [hextend]
      exact ⟨.extend hx hu hsame (body_addMembers htarget _) heq, hstands⟩

theorem SameTarget.takes_iff {x y : Definition} (h : SameTarget x y) {ms : List Member} :
    y.Takes ms ↔ x.Takes ms := by
  simp only [Definition.Takes, h.takes]

/-- What one definition adds fits the bodies exactly if it fits its target. -/
theorem Adds.takes_iff {before : List Definition} {m : Merged} {x : Definition}
    {zs : List Definition} (h : Adds before m x zs) (hx : x.Takes x.body) :
    (∀ z ∈ zs, z.Takes z.body) ↔ (∀ z ∈ m.definitions, z.Takes z.body) ∧
      (x.isPartial → ∀ y ∈ target? before x.name, y.Takes x.body) := by
  cases h with
  | append hpartial => simp [or_imp, forall_and, hpartial, hx]
  | @extend u y ys zs hpartial hu hsame hbody heq =>
    have hadd : (y.addMembers x.body).Takes (y.addMembers x.body).body ↔
        y.Takes y.body ∧ u.Takes x.body := by
      rw [(sameTarget_addMembers y x.body).takes_iff, hbody, ← hsame.takes_iff]
      simp [Definition.Takes, or_imp, forall_and]
    simp only [heq, List.mem_append, List.mem_cons, or_imp, forall_and, forall_eq, hadd, hu, hpartial,
      Option.mem_some_iff, forall_eq', true_imp_iff]
    tauto
  | drop hpartial hu => simp [hu]

theorem Adds.wellFormed {before : List Definition} {m : Merged} {x : Definition}
    {zs : List Definition} (h : Adds before m x zs) (hx : x.WellFormed d)
    (hm : ∀ y ∈ m.definitions, y.WellFormed d)
    (hfit : x.isPartial → ∀ y ∈ target? before x.name, y.Takes x.body) :
    ∀ z ∈ zs, z.WellFormed d := by
  cases h with
  | append _ => simpa [or_imp, forall_and] using ⟨hm, hx⟩
  | @extend u y ys zs hpartial hu hsame _ heq =>
    rw [heq] at hm
    simp only [List.mem_append, List.mem_cons, or_imp, forall_and, forall_eq] at hm ⊢
    obtain ⟨hys, hy, hzs⟩ := hm
    refine ⟨hys, hy.addMembers fun k hk => ?_, hzs⟩
    obtain ⟨hannotated, hleading, hkind⟩ := hx.body k hk
    have htakes : y.kind.takes k.kind := by
      rw [hsame.takes]
      exact hfit hpartial u hu k hk
    exact ⟨hannotated, hleading, Definition.admits_of_takes hpartial hkind htakes⟩
  | drop _ _ => exact hm

/-- The bodies of a merged program hold what they may exactly if every partial fits its target. -/
theorem takes_foldl_iff {before xs : List Definition} {m : Merged} (hm : Stands before m)
    (hxs : ∀ x ∈ xs, x.WellFormed d) :
    (∀ y ∈ (xs.foldl Merged.add m).definitions, y.Takes y.body) ↔
      (∀ y ∈ m.definitions, y.Takes y.body) ∧ Fitting before xs := by
  induction xs generalizing before m with
  | nil => simp [Fitting]
  | cons x xs ih =>
    obtain ⟨hx, hxs⟩ := List.forall_mem_cons.mp hxs
    obtain ⟨hadds, hstands⟩ := hm.adds x
    rw [List.foldl_cons, ih hstands hxs, hadds.takes_iff hx.takes_body, Fitting, and_assoc]

theorem wellFormed_foldl {before xs : List Definition} {m : Merged} (hm : Stands before m)
    (hdefinitions : ∀ y ∈ m.definitions, y.WellFormed d) (hxs : ∀ x ∈ xs, x.WellFormed d)
    (hfit : Fitting before xs) :
    ∀ y ∈ (xs.foldl Merged.add m).definitions, y.WellFormed d := by
  induction xs generalizing before m with
  | nil => exact hdefinitions
  | cons x xs ih =>
    obtain ⟨hx, hxs⟩ := List.forall_mem_cons.mp hxs
    obtain ⟨hadds, hstands⟩ := hm.adds x
    exact ih hstands (hadds.wellFormed hx hdefinitions hfit.1) hxs hfit.2

/-- Merging keeps a program well-formed exactly as far as its partial definitions fit their
targets, and then the merged program is parsed from what is written of it. -/
theorem mergePartials_takes_iff_fitting {text : String} {p : Program} (hd : d.keepTrivia = false)
    (htext : Unescaped text) (h : parseText d text = .ok p) :
    ((∀ x ∈ (mergePartials p.definitions).definitions, x.Takes x.body) ↔
        Fitting [] p.definitions) ∧
      (Fitting [] p.definitions →
        parseText d (writeDefinitions (mergePartials p.definitions).definitions) =
          .ok ⟨(mergePartials p.definitions).definitions, []⟩) := by
  have hxs := (wellFormed_of_parseText htext h).definitions
  have hempty : Stands [] {} := .nil
  refine ⟨?_, fun hfit => ?_⟩
  · have hiff := takes_foldl_iff hempty hxs
    simpa [mergePartials] using hiff
  · have hmerged := wellFormed_foldl hempty (by simp) hxs hfit
    exact @parseText_writeDefinitions_of_wellFormed d ⟨_, []⟩ hd ⟨hmerged, by simp [hd]⟩

/-- Constants and plain fields may be merged into an exception. -/
theorem mergePartials_takes_iff_fitting_exception :
    ∃ p, parseText {} ("exception E \x7b\x7d; partial interface E \x7b const long c = 1; \x7d; " ++
        "partial dictionary E \x7b long x; \x7d;") = .ok p ∧
      writeDefinitions (mergePartials p.definitions).definitions =
        "exception E \x7bconst long c = 1;long x;\x7d;" ∧
      (∀ x ∈ (mergePartials p.definitions).definitions, x.Takes x.body) ∧
      parseText {} (writeDefinitions (mergePartials p.definitions).definitions) =
        .ok ⟨(mergePartials p.definitions).definitions, []⟩ := by
  obtain ⟨p, hp, hwritten⟩ := @exists_of_map_eq_ok _ _ _
    (fun p : Program => (decide (Fitting [] p.definitions),
      writeDefinitions (mergePartials p.definitions).definitions))
    (parseText {} ("exception E \x7b\x7d; partial interface E \x7b const long c = 1; \x7d; " ++
      "partial dictionary E \x7b long x; \x7d;"))
    (true, "exception E \x7bconst long c = 1;long x;\x7d;") (by decide +kernel)
  obtain ⟨hfit, hwritten⟩ := Prod.mk.inj hwritten
  have hfit := of_decide_eq_true hfit
  obtain ⟨hiff, hparse⟩ := mergePartials_takes_iff_fitting rfl (by decide +kernel) hp
  exact ⟨p, hp, hwritten, hiff.mpr hfit, hparse hfit⟩

/-- A field that is merged into an interface cannot be read there. -/
theorem parseText_mergePartials_ne :
    ∃ p, parseText {} "interface A \x7b\x7d; partial dictionary A \x7b long x; \x7d;" = .ok p ∧
      Unescaped "interface A \x7b\x7d; partial dictionary A \x7b long x; \x7d;" ∧
      ¬(∀ x ∈ (mergePartials p.definitions).definitions, x.Takes x.body) ∧
      parseText {} (writeDefinitions (mergePartials p.definitions).definitions) ≠
        .ok ⟨(mergePartials p.definitions).definitions, []⟩ := by
  obtain ⟨p, hp, hwritten⟩ := @exists_of_map_eq_ok _ _ _
    (fun p : Program => (decide (∀ x ∈ (mergePartials p.definitions).definitions, x.Takes x.body),
      writeDefinitions (mergePartials p.definitions).definitions))
    (parseText {} "interface A \x7b\x7d; partial dictionary A \x7b long x; \x7d;")
    (false, "interface A \x7blong x;\x7d;") (by decide +kernel)
  obtain ⟨hfit, hwritten⟩ := Prod.mk.inj hwritten
  have herror : (parseText {} "interface A \x7blong x;\x7d;").isOk = false := by decide +kernel
  refine ⟨p, hp, by decide +kernel, of_decide_eq_false hfit, fun heq => ?_⟩
  rw [hwritten] at heq
  rw [heq] at herror
  cases herror

end WebIdl

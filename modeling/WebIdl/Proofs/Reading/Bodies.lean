import WebIdl.Grammar.Definitions
import WebIdl.Proofs.Reading.Operations

/-!
# Reading written bodies

A body is read entry by entry up to its closing brace. The trivia in front of an entry belongs to
it, and that in front of the brace to the body.
-/

namespace WebIdl.Spelling

open Token

/-- A member behind the trivia in front of it. -/
def memberBody (m : Member) : List Token :=
  bracketed (ofAttributes m.extAttrs) m.afterAttrs ++ ofMemberKind m.kind

theorem ofMember_eq (m : Member) : ofMember m = trivia m.leading ++ memberBody m := by
  simp [ofMember, memberBody]

/-- Values, each with the word whether a comma follows. -/
def withCommas (trailingComma : Bool) : List EnumValue → List (EnumValue × Bool)
  | [] => []
  | [v] => [(v, trailingComma)]
  | v :: w :: rest => (v, true) :: withCommas trailingComma (w :: rest)

/-- A value behind the trivia in front of it. -/
def valueBody (v : EnumValue × Bool) : List Token :=
  quoted v.1.value :: (trivia v.1.trailing ++ if v.2 then [mark ","] else [])

theorem valueBody_append (v : EnumValue) (comma : Bool) (us : List Token) :
    valueBody (v, comma) ++ us =
      quoted v.value :: (trivia v.trailing ++ ((if comma then [mark ","] else []) ++ us)) := by
  simp [valueBody]

theorem ofEnumValues_eq (trailingComma : Bool) (values : List EnumValue) :
    ofEnumValues trailingComma values =
      (withCommas trailingComma values).flatMap fun v => trivia v.1.leading ++ valueBody v := by
  induction values with
  | nil => rfl
  | cons v values ih =>
    cases values with
    | nil => simp [ofEnumValues, withCommas, ofEnumValue, valueBody]
    | cons w rest =>
      rw [ofEnumValues, ih]
      simp [withCommas, ofEnumValue, valueBody]

end WebIdl.Spelling

namespace WebIdl.Grammar

open Token Cursor Spelling

variable {α γ : Type} {exact : Bool} {d : Dialect} {c : Cursor} {ts us : List Token}

theorem opens_ofMemberKind (k : MemberKind) : Opens (ofMemberKind k) := by
  cases k with
  | const x => exact .word "const" _
  | field f =>
    rw [ofMemberKind, ofField, List.append_assoc, List.append_assoc]
    exact ((opens_ofType f.type).append _).wordIf _ _
  | «attribute» a =>
    simp only [ofMemberKind, ofAttributeMember, List.append_assoc]
    exact ((((Opens.word "attribute" _).wordIf _ _).wordIf _ _).wordIf _ _).wordIf _ _
  | operation o =>
    rw [ofMemberKind, ofOperation]
    cases o.returnType with
    | none => exact .word "stringifier" _
    | some type =>
      simp only [signature, List.append_assoc]
      cases o.specials.toList with
      | nil => exact (((opens_ofType type).append _).wordIf _ _).wordIf _ _
      | cons s ms => exact .word s.keyword _
  | iterator i =>
    rw [ofMemberKind, ← List.append_nil (ofIterator i), ofIterator_append]
    exact (opens_ofType i.returnType).append _
  | serializer s => cases s <;> exact .word "serializer" _
  | iterable i =>
    rw [ofMemberKind, ofIterable, List.append_assoc]
    exact (Opens.word i.kind.keyword _).wordIf _ _
  | typedef t => exact .word "typedef" _

/-- A list whose first token is neither a blank nor the end of a body. -/
def IsEntry (ts : List Token) : Prop :=
  ∃ t us, ts = t :: us ∧ t.isWhitespace = false ∧ t ≠ mark "\x7d"

theorem IsEntry.append (h : IsEntry ts) (us : List Token) : IsEntry (ts ++ us) := by
  obtain ⟨t, vs, rfl, ht⟩ := h
  exact ⟨t, vs ++ us, rfl, ht⟩

theorem IsEntry.core_eq (h : IsEntry ts) : core ts = ts := by
  obtain ⟨t, vs, rfl, ht, -⟩ := h
  exact core_cons_of_solid ht

theorem IsEntry.head?_ne (h : IsEntry ts) : ts.head? ≠ some (mark "\x7d") := by
  obtain ⟨t, vs, rfl, -, ht⟩ := h
  simpa using ht

theorem IsEntry.solids_ne_nil (h : IsEntry ts) : solids ts ≠ [] := by
  obtain ⟨t, vs, rfl, ht, -⟩ := h
  rw [solids_cons_of_solid ht]
  exact List.cons_ne_nil _ _

theorem Opens.isEntry (h : Opens ts) : IsEntry ts := by
  cases h with
  | word w ts => exact ⟨_, _, rfl, rfl, word_ne_mark⟩
  | parenthesis ts => exact ⟨_, _, rfl, rfl, by simp⟩

/-- Attributes in front of a declaration do not change that something begins here. -/
theorem isEntry_bracketed {es : List ExtendedAttribute} {items : List Trivia}
    (h : es = [] → items = []) (hts : Opens ts) :
    IsEntry (bracketed (ofAttributes es) items ++ ts) := by
  cases es with
  | nil =>
    rw [h rfl]
    exact hts.isEntry
  | cons e es =>
    rw [bracketed_of_ne_nil (ofAttributes_ne_nil (List.cons_ne_nil e es))]
    exact ⟨_, _, rfl, rfl, by simp⟩

/-- The entries of a body, with the trivia in front of each, and its end. -/
def bodyTokens (lead : γ → List Trivia) (f : γ → List Token) (closing : List Trivia)
    (us : List Token) (gs : List γ) : List Token :=
  gs.flatMap (fun g => Spelling.trivia (lead g) ++ f g) ++
    (Spelling.trivia closing ++ mark "\x7d" :: us)

theorem bodyTokens_cons (lead : γ → List Trivia) (f : γ → List Token) (closing : List Trivia)
    (us : List Token) (g : γ) (gs : List γ) :
    bodyTokens lead f closing us (g :: gs) =
      Spelling.trivia (lead g) ++ (f g ++ bodyTokens lead f closing us gs) := by
  simp [bodyTokens]

theorem reads_body {entry : List Trivia → Reader α} {lead : γ → List Trivia} {f : γ → List Token}
    {R : γ → α → Prop} {closing : List Trivia} {gs : List γ}
    {Q : List α × List Trivia → Cursor → Prop} (hd : exact → d.keepTrivia)
    (hf : ∀ g ∈ gs, IsEntry (f g)) (hlead : ∀ g ∈ gs, d.Keeps (lead g))
    (hclosing : d.Keeps closing)
    (hentry : ∀ g gs', g :: gs' <:+ gs → ∀ items c, (exact → items = lead g) →
      core c.after = c.after → At exact c (f g ++ bodyTokens lead f closing us gs') →
      Reads c (entry items) fun a c' => R g a ∧ At exact c' (bodyTokens lead f closing us gs'))
    (hc : At exact c (bodyTokens lead f closing us gs))
    (h : ∀ as items c', List.Forall₂ R gs as → (exact → items = closing) → At exact c' us →
      Q (as, items) c') : Reads c (body d entry) Q := by
  have hlen : gs.length ≤ c.remaining := by
    have hle := @length_le_solids_flatMap _ (fun g => Spelling.trivia (lead g) ++ f g) gs
      (fun g hg => by simpa using (hf g hg).solids_ne_nil)
    have := hc.length_le
    rw [bodyTokens, solids_append, List.length_append] at this
    omega
  rw [body]
  refine (reads_untilDone
    (P := fun hs c => hs <:+ gs ∧ At exact c (bodyTokens lead f closing us hs)) (R := R)
    (Q := fun items c' => (exact → items = closing) ∧ At exact c' us) ?_ ?_ hlen
    ⟨List.suffix_refl gs, hc⟩).mono fun r c' hr => h r.1 r.2 c' hr.1 hr.2.1 hr.2.2
  · rintro g hs c ⟨hsuffix, hc⟩
    have hg : g ∈ gs := hsuffix.subset List.mem_cons_self
    have hg' := (hf g hg).append (bodyTokens lead f closing us hs)
    rw [bodyTokens_cons] at hc
    refine reads_bind.mpr (reads_trivia hc hg'.core_eq (fun hx => ⟨hd hx, (hlead g hg).isRun (hd hx)⟩)
      fun items c1 hitems hc1 => reads_bind.mpr ?_)
    refine reads_symbol_settled hc1.toNear (by rw [hg'.core_eq]; exact hg'.head?_ne)
      fun c2 hsettled hc2 => ?_
    rw [hg'.core_eq] at hc2
    refine reads_bind.mpr ((hentry g hs hsuffix items c2 hitems hsettled hc2).mono ?_)
    rintro a c3 ⟨ha, hc3⟩
    exact reads_pure.mpr ⟨a, rfl, ha, (List.suffix_cons g hs).trans hsuffix, hc3⟩
  · rintro c ⟨-, hc⟩
    rw [bodyTokens, List.flatMap_nil, List.nil_append] at hc
    refine reads_bind.mpr (reads_trivia hc rfl (fun hx => ⟨hd hx, hclosing.isRun (hd hx)⟩)
      fun items c1 hitems hc1 => reads_bind.mpr ?_)
    exact reads_symbol hc1.toNear rfl fun c2 hc2 => reads_pure.mpr ⟨items, rfl, hitems, hc2⟩

/-- A member that was read for another one. -/
structure SameMember (exact : Bool) (m m' : Member) : Prop where
  erase : m'.erase = m.erase
  written : exact → ofMember m' = ofMember m

/-- A reader of the kind of a member. -/
def ReadsKind (exact : Bool) (kind : Reader MemberKind) (k : MemberKind) : Prop :=
  ∀ c us, Near exact c (ofMemberKind k ++ us) →
    Reads c kind fun k' c' => SameKind exact k k' ∧ At exact c' us

theorem reads_member (hd : exact → d.keepTrivia) {P : MemberKind → Prop}
    {kind : Reader MemberKind} {m : Member} (hm : m.WellFormed d P)
    (hkind : ReadsKind exact kind m.kind) {items : List Trivia}
    (hitems : exact → items = m.leading) (hc : At exact c (memberBody m ++ us)) :
    Reads c (member d kind items) fun m' c' => SameMember exact m m' ∧ At exact c' us := by
  have hopens := (opens_ofMemberKind m.kind).append us
  rw [memberBody, List.append_assoc] at hc
  refine reads_annotation hd hm.annotated hopens.core_eq (hopens.head?_ne (by decide)) hc.toNear
    fun es' items' c1 hsame hc1 => reads_bind.mpr ?_
  refine (hkind c1 us hc1.toNear).mono fun k' c2 hk' => reads_pure.mpr ⟨⟨?_, fun hx => ?_⟩, hk'.2⟩
  · simp only [Member.erase, hsame.erase, hk'.1.erase]
  · simp only [ofMember_eq, memberBody, hsame.written hx, hk'.1.written hx, hitems hx]

/-- Members read one after the other are written as they were. -/
structure SameMembers (exact : Bool) (ms ms' : List Member) : Prop where
  erase : ms'.map Member.erase = ms.map Member.erase
  written : exact → members ms' = members ms

theorem reads_members (hd : exact → d.keepTrivia) {P : MemberKind → Prop}
    {kind : Reader MemberKind} {ms : List Member} {closing : List Trivia}
    {Q : List Member × List Trivia → Cursor → Prop} (hbody : Body d P ms closing)
    (hkind : ∀ k, P k → ReadsKind exact kind k)
    (hc : At exact c (members ms ++ (Spelling.trivia closing ++ mark "\x7d" :: us)))
    (h : ∀ ms' items c', SameMembers exact ms ms' → (exact → items = closing) → At exact c' us →
      Q (ms', items) c') : Reads c (body d (member d kind)) Q := by
  have hbodies : members ms ++ (Spelling.trivia closing ++ mark "\x7d" :: us) =
      bodyTokens Member.leading memberBody closing us ms := by
    rw [members, bodyTokens, funext ofMember_eq]
  rw [hbodies] at hc
  refine reads_body (R := SameMember exact) hd (fun m hm => ?_) (fun m hm => ?_) hbody.closing
    (fun m ms' hms items c hitems _ hc => ?_) hc fun ms' items c' hms' hitems hc' =>
      h ms' items c' ⟨?_, fun hx => ?_⟩ hitems hc'
  · exact isEntry_bracketed (hbody.members m hm).annotated.bare (opens_ofMemberKind m.kind)
  · exact (hbody.members m hm).leading
  · have hm := hbody.members m (hms.subset List.mem_cons_self)
    exact reads_member hd hm (hkind m.kind hm.kind) hitems hc
  · exact forall₂_map_eq hms' fun m m' hm => hm.erase
  · exact forall₂_flatMap_eq hms' fun m m' hm => hm.written hx

/-- Values that were read for others. -/
structure SameValue (exact : Bool) (v w : EnumValue × Bool) : Prop where
  erase : w.1.erase = v.1.erase
  comma : w.2 = v.2
  same : exact → w = v

section Values

variable {vs ws : List (EnumValue × Bool)}

theorem map_erase_values_eq (h : List.Forall₂ (SameValue exact) vs ws) :
    (ws.map Prod.fst).map EnumValue.erase = (vs.map Prod.fst).map EnumValue.erase := by
  rw [List.map_map, List.map_map]
  exact forall₂_map_eq h fun v w hvw => hvw.erase

/-- The last comma is there or not as it was written. -/
theorem getLast?_comma_eq (h : List.Forall₂ (SameValue exact) vs ws) :
    ws.getLast?.map Prod.snd = vs.getLast?.map Prod.snd := by
  rw [← List.getLast?_map, forall₂_map_eq h fun v w hvw => hvw.comma, List.getLast?_map]

end Values

theorem filter_quotes {s : String} (hs : '"' ∉ s.toList) :
    String.ofList ((quoted s).text.toList.filter (· != '"')) = s := by
  have hfilter : s.toList.filter (· != '"') = s.toList := by
    rw [List.filter_eq_self]
    intro c hc
    simpa using fun heq : c = '"' => hs (heq ▸ hc)
  simp [quoted, hfilter]

/-- A value and the comma behind it. Where there is none, the blanks that follow are read too. -/
theorem reads_enumValue (hd : exact → d.keepTrivia) {v : EnumValue × Bool}
    (hv : v.1.WellFormed d) {items : List Trivia} (hitems : exact → items = v.1.leading)
    (hsettled : core c.after = c.after) (hus : v.2 = false → (core us).head? ≠ some (mark ","))
    (hblank : v.2 = false → exact → core us = us) (hc : At exact c (valueBody v ++ us)) :
    Reads c (enumValue d items) fun w c' => SameValue exact v w ∧ At exact c' us := by
  obtain ⟨⟨value, leading, trailing⟩, comma⟩ := v
  obtain ⟨hvalue, -, htrailing⟩ := hv
  have hunescape : (quoted value).unescape = quoted value :=
    unescape_of_kind (by simp [quoted])
  rw [valueBody_append] at hc
  obtain ⟨rest, hrest, hat⟩ := hc.toNear.exists_rest (core_quoted value _)
  rw [hsettled] at hrest
  have hat := hat (quoted value :: c.before) c.line
  rw [enumValue, reads_bind]
  refine reads_expect (reads_token_some (t := quoted value) hrest rfl rfl ⟨_, rfl, ?_⟩)
  rw [hunescape, filter_quotes hvalue, reads_bind]
  cases comma with
  | true =>
    rw [if_pos rfl] at hat
    refine reads_trivia hat rfl (fun hx => ⟨hd hx, htrailing.isRun (hd hx)⟩)
      fun trailing' c1 htrailing' hc1 => reads_bind.mpr ?_
    refine reads_symbol hc1.toNear rfl fun c2 hc2 => reads_pure.mpr ⟨⟨rfl, rfl, fun hx => ?_⟩, hc2⟩
    rw [hitems hx, htrailing' hx]
  | false =>
    have htrivia : ∀ {Q : List Trivia → Cursor → Prop}, (∀ items' c', (exact → items' = trailing) →
        Near exact c' us → Q items' c') → Reads ⟨quoted value :: c.before, rest, c.line⟩
          (trivia d) Q := by
      intro Q hQ
      rw [if_neg Bool.false_ne_true, List.nil_append] at hat
      cases exact with
      | true =>
        exact reads_trivia hat (hblank rfl rfl) (fun hx => ⟨hd hx, htrailing.isRun (hd hx)⟩)
          fun items' c' hitems' hc' => hQ items' c' hitems' hc'.toNear
      | false =>
        refine reads_trivia_near hat.toNear fun items' c' hc' => hQ items' c' (by simp) ?_
        rw [core_trivia_append] at hc'
        exact hc'.near
    refine htrivia fun trailing' c1 htrailing' hc1 => reads_bind.mpr ?_
    refine reads_symbol_none hc1 (hus rfl) fun c2 hc2 =>
      reads_pure.mpr ⟨⟨rfl, rfl, fun hx => ?_⟩, hc2.of_core (hblank rfl)⟩
    rw [hitems hx, htrailing' hx]

/-- The values of an enum, with commas behind any of them. Trivia is read back exactly if a comma
stands behind every value, or nothing but the brace. -/
theorem reads_enumValues (hd : exact → d.keepTrivia) {vs : List (EnumValue × Bool)}
    {closing : List Trivia} {Q : List (EnumValue × Bool) × List Trivia → Cursor → Prop}
    (hvs : ∀ v ∈ vs, v.1.WellFormed d) (hclosing : d.Keeps closing)
    (hcommas : exact → ∀ v vs', v :: vs' <:+ vs → v.2 = false → vs' = [] ∧ closing = [])
    (hc : At exact c (bodyTokens (fun v => v.1.leading) valueBody closing us vs))
    (h : ∀ ws items c', List.Forall₂ (SameValue exact) vs ws → (exact → items = closing) →
      At exact c' us → Q (ws, items) c') : Reads c (body d (enumValue d)) Q := by
  refine reads_body hd (fun v hv => ⟨_, _, rfl, rfl, quoted_ne_mark _ _⟩)
    (fun v hv => (hvs v hv).leading) hclosing ?_ hc h
  intro v vs' hsuffix items c hitems hsettled hc
  have hv := hvs v (hsuffix.subset List.mem_cons_self)
  refine reads_enumValue hd hv hitems hsettled (fun _ => ?_) (fun hcomma hx => ?_) hc
  · cases vs' with
    | nil => simp [bodyTokens]
    | cons w ws => simp [bodyTokens_cons, quoted_ne_mark]
  · obtain ⟨rfl, rfl⟩ := hcommas hx v vs' hsuffix hcomma
    rfl

end WebIdl.Grammar

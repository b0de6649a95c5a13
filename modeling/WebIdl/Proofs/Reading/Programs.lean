import WebIdl.Proofs.Reading.Definitions

/-!
# Reading written programs

The productions of definitions are tried in order, each by its first word. A program is read entry
by entry, whatever list of tokens each entry is written with.
-/

namespace WebIdl.Spelling

open Token

/-- A definition behind the trivia in front of it. -/
def definitionBody (x : Definition) : List Token :=
  bracketed (ofAttributes x.extAttrs) x.afterAttrs ++ ofDefinitionKind x.kind

theorem ofDefinition_eq (x : Definition) :
    ofDefinition x = trivia x.leading ++ definitionBody x := by
  simp [ofDefinition, definitionBody]

/-- Trivia, or a line break where there is none. -/
def brokenLine (items : List Trivia) : List Trivia :=
  if items.isEmpty then [.whitespace "\n"] else items

theorem brokenLine_brokenLine (items : List Trivia) :
    brokenLine (brokenLine items) = brokenLine items := by
  cases items <;> rfl

theorem isRun_brokenLine {items : List Trivia} (h : Trivia.IsRun items) :
    Trivia.IsRun (brokenLine items) := by
  cases items with
  | nil => exact .blanks (by simp) (by simp [Text.isBlank]) (by simp) .nil
  | cons t items => exact h

/-- The definitions of a program, each with the trivia that it is written behind. -/
def entries : List Definition → List (List Trivia × Definition)
  | [] => []
  | x :: xs => (x.leading, x) :: xs.map fun y => (brokenLine y.leading, y)

def entryTokens (e : List Trivia × Definition) : List Token :=
  trivia e.1 ++ definitionBody e.2

theorem ofDefinitions_eq (xs : List Definition) :
    ofDefinitions xs = (entries xs).flatMap entryTokens := by
  have hmore : ∀ xs, ofMoreDefinitions xs =
      (xs.map fun y => (brokenLine y.leading, y)).flatMap entryTokens := by
    intro xs
    induction xs with
    | nil => rfl
    | cons y ys ih =>
      rw [ofMoreDefinitions, ofDefinition_eq, ih, List.map_cons, List.flatMap_cons, entryTokens,
        brokenLine]
      cases y.leading <;> simp [blank, Trivia.token, Trivia.text]
  cases xs with
  | nil => rfl
  | cons x xs =>
    rw [ofDefinitions, ofDefinition_eq, hmore, entries, List.flatMap_cons, entryTokens]

end WebIdl.Spelling

namespace WebIdl.Grammar

open Token Cursor Spelling

variable {α γ : Type} {exact : Bool} {d : Dialect} {c : Cursor} {ts us : List Token}

section Order

variable {ps : List (Reader (Option DefinitionKind))} {Q : Option DefinitionKind → Cursor → Prop}

/-- A production that is committed by its first word leaves other words alone. -/
theorem reads_behind {w : String} {p r : Reader (Option DefinitionKind)}
    (hp : p = do if ← keyword w then r else return none) (hc : Near exact c ts)
    (hts : (core ts).head? ≠ some (word w))
    (h : ∀ c', Near exact c' ts → Reads c' (firstOf ps) Q) :
    Reads c (firstOf (p :: ps)) Q := by
  subst hp
  refine reads_firstOf_next (reads_bind.mpr ?_)
  exact reads_keyword_none hc hts fun c' hc' => reads_pure.mpr ⟨rfl, h c' hc'.near⟩

theorem reads_behind_interface {isPartial : Bool} (hc : Near exact c ts)
    (hinterface : (core ts).head? ≠ some (word "interface"))
    (hclass : d.allowClass → (core ts).head? ≠ some (word "class"))
    (h : ∀ c', Near exact c' ts → Reads c' (firstOf ps) Q) :
    Reads c (firstOf (interface d isPartial :: ps)) Q :=
  reads_firstOf_next (reads_interface_none hc hinterface hclass fun c' hc' => ⟨rfl, h c' hc'⟩)

/-- What stands behind `partial`. -/
theorem reads_partialDefinition (hc : Near exact c ts) (hts : core ts = word "partial" :: us)
    (h : ∀ c', Near exact c' us → Reads c' (firstOf [dictionary d true, interface d true])
      fun o c'' => ∃ k, o = some k ∧ Q (some k) c'') :
    Reads c (partialDefinition d) Q := by
  rw [partialDefinition, reads_bind]
  refine reads_keyword hc hts fun c1 hc1 => reads_bind.mpr (reads_expect ?_)
  apply (h c1 hc1.toNear).mono
  rintro o c' ⟨k, ho, hQ⟩
  exact ⟨k, ho, reads_pure.mpr hQ⟩

theorem reads_definitionKind_partial (hc : Near exact c ts) (hts : core ts = word "partial" :: us)
    (h : ∀ c', Near exact c' us → Reads c' (firstOf [dictionary d true, interface d true])
      fun o c'' => ∃ k, o = some k ∧ Q (some k) c'') :
    Reads c (definitionKind d) Q := by
  refine reads_behind rfl hc (by simp [hts]) fun c1 hc1 => ?_
  refine reads_behind_interface hc1 (by simp [hts]) (by simp [hts]) fun c2 hc2 => ?_
  exact reads_firstOf (reads_partialDefinition hc2 hts fun c3 hc3 =>
    (h c3 hc3).mono fun o c' ⟨k, ho, hQ⟩ => ⟨k, ho, k, rfl, hQ⟩)

theorem reads_partial_interface {w : String} {vs : List Token} (hw : w ≠ "dictionary")
    (hc : Near exact c (word w :: vs))
    (h : ∀ c', Near exact c' (word w :: vs) → Reads c' (interface d true)
      fun o c'' => ∃ k, o = some k ∧ Q (some k) c'') :
    Reads c (firstOf [dictionary d true, interface d true])
      fun o c'' => ∃ k, o = some k ∧ Q (some k) c'' := by
  refine reads_behind rfl hc (by simpa using hw) fun c1 hc1 => reads_firstOf ?_
  exact (h c1 hc1).mono fun o c' ⟨k, ho, hQ⟩ => ⟨k, ho, k, rfl, hQ⟩

/-- Where an interface or a class begins, whether it is partial or not. -/
theorem reads_definitionKind_interface {isPartial : Bool} {w : String} {vs : List Token}
    (hcallback : w ≠ "callback") (hdictionary : w ≠ "dictionary")
    (hc : Near exact c (wordIf isPartial "partial" ++ word w :: vs))
    (h : ∀ c', Near exact c' (word w :: vs) → Reads c' (interface d isPartial)
      fun o c'' => ∃ k, o = some k ∧ Q (some k) c'') :
    Reads c (definitionKind d) Q := by
  cases isPartial with
  | true =>
    exact reads_definitionKind_partial hc rfl fun c1 hc1 =>
      reads_partial_interface hdictionary hc1.of_space h
  | false =>
    exact reads_behind rfl hc (by simpa [wordIf] using hcallback) fun c1 hc1 =>
      reads_firstOf (h c1 hc1)

/-- Behind the productions that may be partial. -/
theorem reads_definitionKind_behind (hc : Near exact c ts)
    (hts : ∀ w ∈ ["callback", "interface", "partial", "dictionary"],
      (core ts).head? ≠ some (word w))
    (hclass : d.allowClass → (core ts).head? ≠ some (word "class"))
    (h : ∀ c', Near exact c' ts → Reads c'
      (firstOf [exception d, enum d, mapped .typedef (typedef d), implements]) Q) :
    Reads c (definitionKind d) Q := by
  refine reads_behind rfl hc (hts _ (by simp)) fun c1 hc1 => ?_
  refine reads_behind_interface hc1 (hts _ (by simp)) hclass fun c2 hc2 => ?_
  refine reads_behind rfl hc2 (hts _ (by simp)) fun c3 hc3 => ?_
  exact reads_behind rfl hc3 (hts _ (by simp)) h

theorem reads_definitionKind_dictionary {isPartial : Bool} {vs : List Token}
    (hc : Near exact c (wordIf isPartial "partial" ++ word "dictionary" :: vs))
    (h : ∀ c', Near exact c' (word "dictionary" :: vs) → Reads c' (dictionary d isPartial)
      fun o c'' => ∃ k, o = some k ∧ Q (some k) c'') :
    Reads c (definitionKind d) Q := by
  cases isPartial with
  | true =>
    refine reads_definitionKind_partial hc rfl fun c1 hc1 => reads_firstOf ?_
    exact (h c1 hc1.of_space).mono fun o c' ⟨k, ho, hQ⟩ => ⟨k, ho, k, rfl, hQ⟩
  | false =>
    refine reads_behind rfl hc (by simp [wordIf]) fun c1 hc1 => ?_
    refine reads_behind_interface hc1 (by simp [wordIf]) (by simp [wordIf]) fun c2 hc2 => ?_
    exact reads_behind rfl hc2 (by simp [wordIf]) fun c3 hc3 => reads_firstOf (h c3 hc3)

theorem reads_definitionKind_enum (hc : Near exact c ts) (hts : core ts = word "enum" :: us)
    (h : ∀ c', Near exact c' ts → Reads c' (enum d) fun o c'' => ∃ k, o = some k ∧ Q (some k) c'') :
    Reads c (definitionKind d) Q :=
  reads_definitionKind_behind hc (by simp [hts]) (by simp [hts]) fun _ hc1 =>
    reads_behind rfl hc1 (by simp [hts]) fun c2 hc2 => reads_firstOf (h c2 hc2)

end Order

section Kinds

variable {Q : Option DefinitionKind → Cursor → Prop}

theorem reads_definitionKind_ofEnum (hd : exact → d.keepTrivia) {e : Enum} (he : e.WellFormed d)
    (hc : Near exact c (ofEnum e ++ us))
    (h : ∀ k' c', SameDefinitionKind exact (.enum e) k' → At exact c' us → Q (some k') c') :
    Reads c (definitionKind d) Q := by
  obtain ⟨name, values, comma, closing⟩ := e
  obtain ⟨hname, hvalues, hclosing, hempty, hcomma⟩ := he
  rw [ofEnum, header_block_append, ofEnumValues_eq] at hc
  refine reads_definitionKind_enum hc rfl fun c1 hc1 => ?_
  refine reads_enum hd hname (fun v hv => hvalues v.1 ?_) hclosing ?_ hc1
    fun ws items c2 hws hitems hc2 => ⟨_, rfl, h _ c2 ⟨?_, fun hx => ?_⟩ hc2⟩
  · rw [← map_fst_withCommas comma values]
    exact List.mem_map_of_mem hv
  · intro _ v vs hvs hv
    obtain ⟨hnil, hne, hfalse⟩ := eq_nil_of_withCommas hvs hv
    exact ⟨hnil, hcomma hne hfalse⟩
  · have hlast : (ws.getLast?.map Prod.snd).getD false = comma := by
      rw [getLast?_comma_eq hws, getLast?_withCommas_eq hempty]
    have hvalues : (ws.map Prod.fst).map EnumValue.erase = values.map EnumValue.erase := by
      rw [map_erase_values_eq hws, map_fst_withCommas]
    simp only [DefinitionKind.erase, Enum.erase, hlast, hvalues]
  · obtain rfl : ws = withCommas comma values := by
      have hsame := hws.imp fun v w h => (h.same hx).symm
      rw [List.forall₂_eq_eq_eq] at hsame
      exact hsame.symm
    rw [map_fst_withCommas, getLast?_withCommas_eq hempty, hitems hx]

theorem reads_definitionKind_ofImplements {i : Implements} (hi : i.WellFormed d)
    (hc : Near exact c (ofImplements i ++ us))
    (h : ∀ c', At exact c' us → Q (some (.implements i)) c') :
    Reads c (definitionKind d) Q := by
  have hnot : ∀ w ∈ definitionStarts d, (core (ofImplements i ++ us)).head? ≠ some (word w) := by
    intro w hw heq
    refine hi.start ?_
    simp only [ofImplements, List.cons_append, core_word, List.head?_cons, Option.some.injEq,
      word_inj] at heq
    exact heq ▸ hw
  refine reads_definitionKind_behind hc (fun w hw => hnot w ?_)
    (fun hclass => hnot _ (by simp [definitionStarts, hclass])) fun c1 hc1 => ?_
  · simp only [List.mem_cons, List.not_mem_nil, or_false] at hw
    rcases hw with rfl | rfl | rfl | rfl <;> simp [definitionStarts]
  refine reads_behind rfl hc1 (hnot _ (by simp [definitionStarts])) fun c2 hc2 => ?_
  refine reads_behind rfl hc2 (hnot _ (by simp [definitionStarts])) fun c3 hc3 => ?_
  refine reads_firstOf_next (reads_mapped (reads_typedef_none hc3 (fun hb => ?_) ?_))
  · exact hnot _ (by simp [definitionStarts]) (begins_singleton.mp hb)
  intro c4 hc4
  exact ⟨rfl, reads_firstOf (reads_implements hi hc4 fun c' hc' => ⟨_, rfl, h c' hc'⟩)⟩

theorem reads_definitionKind (hd : exact → d.keepTrivia) {k : DefinitionKind} (hk : k.WellFormed d)
    (hc : Near exact c (ofDefinitionKind k ++ us))
    (h : ∀ k' c', SameDefinitionKind exact k k' → At exact c' us → Q (some k') c') :
    Reads c (definitionKind d) Q := by
  cases k with
  | callback x =>
    exact reads_firstOf (reads_callback hd hk hc fun k' c' hk' hc' => ⟨_, rfl, h k' c' hk' hc'⟩)
  | callbackInterface i =>
    obtain ⟨hpartial, hi⟩ := hk
    rw [ofDefinitionKind, ofInterface_append, hpartial] at hc
    exact reads_firstOf (reads_callbackInterface hd hi hpartial hc
      fun k' c' hk' hc' => ⟨_, rfl, h k' c' hk' hc'⟩)
  | interface i =>
    rw [ofDefinitionKind, ofInterface_append] at hc
    exact reads_definitionKind_interface (by decide) (by decide) hc fun c1 hc1 =>
      reads_interface hd hk hc1 fun k' c' hk' hc' => ⟨_, rfl, h k' c' hk' hc'⟩
  | «class» i =>
    obtain ⟨hclass, hi⟩ := hk
    rw [ofDefinitionKind, ofInterface_append] at hc
    exact reads_definitionKind_interface (by decide) (by decide) hc fun c1 hc1 =>
      reads_class hd hclass hi hc1 fun k' c' hk' hc' => ⟨_, rfl, h k' c' hk' hc'⟩
  | dictionary b =>
    rw [ofDefinitionKind, ofDictionary, header_block_append] at hc
    exact reads_definitionKind_dictionary hc fun c1 hc1 =>
      reads_dictionary hd hk hc1 fun k' c' hk' hc' => ⟨_, rfl, h k' c' hk' hc'⟩
  | exception e =>
    have hword : ∃ vs, core (ofException e ++ us) = word "exception" :: vs := ⟨_, rfl⟩
    obtain ⟨vs, hvs⟩ := hword
    exact reads_definitionKind_behind hc (by simp [ofDefinitionKind, hvs])
      (by simp [ofDefinitionKind, hvs]) fun c1 hc1 =>
        reads_firstOf (reads_exception hd hk hc1 fun k' c' hk' hc' => ⟨_, rfl, h k' c' hk' hc'⟩)
  | enum e => exact reads_definitionKind_ofEnum hd hk hc h
  | typedef t =>
    have hword : ∃ vs, core (ofTypedef t ++ us) = word "typedef" :: vs := ⟨_, rfl⟩
    obtain ⟨vs, hvs⟩ := hword
    rw [ofDefinitionKind] at hc
    refine reads_definitionKind_behind hc (by simp [hvs]) (by simp [hvs]) fun c1 hc1 => ?_
    refine reads_behind rfl hc1 (by simp [hvs]) fun c2 hc2 => ?_
    refine reads_behind rfl hc2 (by simp [hvs]) fun c3 hc3 => reads_firstOf (reads_mapped ?_)
    refine reads_typedef hd hk hc3 fun t' c' ht' hc' => ⟨_, rfl, h _ c' ⟨?_, ht'.written⟩ hc'⟩
    exact congrArg DefinitionKind.typedef ht'.erase
  | implements i =>
    exact reads_definitionKind_ofImplements hk hc fun c' hc' => h _ c' ⟨rfl, fun _ => rfl⟩ hc'

end Kinds

/-- A definition that was read for another one, behind the trivia it was written behind. -/
structure SameDefinition (exact : Bool) (e : List Trivia × Definition) (x : Definition) : Prop where
  erase : x.erase = e.2.erase
  leading : exact → x.leading = e.1
  written : exact → definitionBody x = definitionBody e.2

/-- Tokens that are read as one definition, wherever they stand. -/
def ReadsEntry (exact : Bool) (d : Dialect) (ts : List Token) (R : Definition → Prop) : Prop :=
  ∀ c us, At exact c (ts ++ us) →
    Reads c (programEntry d) fun r c' => ∃ x, r = .inl x ∧ R x ∧ At exact c' us

theorem opens_words {w : String} {ws : List String} : Opens (words (w :: ws)) := by
  rw [words, List.map_cons, joined_cons]
  exact .word w _

theorem opens_header (w : String) (ws : List String) (name : String) (isPartial : Bool)
    (inheritance : Option String) (ts : List Token) :
    Opens (header (w :: ws) name isPartial inheritance ++ ts) := by
  rw [header, List.append_assoc, List.append_assoc]
  exact (opens_words.append _).wordIf _ _

theorem opens_ofDefinitionKind (k : DefinitionKind) : Opens (ofDefinitionKind k) := by
  cases k with
  | interface i | «class» i | callbackInterface i | dictionary b | exception e | enum e =>
    exact opens_header _ _ _ _ _ _
  | callback x => exact .word "callback" _
  | typedef t => exact .word "typedef" _
  | implements i => exact .word i.target _

/-- A definition is read if its kind is, whatever tokens the kind is written with. -/
theorem reads_entry (hd : exact → d.keepTrivia) {items after : List Trivia}
    {es : List ExtendedAttribute} {ks : List Token} {R : DefinitionKind → Prop}
    (hitems : exact → Trivia.IsRun items) (hes : Annotated d es after) (hks : Opens ks)
    (hkind : ∀ c us, Near exact c (ks ++ us) →
      Reads c (definitionKind d) fun o c' => ∃ k, o = some k ∧ R k ∧ At exact c' us) :
    ReadsEntry exact d (Spelling.trivia items ++ (bracketed (ofAttributes es) after ++ ks)) fun x =>
      (exact → x.leading = items) ∧ SameAnnotation exact es x.extAttrs after x.afterAttrs ∧
        R x.kind := by
  intro c us hc
  have hopens := hks.append us
  have hentry := isEntry_bracketed hes.bare hopens
  rw [List.append_assoc, List.append_assoc] at hc
  refine reads_bind.mpr ?_
  refine reads_trivia hc hentry.core_eq (fun he => ⟨hd he, hitems he⟩) fun items' c1 hitems' hc1 => ?_
  refine reads_annotation hd hes hopens.core_eq (hopens.head?_ne (by decide)) hc1.toNear
    fun es' after' c2 hsame hc2 => reads_bind.mpr ?_
  refine (hkind c2 us hc2.toNear).mono ?_
  rintro o c3 ⟨k, rfl, hk, hc3⟩
  exact reads_pure.mpr ⟨_, rfl, ⟨hitems', hsame, hk⟩, hc3⟩

theorem reads_programEntry (hd : exact → d.keepTrivia) {items : List Trivia} {x : Definition}
    (hitems : exact → Trivia.IsRun items) (hx : x.WellFormed d) :
    ReadsEntry exact d (entryTokens (items, x)) (SameDefinition exact (items, x)) := by
  intro c us hc
  refine (reads_entry hd hitems hx.annotated (opens_ofDefinitionKind x.kind) (fun c us hc =>
    reads_definitionKind hd hx.kind hc fun k c' hk hc' => ⟨k, rfl, hk, hc'⟩) c us hc).mono ?_
  rintro _ c' ⟨y, rfl, ⟨hleading, hsame, hkind⟩, hc'⟩
  refine ⟨y, rfl, ⟨?_, hleading, fun he => ?_⟩, hc'⟩
  · simp only [Definition.erase, hsame.erase, hkind.erase]
  · simp only [definitionBody, hsame.written he, hkind.written he]

/-- Nothing is left. -/
def Drained (c : Cursor) : Prop :=
  c.after = []

theorem Drained.skip {c : Cursor} (h : Drained c) : Drained c.skip := by
  rw [Drained, after_skip, show c.after = [] from h]
  rfl

theorem Drained.near {c : Cursor} (h : Drained c) : Near exact c [] := by
  have h : c.after = [] := h
  exact ⟨by rw [h], by rw [h]; trivial, fun _ => by rw [h]⟩

theorem reads_keyword_drained {w : String} {Q : Bool → Cursor → Prop} (hc : Drained c)
    (h : ∀ c', Drained c' → Q false c') : Reads c (keyword w) Q := by
  rw [keyword, reads_bind, reads_skip, reads_bind]
  refine reads_token_none ?_ (reads_pure.mpr (h _ hc.skip))
  intro t ht
  rw [show c.skip.after = [] from hc.skip] at ht
  cases ht

theorem reads_guarded_drained {w : String} {r : Reader (Option α)}
    {Q : Option α → Cursor → Prop} (hc : Drained c) (h : ∀ c', Drained c' → Q none c') :
    Reads c (do if ← keyword w then r else return none) Q :=
  reads_bind.mpr (reads_keyword_drained hc fun c' hc' => reads_pure.mpr (h c' hc'))

/-- At the end of the text no definition is found, and nothing is left. -/
theorem reads_definitionKind_drained {Q : Option DefinitionKind → Cursor → Prop}
    (hc : Drained c) (h : ∀ c', Drained c' → Q none c') : Reads c (definitionKind d) Q := by
  refine reads_firstOf_next (reads_guarded_drained hc fun c1 hc1 => ⟨rfl, ?_⟩)
  refine reads_firstOf_next (reads_bind.mpr (reads_keyword_drained hc1 fun c2 hc2 => ?_))
  have hclass : ∀ {R : Bool → Cursor → Prop}, (∀ c', Drained c' → R false c') →
      Reads c2 (classKeyword d) R := by
    intro R hR
    rw [classKeyword]
    split
    · exact reads_keyword_drained hc2 hR
    · exact reads_pure.mpr (hR c2 hc2)
  refine reads_bind.mpr (hclass fun c3 hc3 => reads_pure.mpr ⟨rfl, ?_⟩)
  refine reads_firstOf_next (reads_guarded_drained hc3 fun c4 hc4 => ⟨rfl, ?_⟩)
  refine reads_firstOf_next (reads_guarded_drained hc4 fun c5 hc5 => ⟨rfl, ?_⟩)
  refine reads_firstOf_next (reads_guarded_drained hc5 fun c6 hc6 => ⟨rfl, ?_⟩)
  refine reads_firstOf_next (reads_guarded_drained hc6 fun c7 hc7 => ⟨rfl, ?_⟩)
  refine reads_firstOf_next (reads_mapped (reads_guarded_drained hc7 fun c8 hc8 => ⟨rfl, ?_⟩))
  refine reads_firstOf_next (reads_attempt_none (reads_bind.mpr ?_) ⟨rfl, ?_⟩)
  · refine @reads_identifier_none _ false _ _ hc8.near (by simp) fun c9 _ => ?_
    exact reads_pure.mpr rfl
  · exact reads_pure.mpr (h c8 hc8)

/-- Where the tokens are blank, nothing is left behind them. -/
theorem drained_skip (h : solids c.after = []) : Drained c.skip := by
  rw [Drained, after_skip]
  cases hcore : core c.after with
  | nil => rfl
  | cons t rest =>
    rw [← solids_core, hcore, solids_cons_of_solid (core_eq_cons_iff_head hcore)] at h
    cases h

theorem reads_trivia_drained {Q : List Trivia → Cursor → Prop} (hc : Drained c)
    (h : ∀ items c', Drained c' → Q items c') : Reads c (trivia d) Q := by
  rw [trivia, reads_bind, reads_get, reads_bind, reads_skip, reads_pure]
  exact h _ _ hc.skip

theorem reads_extendedAttributes_drained {Q : List ExtendedAttribute → Cursor → Prop}
    (hc : Drained c) (h : ∀ c', Drained c' → Q [] c') : Reads c (extendedAttributes d) Q := by
  refine reads_bounded ?_
  rw [extendedAttributesWithin, extendedAttributesWith, reads_bind, symbol, reads_bind, reads_skip,
    reads_bind]
  refine reads_token_none ?_ (reads_pure.mpr (reads_pure.mpr (h _ hc.skip)))
  intro t ht
  rw [show c.skip.after = [] from hc.skip] at ht
  cases ht

/-- The trivia at the end of a program. -/
theorem reads_programEntry_end (hd : exact → d.keepTrivia) {items : List Trivia}
    (hitems : exact → Trivia.IsRun items) {Q : Definition ⊕ List Trivia → Cursor → Prop}
    (hc : At exact c (Spelling.trivia items))
    (h : ∀ items' c', (exact → items' = items) → Drained c' → Q (.inr items') c') :
    Reads c (programEntry d) Q := by
  have hdrained : Drained c.skip := drained_skip (by rw [hc.solids, solids_trivia])
  rw [← List.append_nil (Spelling.trivia items)] at hc
  refine reads_bind.mpr ?_
  refine reads_trivia_settled hc rfl (fun he => ⟨hd he, hitems he⟩) fun items' hitems' _ => ?_
  refine reads_bind.mpr (reads_extendedAttributes_drained hdrained fun c1 hc1 => ?_)
  refine reads_bind.mpr (reads_trivia_drained hc1 fun after c2 hc2 => reads_bind.mpr ?_)
  refine reads_definitionKind_drained hc2 fun c3 hc3 => ?_
  exact reads_pure.mpr (h items' c3 hitems' hc3)

/-- A program is read from the tokens of its entries, whatever tokens each of them is read from. -/
theorem reads_program (hd : exact → d.keepTrivia) {gs : List γ} {f : γ → List Token}
    {R : γ → Definition → Prop} {trailing : List Trivia}
    (hgs : ∀ g ∈ gs, ReadsEntry exact d (f g) (R g)) (hsolid : ∀ g ∈ gs, solids (f g) ≠ [])
    (htrailing : exact → Trivia.IsRun trailing)
    (hc : At exact c (gs.flatMap f ++ Spelling.trivia trailing)) :
    Reads c (program d) fun p _ =>
      List.Forall₂ R gs p.definitions ∧ (exact → p.trailing = trailing) := by
  have hlen : gs.length ≤ c.remaining := by
    have hentries := length_le_solids_flatMap hsolid
    have hle := hc.length_le
    rw [solids_append, List.length_append] at hle
    omega
  refine reads_bind.mpr ?_
  refine (reads_untilDone (R := R)
    (P := fun (hs : List γ) c => (∀ g ∈ hs, g ∈ gs) ∧
      At exact c (hs.flatMap f ++ Spelling.trivia trailing))
    (Q := fun items c' => (exact → items = trailing) ∧ Drained c')
    ?_ ?_ hlen ⟨fun g hg => hg, hc⟩).mono ?_
  · rintro g hs c ⟨hmem, hc⟩
    rw [List.flatMap_cons, List.append_assoc] at hc
    refine (hgs g (hmem g List.mem_cons_self) c _ hc).mono ?_
    rintro r c' ⟨x, rfl, hx, hc'⟩
    exact ⟨x, rfl, hx, fun k hk => hmem k (List.mem_cons_of_mem g hk), hc'⟩
  · rintro c ⟨-, hc⟩
    exact reads_programEntry_end hd htrailing hc fun items c' hitems hc' =>
      ⟨items, rfl, hitems, hc'⟩
  · rintro ⟨definitions, items⟩ c' ⟨hdefinitions, hitems, hdrained⟩
    have hend : c'.atEnd = true := by rw [Cursor.atEnd, show c'.after = [] from hdrained]; rfl
    refine reads_bind.mpr (reads_get.mpr ?_)
    simp only [hend, if_true]
    exact reads_pure.mpr ⟨hdefinitions, hitems⟩

end WebIdl.Grammar

namespace WebIdl

open Token Spelling Grammar

/-- A text that looks like the tokens of some entries is parsed into those entries. -/
theorem parseText_of_entries {exact : Bool} {d : Dialect} {γ : Type} {gs : List γ}
    {f : γ → List Token} {R : γ → Definition → Prop} {trailing : List Trivia} {text : String}
    (hd : exact → d.keepTrivia) (hgs : ∀ g ∈ gs, ReadsEntry exact d (f g) (R g))
    (hsolid : ∀ g ∈ gs, solids (f g) ≠ []) (htrailing : exact → Trivia.IsRun trailing)
    (hlex : Lexable (gs.flatMap f ++ trivia trailing))
    (htext : text.toList = sourceChars (gs.flatMap f ++ trivia trailing)) :
    Unescaped text ∧ ∃ p, parseText d text = .ok p ∧ List.Forall₂ R gs p.definitions ∧
      (exact → p.trailing = trailing) := by
  obtain ⟨⟨us, hcut, hspaced, htight, hunescaped⟩, -⟩ := hlex
  have htokens : tokenize text = .ok us :=
    tokenize_eq_ok_iff.mpr ⟨hcut, by rw [htext, sourceChars_eq_of_spaced_eq hspaced]⟩
  have hat : Cursor.At exact (Cursor.ofTokens us) (gs.flatMap f ++ trivia trailing) :=
    Cursor.at_of_spaced_eq (solids_eq_of_spaced_eq hspaced) htight fun _ => hspaced
  obtain ⟨p, c', hp, hdefinitions, htrailing⟩ := reads_program hd hgs hsolid htrailing hat
  have hparse : parse d us = .ok p := parse_eq_ok_iff.mpr ⟨c', hp⟩
  exact ⟨unescaped_of_tokenize htokens hunescaped, p, parseText_eq_ok_iff.mpr ⟨us, htokens, hparse⟩,
    hdefinitions, htrailing⟩

end WebIdl

import WebIdl.Proofs.Reading.Arguments

/-!
# Reading nested arguments and attributes

Arguments carry attributes and attributes take arguments. One layer of the grammar is read back if
the layer inside is, for attributes of fewer tokens; the bound on the nesting is never reached.
-/

namespace WebIdl.Grammar

open Token Cursor Spelling

variable {α β : Type} {exact : Bool} {d : Dialect} {c : Cursor} {ts us : List Token} {n : Nat}

/-- Attributes that were read for others. -/
structure SameAttributes (exact : Bool) (es es' : List ExtendedAttribute) : Prop where
  erase : es'.map ExtendedAttribute.erase = es.map ExtendedAttribute.erase
  written : exact → ofAttributes es' = ofAttributes es

/-- An argument that was read for another one, with trivia in front of it. -/
structure SameArgument (exact : Bool) (items : List Trivia) (a a' : Argument) : Prop where
  erase : a'.erase = a.erase
  leading : exact → a'.leading = items
  written : exact → argumentBody a' = argumentBody a

structure SameAnnotation (exact : Bool) (es es' : List ExtendedAttribute)
    (items items' : List Trivia) : Prop where
  erase : es'.map ExtendedAttribute.erase = es.map ExtendedAttribute.erase
  written : exact → bracketed (ofAttributes es') items' = bracketed (ofAttributes es) items

/-- A reader of extended attributes that reads all that have fewer than `n` tokens. -/
structure ReadsAttributes (exact : Bool) (d : Dialect) (r : Reader (List ExtendedAttribute))
    (n : Nat) : Prop where
  reads : ∀ ⦃e es⦄ ⦃c : Cursor⦄ ⦃us Q⦄, (∀ x ∈ e :: es, x.WellFormed d) →
    (solids (ofAttributes (e :: es))).length < n →
    Near exact c (mark "[" :: ofAttributes (e :: es) ++ mark "]" :: us) →
    (∀ es' c', SameAttributes exact (e :: es) es' → At exact c' us → Q es' c') → Reads c r Q
  readsNone : ∀ ⦃c : Cursor⦄ ⦃us Q⦄, Near exact c us → (core us).head? ≠ some (mark "[") →
    (∀ c', At exact c' (core us) → Q [] c') → Reads c r Q

/-- A reader of arguments, for those with attributes of fewer than `n` tokens. -/
structure ReadsArgument (exact : Bool) (d : Dialect) (r : Reader (Option Argument)) (n : Nat) :
    Prop where
  reads : ∀ ⦃a : Argument⦄ ⦃items⦄ ⦃c : Cursor⦄ ⦃m us Q⦄, a.WellFormed d →
    (solids (ofAttributes a.extAttrs)).length < n → (exact → Trivia.IsRun items) →
    m = "," ∨ m = ")" → At exact c (Spelling.trivia items ++ (argumentBody a ++ mark m :: us)) →
    (∀ a' c', SameArgument exact items a a' → At exact c' (mark m :: us) → Q (some a') c') →
    Reads c r Q
  readsNone : ∀ ⦃c : Cursor⦄ ⦃us Q⦄, Near exact c (mark ")" :: us) → Q none c → Reads c r Q
  readsPair : ∀ ⦃key : IdlType⦄ ⦃c : Cursor⦄ ⦃us Q⦄, key.WellFormed →
    Near exact c (ofType key ++ mark "," :: us) → Q none c → Reads c r Q

/-- Attributes and the trivia behind them, in front of a token that opens no bracket. -/
theorem reads_annotated {r : Reader (List ExtendedAttribute)} (hr : ReadsAttributes exact d r n)
    (hd : exact → d.keepTrivia) {es : List ExtendedAttribute} {items : List Trivia}
    {f : List ExtendedAttribute → List Trivia → Reader α} {Q : α → Cursor → Prop}
    (h : Annotated d es items) (hsize : (solids (ofAttributes es)).length < n)
    (hus : core us = us) (hbracket : us.head? ≠ some (mark "["))
    (hc : Near exact c (bracketed (ofAttributes es) items ++ us))
    (hread : ∀ es' items' c', SameAnnotation exact es es' items items' → At exact c' us →
      Reads c' (f es' items') Q) :
    Reads c (r >>= fun es' => trivia d >>= fun items' => f es' items') Q := by
  refine reads_bind.mpr ?_
  cases es with
  | nil =>
    obtain rfl : items = [] := h.bare rfl
    have hnil : bracketed (ofAttributes []) [] = [] := by simp [ofAttributes, bracketed]
    rw [hnil, List.nil_append] at hc
    refine hr.readsNone hc (by rwa [hus]) fun c1 hc1 => reads_bind.mpr ?_
    rw [hus] at hc1
    refine reads_trivia (d := d) (show At exact c1 (Spelling.trivia [] ++ us) from hc1) hus
      (fun hx => ⟨hd hx, .nil⟩) fun items' c2 hitems hc2 => hread [] items' c2 ⟨rfl, ?_⟩ hc2
    exact fun hx => by rw [hitems hx]
  | cons e es =>
    have hne := ofAttributes_ne_nil (List.cons_ne_nil e es)
    rw [bracketed_of_ne_nil hne, List.append_assoc, List.cons_append] at hc
    refine hr.reads h.attributes hsize hc fun es' c1 hes hc1 => reads_bind.mpr ?_
    refine reads_trivia hc1 hus (fun hx => ⟨hd hx, ?_⟩) fun items' c2 hitems hc2 =>
      hread es' items' c2 ⟨hes.erase, fun hx => ?_⟩ hc2
    · exact isRun_filled (h.after.isRun (hd hx))
    · have hes' : ofAttributes es' ≠ [] := by rw [hes.written hx]; exact hne
      rw [bracketed_of_ne_nil hes', bracketed_of_ne_nil hne, hes.written hx, hitems hx,
        filled_filled]

/-- The first word of a type behind which no other part of a type can begin: where a type starts
with `optional`, that is its name. -/
theorem reads_idlType_behind_optional {key : IdlType} {Q : Option IdlType → Cursor → Prop}
    (hkey : key.WellFormed) {vs : List Token} (hvs : ofType key = word "optional" :: vs)
    (hc : Near exact c (vs ++ mark "," :: us)) (h : ∀ c', Q none c') : Reads c idlType Q := by
  have hhead : ∃ m ws, core (vs ++ mark "," :: us) = mark m :: ws ∧ m ≠ "(" := by
    have hsuffix : ∀ s : Suffix, ∃ m ws,
        core (ofSuffix s ++ mark "," :: us) = mark m :: ws ∧ m ≠ "(" := by
      rintro ⟨nullable, _ | ⟨b, array⟩⟩
      · cases nullable <;> exact ⟨_, _, rfl, by decide⟩
      · rw [ofSuffix_cons]
        cases b <;> exact ⟨_, _, rfl, by decide⟩
    cases hkey with
    | primitive p s =>
      obtain ⟨w, ts, hw, hmem⟩ := words_primitive p
      simp only [ofType, hw, List.cons_append, List.cons.injEq, word_inj] at hvs
      rw [hvs.1] at hmem
      exact absurd hmem (by decide)
    | named hname hany =>
      rw [ofType, List.cons.injEq] at hvs
      exact hvs.2 ▸ hsuffix _
    | generic s hname hinner =>
      simp only [ofType, List.cons_append, List.cons.injEq] at hvs
      rw [← hvs.2]
      exact ⟨_, _, rfl, by decide⟩
    | union s hmembers htwo =>
      simp only [ofType, List.cons_append, List.cons.injEq] at hvs
      exact absurd hvs.1 mark_ne_word
  obtain ⟨m, ws, hcore, hm⟩ := hhead
  refine reads_idlType_none hc (fun t ht => ?_) fun c' _ => h c'
  obtain rfl : mark m = t := by simpa [hcore] using ht
  exact ⟨by simp [mark], by simpa using hm⟩

theorem reads_variadic {optional variadic : Bool} {name : String} {f : Bool → Reader α}
    {Q : α → Cursor → Prop} (hoptional : optional → variadic = false)
    (hc : Near exact c ((if variadic then [mark ".", mark ".", mark "."] else []) ++
      (space :: word name :: us)))
    (h : ∀ c', Near exact c' (word name :: us) → Reads c' (f variadic) Q) :
    Reads c (if optional then pure false >>= f else ellipsis >>= f) Q := by
  cases optional with
  | true =>
    obtain rfl := hoptional rfl
    exact reads_bind.mpr (reads_pure.mpr (h c hc.of_space))
  | false =>
    refine reads_bind.mpr ?_
    cases variadic with
    | true => exact reads_ellipsis hc fun c' hc' => h c' hc'.toNear.of_space
    | false => exact reads_ellipsis_none hc (by simp) fun c' hc' => h c' hc'.of_space

/-- A default, if there may be one, up to the trivia behind the argument. -/
theorem reads_default {optional : Bool} {default : Option Literal} {items : List Trivia}
    {m : String} (hm : m = "," ∨ m = ")") {f : Option Literal → Reader α}
    {Q : α → Cursor → Prop} (hdefault : ∀ l ∈ default, l.WellFormed)
    (hrequired : optional = false → default = none)
    (hoptional : optional → default = none → items = [])
    (hc : At exact c (ofDefault default ++ (Spelling.trivia items ++ mark m :: us)))
    (h : ∀ c', At exact c' (Spelling.trivia items ++ mark m :: us) → Reads c' (f default) Q) :
    Reads c (if optional then defaultValue >>= f else pure none >>= f) Q := by
  cases optional with
  | false =>
    obtain rfl := hrequired rfl
    exact reads_bind.mpr (reads_pure.mpr (h c hc))
  | true =>
    refine reads_bind.mpr ?_
    cases default with
    | some l => exact reads_defaultValue (hdefault l rfl) hc.toNear h
    | none =>
      obtain rfl := hoptional rfl rfl
      refine reads_defaultValue_none hc.toNear ?_ h
      rcases hm with rfl | rfl <;> simp [ofDefault]

theorem core_argumentBody_append {a : Argument} (hbare : a.extAttrs = [] → a.afterAttrs = [])
    (us : List Token) : core (argumentBody a ++ us) = argumentBody a ++ us := by
  by_cases he : a.extAttrs = []
  · have hnil : bracketed (ofAttributes a.extAttrs) a.afterAttrs = [] := by
      simp [he, hbare he, ofAttributes, bracketed]
    rw [argumentBody, hnil, List.nil_append]
    cases a.optional with
    | true => rfl
    | false =>
      simp only [wordIf, List.append_assoc]
      exact ((opens_ofType a.type).append _).core_eq
  · rw [argumentBody, bracketed_of_ne_nil (ofAttributes_ne_nil he)]
    rfl

theorem readsArgument {r : Reader (List ExtendedAttribute)} (hr : ReadsAttributes exact d r n)
    (hd : exact → d.keepTrivia) : ReadsArgument exact d (argument d r) n where
  reads := by
    intro a items c m us Q ha hsize hrun hm hc h
    obtain ⟨hattributes, hafter, hbare, hleading, htrailing, htype, hname, happart, hdefault,
      hrequired, hoptional⟩ := ha
    refine reads_attempt (reads_bind.mpr ?_)
    refine reads_trivia hc (core_argumentBody_append hbare _) (fun hx => ⟨hd hx, hrun hx⟩)
      fun items' c1 hitems hc1 => ?_
    simp only [argumentBody, List.append_assoc, List.cons_append] at hc1
    refine reads_annotated hr hd ⟨hattributes, hafter, hbare⟩ hsize ?_ ?_ hc1.toNear
      fun es' after' c2 hsame hc2 => reads_bind.mpr ?_
    · cases a.optional with
      | true => rfl
      | false => exact ((opens_ofType a.type).append _).core_eq
    · cases a.optional with
      | true => simp [wordIf]
      | false => exact ((opens_ofType a.type).append _).head?_ne (by decide)
    refine reads_keyword_wordIf hc2.toNear
      (fun ho heq => (hrequired ho).2 (begins_ofType heq)) fun c3 hc3 => reads_bind.mpr ?_
    refine reads_idlType htype hc3 ?_ fun c4 hc4 => ?_
    · cases hv : a.variadic with
      | true => exact precedes_mark (by decide) _
      | false => exact precedes_word (happart hv) _
    refine reads_variadic (fun ho => (hoptional ho).1) hc4.near fun c5 hc5 => reads_bind.mpr ?_
    refine reads_identifier hc5 rfl hname.unescape_word fun c6 hc6 => ?_
    refine reads_default hm hdefault (fun ho => (hrequired ho).1) (fun ho => (hoptional ho).2) hc6
      fun c7 hc7 => reads_bind.mpr ?_
    refine reads_trivia hc7 rfl (fun hx => ⟨hd hx, htrailing.isRun (hd hx)⟩)
      fun trailing' c8 htrailing' hc8 => reads_pure.mpr ⟨_, rfl, h _ c8 ⟨?_, hitems, ?_⟩ hc8⟩
    · simp only [Argument.erase_eq, hsame.erase]
    · intro hx
      simp only [argumentBody, hsame.written hx, htrailing' hx]
  readsNone := by
    intro c us Q hc h
    refine reads_attempt_none (reads_bind.mpr ?_) h
    refine reads_trivia_near hc fun items c1 hc1 => reads_bind.mpr ?_
    refine hr.readsNone hc1.near (by simp) fun c2 hc2 => reads_bind.mpr ?_
    refine reads_trivia_near hc2.near fun items c3 hc3 => reads_bind.mpr ?_
    refine reads_keyword_none hc3.near (by simp) fun c4 hc4 => reads_bind.mpr ?_
    refine reads_idlType_none hc4.near (fun t ht => ?_) fun c5 hc5 => reads_pure.mpr rfl
    obtain rfl : mark ")" = t := by simpa using ht
    simp [mark]
  readsPair := by
    intro key c us Q hkey hc h
    refine reads_attempt_none (reads_bind.mpr ?_) h
    refine reads_trivia_near hc fun items c1 hc1 => reads_bind.mpr ?_
    refine hr.readsNone hc1.near ?_ fun c2 hc2 => reads_bind.mpr ?_
    · rw [((opens_ofType key).append _).core_eq]
      exact ((opens_ofType key).append _).head?_ne (by decide)
    refine reads_trivia_near hc2.near fun items c3 hc3 => reads_bind.mpr ?_
    by_cases ho : (core (ofType key ++ mark "," :: us)).head? = some (word "optional")
    · obtain ⟨vs, hvs⟩ := (opens_ofType key).eq_cons (begins_ofType ho)
      rw [hvs] at hc3
      refine reads_keyword hc3.near rfl fun c4 hc4 => reads_bind.mpr ?_
      exact reads_idlType_behind_optional hkey hvs hc4.toNear fun c5 => reads_pure.mpr rfl
    · refine reads_keyword_none hc3.near ho fun c4 hc4 => reads_bind.mpr ?_
      refine reads_idlType hkey hc4.near (precedes_mark (by decide) us) fun c5 hc5 =>
        reads_bind.mpr ?_
      refine reads_ellipsis_none hc5.near (by simp) fun c6 hc6 => reads_bind.mpr ?_
      exact reads_identifier_mark hc6 rfl fun c7 hc7 => reads_pure.mpr rfl

/-- Arguments that were read for others. -/
structure SameArguments (exact : Bool) (as as' : List Argument) : Prop where
  erase : as'.map Argument.erase = as.map Argument.erase
  written : exact → ofArguments as' = ofArguments as

theorem reads_argumentsWith {r : Reader (Option Argument)} (hr : ReadsArgument exact d r n)
    (hd : exact → d.keepTrivia) {a : Argument} {as : List Argument}
    {Q : Option (List Argument) → Cursor → Prop}
    (has : ∀ x ∈ a :: as, x.WellFormed d ∧ (solids (ofAttributes x.extAttrs)).length < n)
    (hc : At exact c (ofArguments (a :: as) ++ mark ")" :: us))
    (h : ∀ as' c', SameArguments exact (a :: as) as' → Near exact c' (mark ")" :: us) →
      Q (some as') c') : Reads c (argumentsWith r) Q := by
  have hrun : ∀ x ∈ a :: as, exact → Trivia.IsRun x.leading := fun x hx he => by
    obtain ⟨_, _, _, hleading, _⟩ := (has x hx).1
    exact hleading.isRun (hd he)
  obtain ⟨⟨ha, hsize⟩, has⟩ := List.forall_mem_cons.mp has
  obtain ⟨hrun, hruns⟩ := List.forall_mem_cons.mp hrun
  rw [ofArguments_cons, List.append_assoc, List.append_assoc] at hc
  have hfollow : ∃ m vs, as.flatMap (fun a => mark "," ::
      (Spelling.trivia (filled a.leading) ++ argumentBody a)) ++ mark ")" :: us = mark m :: vs ∧
      (m = "," ∨ m = ")") := by
    cases as with
    | nil => exact ⟨_, _, rfl, Or.inr rfl⟩
    | cons => exact ⟨_, _, rfl, Or.inl rfl⟩
  obtain ⟨m, vs, hvs, hm⟩ := hfollow
  rw [argumentsWith, commaSeparated, reads_bind]
  rw [hvs] at hc
  refine hr.reads ha hsize hrun hm hc fun a' c1 ha' hc1 => reads_bind.mpr ?_
  rw [← hvs] at hc1
  refine reads_afterCommas (R := fun a a' => SameArgument exact (filled a.leading) a a')
    (by simp) ?_ hc1.toNear fun as' c2 has' hc2 => reads_pure.mpr (h _ c2 ⟨?_, fun hx => ?_⟩ hc2)
  · intro x hx c vs hvs hc
    have hvs : ∃ m ws, vs = mark m :: ws ∧ (m = "," ∨ m = ")") := by
      rcases hvs with rfl | ⟨ws, rfl⟩
      · exact ⟨_, _, rfl, Or.inr rfl⟩
      · exact ⟨_, _, rfl, Or.inl rfl⟩
    obtain ⟨m, ws, rfl, hm⟩ := hvs
    rw [List.append_assoc] at hc
    refine reads_expect (hr.reads (has x hx).1 (has x hx).2 (fun he => ?_) hm hc ?_)
    · exact isRun_filled (hruns x hx he)
    · exact fun x' c' hx' hc' => ⟨x', rfl, hx', hc'.toNear⟩
  · rw [List.map_cons, List.map_cons, ha'.erase, forall₂_map_eq has' fun a a' h => h.erase]
  · rw [ofArguments_cons, ofArguments_cons, ha'.leading hx, ha'.written hx,
      forall₂_flatMap_eq has' fun a a' h => by
        rw [h.leading hx, h.written hx, filled_filled]]

theorem reads_typePair {key value : IdlType} {Q : Option (IdlType × IdlType) → Cursor → Prop}
    (hkey : key.WellFormed) (hvalue : value.WellFormed)
    (hc : Near exact c (ofType key ++ mark "," :: space :: (ofType value ++ mark ")" :: us)))
    (h : ∀ c', Near exact c' (mark ")" :: us) → Q (some (key, value)) c') :
    Reads c typePair Q := by
  refine reads_attempt (reads_bind.mpr ?_)
  refine reads_idlType hkey hc (precedes_mark (by decide) _) fun c1 hc1 => reads_bind.mpr ?_
  refine reads_symbol hc1.near rfl fun c2 hc2 => reads_bind.mpr ?_
  refine reads_idlType hvalue hc2.toNear.of_space (precedes_mark (by decide) _) fun c3 hc3 => ?_
  exact reads_pure.mpr ⟨_, rfl, h c3 hc3.near⟩

theorem reads_typePair_none {Q : Option (IdlType × IdlType) → Cursor → Prop}
    (hc : Near exact c (mark ")" :: us)) (h : Q none c) : Reads c typePair Q := by
  refine reads_attempt_none (reads_bind.mpr ?_) h
  refine reads_idlType_none hc (fun t ht => ?_) fun c1 hc1 => reads_pure.mpr rfl
  obtain rfl : mark ")" = t := by simpa using ht
  simp [mark]

structure SameParameters (exact : Bool) (p p' : AttributeParameters) : Prop where
  erase : p'.map (fun _ => []) id = p.map (fun _ => []) id
  written : exact → ofParameters p' = ofParameters p

/-- The arguments of an attribute carry fewer tokens of attributes than stand between its
parentheses. -/
theorem length_extAttrs_lt {a : Argument} {as : List Argument} (h : a ∈ as) :
    (solids (ofAttributes a.extAttrs)).length < (solids (ofArguments as)).length := by
  have hbody : ∀ a : Argument,
      (solids (ofAttributes a.extAttrs)).length < (solids (argumentBody a)).length := by
    intro a
    have hbracketed : (solids (ofAttributes a.extAttrs)).length ≤
        (solids (bracketed (ofAttributes a.extAttrs) a.afterAttrs)).length := by
      by_cases hne : ofAttributes a.extAttrs = []
      · simp [hne]
      · rw [bracketed_of_ne_nil hne]
        simp
        omega
    simp only [argumentBody, solids_append, List.length_append, solids_space, solids_word,
      List.length_cons]
    omega
  have := hbody a
  obtain ⟨b, bs, rfl⟩ := List.exists_cons_of_ne_nil (List.ne_nil_of_mem h)
  rw [ofArguments_cons]
  rcases List.mem_cons.mp h with rfl | hmem
  · simp
    omega
  · obtain ⟨cs, ds, rfl⟩ := List.append_of_mem hmem
    simp
    omega

theorem reads_attributeParameters {r : Reader (Option Argument)}
    (hr : ReadsArgument exact d r n) (hd : exact → d.keepTrivia) {p : AttributeParameters}
    {Q : AttributeParameters → Cursor → Prop} (hp : p.WellFormed d)
    (hsize : (solids (ofParameters p)).length ≤ n) (hus : (core us).head? ≠ some (mark "("))
    (hc : Near exact c (ofParameters p ++ us))
    (h : ∀ p' c', SameParameters exact p p' → Near exact c' us → Q p' c') :
    Reads c (attributeParameters r) Q := by
  rw [attributeParameters, reads_bind]
  cases hp with
  | absent =>
    refine reads_symbol_none hc hus fun c1 hc1 => reads_pure.mpr (h _ c1 ⟨rfl, ?_⟩ hc1.near)
    exact fun _ => rfl
  | @arguments args hargs =>
    simp only [ofParameters, List.cons_append, List.append_assoc, List.nil_append] at hc
    refine reads_symbol hc rfl fun c1 hc1 => reads_bind.mpr ?_
    cases args with
    | nil =>
      refine reads_firstOf_next (reads_mapped ?_)
      rw [argumentsWith, commaSeparated, reads_bind]
      refine hr.readsNone hc1.toNear (reads_pure.mpr ⟨rfl, ?_⟩)
      refine reads_firstOf_next (reads_mapped (reads_typePair_none hc1.toNear ⟨rfl, ?_⟩))
      refine reads_pure.mpr (reads_bind.mpr (reads_expectSymbol hc1.toNear rfl fun c2 hc2 => ?_))
      exact reads_pure.mpr (h _ c2 ⟨rfl, fun _ => rfl⟩ hc2.toNear)
    | cons a as =>
      refine reads_firstOf (reads_mapped (reads_argumentsWith hr hd (fun x hx => ?_) hc1 ?_))
      · refine ⟨hargs x hx, Nat.lt_of_lt_of_le (length_extAttrs_lt hx) ?_⟩
        simp [ofParameters] at hsize
        omega
      · intro as' c2 has' hc2
        refine ⟨_, rfl, reads_bind.mpr (reads_expectSymbol hc2 rfl fun c3 hc3 => ?_)⟩
        refine reads_pure.mpr (h _ c3 ⟨?_, fun hx => ?_⟩ hc3.toNear)
        · simp only [Option.getD_some, AttributeParameters.map, Argument.mapAll_eq]
          exact congrArg _ has'.erase
        · simp only [Option.getD_some, ofParameters, has'.written hx]
  | @typePair key value hkey hvalue =>
    simp only [ofParameters, List.cons_append, List.append_assoc, List.nil_append] at hc
    refine reads_symbol hc rfl fun c1 hc1 => reads_bind.mpr ?_
    refine reads_firstOf_next (reads_mapped ?_)
    rw [argumentsWith, commaSeparated, reads_bind]
    refine hr.readsPair hkey hc1.toNear (reads_pure.mpr ⟨rfl, ?_⟩)
    refine reads_firstOf (reads_mapped (reads_typePair hkey hvalue hc1.toNear fun c2 hc2 => ?_))
    refine ⟨_, rfl, reads_bind.mpr (reads_expectSymbol hc2 rfl fun c3 hc3 => ?_)⟩
    exact reads_pure.mpr (h _ c3 ⟨rfl, fun _ => rfl⟩ hc3.toNear)

/-- An attribute that was read for another one. -/
structure SameAttribute (exact : Bool) (e e' : ExtendedAttribute) : Prop where
  erase : e'.erase = e.erase
  written : exact → ofAttribute e' = ofAttribute e

theorem reads_extendedAttribute {r : Reader (Option Argument)} (hr : ReadsArgument exact d r n)
    (hd : exact → d.keepTrivia) {e : ExtendedAttribute}
    {Q : Option ExtendedAttribute → Cursor → Prop} (he : e.WellFormed d)
    (hsize : (solids (ofAttribute e)).length ≤ n) {m : String} (hm : m = "," ∨ m = "]")
    (hc : Near exact c (ofAttribute e ++ mark m :: us))
    (h : ∀ e' c', SameAttribute exact e e' → Near exact c' (mark m :: us) → Q (some e') c') :
    Reads c (extendedAttribute r) Q := by
  obtain ⟨hname, hvalue, hparameters⟩ := he
  rw [ofAttribute_eq] at hsize hc
  simp only [List.cons_append, List.append_assoc] at hc
  have hends : (core (mark m :: us)).head? ≠ some (mark "(") ∧
      (core (mark m :: us)).head? ≠ some (mark "=") := by
    rcases hm with rfl | rfl <;> simp
  rw [extendedAttribute, reads_bind]
  refine reads_identifier hc rfl hname.unescape_word fun c1 hc1 => reads_bind.mpr ?_
  refine reads_attributeValue hvalue ?_ hc1.toNear fun c2 hc2 => reads_bind.mpr ?_
  · cases hp : e.parameters with
    | absent => exact hends.2
    | _ => simp [ofParameters]
  refine reads_attributeParameters hr hd hparameters ?_ hends.1 hc2 fun p' c3 hp' hc3 => ?_
  · simp at hsize
    omega
  refine reads_pure.mpr (h _ c3 ⟨?_, fun hx => ?_⟩ hc3)
  · obtain ⟨name, value, parameters⟩ := e
    simp only [ExtendedAttribute.erase, ExtendedAttribute.map]
    rw [hp'.erase]
  · rw [ofAttribute_eq, ofAttribute_eq, hp'.written hx]

theorem length_ofAttribute_le {e : ExtendedAttribute} {es : List ExtendedAttribute} (h : e ∈ es) :
    (solids (ofAttribute e)).length ≤ (solids (ofAttributes es)).length := by
  obtain ⟨f, fs, rfl⟩ := List.exists_cons_of_ne_nil (List.ne_nil_of_mem h)
  rw [ofAttributes_cons, solids_append, List.length_append]
  rcases List.mem_cons.mp h with rfl | hmem
  · exact Nat.le_add_right _ _
  · obtain ⟨gs, hs, rfl⟩ := List.append_of_mem hmem
    simp
    omega

theorem readsAttributes_with {r : Reader (Option Argument)} (hr : ReadsArgument exact d r n)
    (hd : exact → d.keepTrivia) :
    ReadsAttributes exact d (extendedAttributesWith r) (n + 1) where
  reads := by
    intro e es c us Q hes hsize hc h
    have hsizes : ∀ x ∈ e :: es, (solids (ofAttribute x)).length ≤ n := fun x hx =>
      Nat.le_of_lt_succ (Nat.lt_of_le_of_lt (length_ofAttribute_le hx) hsize)
    obtain ⟨he, hes⟩ := List.forall_mem_cons.mp hes
    obtain ⟨hsize, hsizes⟩ := List.forall_mem_cons.mp hsizes
    rw [ofAttributes_cons] at hc
    simp only [List.cons_append, List.append_assoc] at hc
    have hfollow : ∃ m vs, es.flatMap (fun e => mark "," :: space :: ofAttribute e) ++
        mark "]" :: us = mark m :: vs ∧ (m = "," ∨ m = "]") := by
      cases es with
      | nil => exact ⟨_, _, rfl, Or.inr rfl⟩
      | cons => exact ⟨_, _, rfl, Or.inl rfl⟩
    obtain ⟨m, vs, hvs, hm⟩ := hfollow
    rw [hvs] at hc
    rw [extendedAttributesWith, reads_bind]
    refine reads_symbol hc rfl fun c1 hc1 => reads_bind.mpr (reads_expect ?_)
    refine reads_extendedAttribute hr hd he hsize hm hc1.toNear fun e' c2 he' hc2 =>
      ⟨e', rfl, reads_bind.mpr ?_⟩
    rw [← hvs] at hc2
    refine reads_afterCommas (R := SameAttribute exact) (by simp) ?_ hc2 fun es' c3 hes' hc3 => ?_
    · intro x hx c vs hvs hc
      have hvs : ∃ m ws, vs = mark m :: ws ∧ (m = "," ∨ m = "]") := by
        rcases hvs with rfl | ⟨ws, rfl⟩
        · exact ⟨_, _, rfl, Or.inr rfl⟩
        · exact ⟨_, _, rfl, Or.inl rfl⟩
      obtain ⟨m, ws, rfl, hm⟩ := hvs
      exact reads_expect (reads_extendedAttribute hr hd (hes x hx) (hsizes x hx) hm
        hc.toNear.of_space fun x' c' hx' hc' => ⟨x', rfl, hx', hc'⟩)
    · refine reads_bind.mpr (reads_expectSymbol hc3 rfl fun c4 hc4 => ?_)
      refine reads_pure.mpr (h _ c4 ⟨?_, fun hx => ?_⟩ hc4)
      · rw [List.map_cons, List.map_cons, he'.erase, forall₂_map_eq hes' fun e e' h => h.erase]
      · rw [ofAttributes_cons, ofAttributes_cons, he'.written hx,
          forall₂_flatMap_eq hes' fun e e' h => by rw [h.written hx]]
  readsNone := by
    intro c us Q hc hus h
    rw [extendedAttributesWith, reads_bind]
    exact reads_symbol_none hc hus fun c1 hc1 => reads_pure.mpr (h c1 hc1)

/-- The bound grows with the nesting, and attributes of no tokens are none. -/
theorem readsAttributes_within (hd : exact → d.keepTrivia) (n : Nat) :
    ReadsAttributes exact d (extendedAttributesWithin d (n + 1)) (n + 1) := by
  induction n with
  | zero =>
    rw [extendedAttributesWithin]
    refine ⟨fun e es c us Q _ hsize => ?_, fun c us Q hc hus h => ?_⟩
    · rw [ofAttributes_cons, ofAttribute_eq] at hsize
      simp at hsize
    · rw [extendedAttributesWith, reads_bind]
      exact reads_symbol_none hc hus fun c1 hc1 => reads_pure.mpr (h c1 hc1)
  | succ n ih =>
    rw [extendedAttributesWithin]
    exact readsAttributes_with (readsArgument ih hd) hd

theorem readsAttributes (hd : exact → d.keepTrivia) (n : Nat) :
    ReadsAttributes exact d (extendedAttributes d) n where
  reads := by
    intro e es c us Q hes _ hc h
    have hlen := hc.length_le
    rw [extendedAttributes]
    refine reads_bounded ((readsAttributes_within hd c.remaining).reads hes ?_ hc h)
    simp at hlen
    omega
  readsNone := by
    intro c us Q hc hus h
    rw [extendedAttributes]
    exact reads_bounded ((readsAttributes_within hd c.remaining).readsNone hc hus h)

/-- Attributes in front of a declaration. -/
theorem reads_annotation (hd : exact → d.keepTrivia) {α : Type} {es : List ExtendedAttribute}
    {items : List Trivia} {f : List ExtendedAttribute → List Trivia → Reader α}
    {Q : α → Cursor → Prop} (h : Annotated d es items) (hus : core us = us)
    (hbracket : us.head? ≠ some (mark "["))
    (hc : Near exact c (bracketed (ofAttributes es) items ++ us))
    (hread : ∀ es' items' c', SameAnnotation exact es es' items items' → At exact c' us →
      Reads c' (f es' items') Q) :
    Reads c (extendedAttributes d >>= fun es' => trivia d >>= fun items' => f es' items') Q :=
  reads_annotated (readsAttributes hd _) hd h (Nat.lt_succ_self _) hus hbracket hc hread

theorem reads_argumentList (hd : exact → d.keepTrivia) {as : List Argument}
    {Q : List Argument → Cursor → Prop} (has : ∀ a ∈ as, a.WellFormed d)
    (hc : At exact c (ofArguments as ++ mark ")" :: us))
    (h : ∀ as' c', SameArguments exact as as' → Near exact c' (mark ")" :: us) → Q as' c') :
    Reads c (argumentList d) Q := by
  have hr := readsArgument (readsAttributes hd ((solids (ofArguments as)).length)) hd
  rw [argumentList, reads_bind]
  cases as with
  | nil =>
    rw [argumentsWith, commaSeparated, reads_bind]
    refine hr.readsNone hc.toNear (reads_pure.mpr (reads_pure.mpr (h _ c ⟨rfl, ?_⟩ hc.toNear)))
    exact fun _ => rfl
  | cons a as =>
    refine reads_argumentsWith hr hd (fun x hx => ⟨has x hx, length_extAttrs_lt hx⟩) hc
      fun as' c1 has' hc1 => reads_pure.mpr (h as' c1 has' hc1)

end WebIdl.Grammar

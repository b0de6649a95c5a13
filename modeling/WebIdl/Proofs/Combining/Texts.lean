import WebIdl.Index
import WebIdl.Proofs.Combining.Borders
import WebIdl.Proofs.RoundTrip

/-!
# Fragments are parsed one by one

Texts that parse are combined into a text that parses, and its definitions are theirs in order. The
separator has to begin with a line feed, which ends a line comment that is left open, and to be
blank.
-/

namespace WebIdl

open Token

variable {d : Dialect} {p q : Program} {s t u : String}

theorem parseText_empty (d : Dialect) : ∃ r, parseText d "" = .ok r ∧ r.definitions = [] := by
  obtain ⟨-, r, hr, hsame, -⟩ := @parseText_of_wellFormed d "" false [] [] nofun (by simp) .nil rfl
  exact ⟨r, hr, List.forall₂_nil_left_iff.mp hsame⟩

/-- Two texts that parse, joined at a line feed. -/
theorem parseText_append (hs : IsBorder s) (ht : parseText d t = .ok p)
    (hu : parseText d u = .ok q) :
    ∃ r, parseText d (t ++ s ++ u) = .ok r ∧
      r.erase.definitions = p.erase.definitions ++ q.erase.definitions := by
  obtain ⟨ts, htokens, hp⟩ := parseText_eq_ok_iff.mp ht
  obtain ⟨us, hutokens, hq⟩ := parseText_eq_ok_iff.mp hu
  obtain ⟨htcut, htsource⟩ := tokenize_eq_ok_iff.mp htokens
  obtain ⟨hucut, husource⟩ := tokenize_eq_ok_iff.mp hutokens
  obtain ⟨vs, hcut, hsource, hbonds⟩ := exists_isCut_append htcut (known_of_parse hp) hs hucut
  have hvtokens : tokenize (t ++ s ++ u) = .ok vs :=
    tokenize_eq_ok_iff.mpr ⟨hcut, by simp [hsource, htsource, husource]⟩
  -- Without trivia the tokens may be taken apart again, with the separator in front of the second.
  have hwhole : (parse d.plain vs).mapError ParseError.reason =
      (parse d.plain (ts ++ blank s :: us)).mapError ParseError.reason :=
    parseFrom_of_bonds_eq rfl (hbonds none)
  have hrest : (parse d.plain (blank s :: us)).mapError ParseError.reason =
      (parse d.plain us).mapError ParseError.reason :=
    parseFrom_of_bonds_eq rfl (bonds_cons_of_blank rfl)
  rw [parse_append hp, hrest, parse_plain d us, hq, parse_plain d vs] at hwhole
  cases hr : parse d vs with
  | error e =>
    rw [hr] at hwhole
    cases hwhole
  | ok r =>
    rw [hr] at hwhole
    refine ⟨r, parseText_eq_ok_iff.mpr ⟨vs, hvtokens, hr⟩, ?_⟩
    exact congrArg Program.definitions (Except.ok.inj hwhole)

theorem definitions_erase_of_not_keepTrivia (hd : d.keepTrivia = false)
    (h : parseText d t = .ok p) : p.definitions.map Definition.erase = p.definitions := by
  obtain ⟨ts, -, hp⟩ := parseText_eq_ok_iff.mp h
  exact congrArg Program.definitions (erase_eq_self_of_parseFrom hd hp)

namespace RenderOptions

/-- The index of some definitions. -/
def rendered (o : RenderOptions) (definitions : List Definition) : Rendered :=
  ⟨o.layOut (writeDefinitions (o.merge definitions).definitions), (o.merge definitions).warnings⟩

end RenderOptions

theorem render_eq (o : RenderOptions) (text : String) :
    render o text = (parseText o.dialect text).map fun p => o.rendered p.definitions := by
  unfold render
  cases parseText o.dialect text <;> rfl

theorem isBorder_lineFeed : IsBorder "\n" :=
  ⟨by simp, by simp [Text.isBlank]⟩

theorem exists_parseText_combineTexts {texts : List String} {ps : List Program} (hs : IsBorder s)
    (h : List.Forall₂ (fun t p => parseText d t = .ok p) texts ps) :
    ∃ r, parseText d (combineTexts s texts) = .ok r ∧
      r.definitions.map Definition.erase = (ps.flatMap Program.definitions).map Definition.erase := by
  induction h with
  | nil =>
    obtain ⟨r, hr, hnone⟩ := parseText_empty d
    exact ⟨r, hr, by rw [hnone]; rfl⟩
  | @cons t p texts ps hp h ih =>
    cases h with
    | nil => exact ⟨p, by rwa [combineTexts, String.intercalate_singleton], by simp⟩
    | cons hq h =>
      obtain ⟨q, hq, hrest⟩ := ih
      obtain ⟨r, hr, hdefinitions⟩ := parseText_append hs hp hq
      refine ⟨r, by rwa [combineTexts, String.intercalate_cons_cons], ?_⟩
      rw [List.flatMap_cons, List.map_append, ← hrest]
      exact hdefinitions

theorem definitions_eq_of_parseText_combineTexts {texts : List String} {ps : List Program}
    {r : Program} (hd : d.keepTrivia = false) (hs : IsBorder s)
    (h : List.Forall₂ (fun t p => parseText d t = .ok p) texts ps)
    (hr : parseText d (combineTexts s texts) = .ok r) :
    r.definitions = ps.flatMap Program.definitions := by
  obtain ⟨r', hr', hdefinitions⟩ := exists_parseText_combineTexts hs h
  obtain rfl : r = r' := Except.ok.inj (hr.symm.trans hr')
  have hflat : (ps.flatMap Program.definitions).map Definition.erase =
      ps.flatMap Program.definitions := by
    clear hr hr' hdefinitions
    induction h with
    | nil => rfl
    | cons hp h ih =>
      rw [List.flatMap_cons, List.map_append, definitions_erase_of_not_keepTrivia hd hp, ih]
  rwa [hflat, definitions_erase_of_not_keepTrivia hd hr] at hdefinitions

/-- Combining texts and parsing the combination gives the definitions of each in order, up to
trivia; and the same definitions where no trivia is kept, which are then what is rendered. -/
theorem parseText_combineTexts {texts : List String} {ps : List Program} (hs : IsBorder s)
    (h : List.Forall₂ (fun t p => parseText d t = .ok p) texts ps) :
    (∃ r, parseText d (combineTexts s texts) = .ok r ∧
      r.definitions.map Definition.erase =
        (ps.flatMap Program.definitions).map Definition.erase ∧
      (d.keepTrivia = false → r.definitions = ps.flatMap Program.definitions)) ∧
    (d.keepTrivia = false → ∀ o : RenderOptions, o.dialect = d →
      renderIndex o texts = .ok (o.rendered (ps.flatMap Program.definitions))) := by
  constructor
  · obtain ⟨r, hr, hdefinitions⟩ := exists_parseText_combineTexts hs h
    exact ⟨r, hr, hdefinitions, fun hd => definitions_eq_of_parseText_combineTexts hd hs h hr⟩
  · rintro hd o rfl
    obtain ⟨r, hr, -⟩ := exists_parseText_combineTexts isBorder_lineFeed h
    rw [renderIndex, render_eq, hr,
      ← definitions_eq_of_parseText_combineTexts hd isBorder_lineFeed h hr]
    rfl

/-- A comment that is left open ends with its text, and blanks on both sides are one run. -/
theorem parseText_combineTexts_openComment :
    ∃ p q, parseText {} "interface A \x7b\x7d; // dictionary B" = .ok p ∧
      parseText {} " /* C */ dictionary C \x7b long x; \x7d;" = .ok q ∧
      p.definitions.length = 1 ∧ q.definitions.length = 1 ∧
      (∃ r, parseText {} (combineTexts "\n\r\n" ["interface A \x7b\x7d; // dictionary B",
        " /* C */ dictionary C \x7b long x; \x7d;"]) = .ok r ∧
          r.definitions = p.definitions ++ q.definitions) ∧
      renderIndex {} ["interface A \x7b\x7d; // dictionary B",
        " /* C */ dictionary C \x7b long x; \x7d;"] =
          .ok (RenderOptions.rendered {} (p.definitions ++ q.definitions)) := by
  obtain ⟨p, hp, hlength⟩ := @exists_of_map_eq_ok _ _ _ (fun p : Program => p.definitions.length)
    (parseText {} "interface A \x7b\x7d; // dictionary B") 1 (by decide +kernel)
  obtain ⟨q, hq, hlength'⟩ := @exists_of_map_eq_ok _ _ _ (fun p : Program => p.definitions.length)
    (parseText {} " /* C */ dictionary C \x7b long x; \x7d;") 1 (by decide +kernel)
  have hborder : IsBorder "\n\r\n" := ⟨by simp, by simp [Text.isBlank]⟩
  obtain ⟨⟨r, hr, -, hdefinitions⟩, hrendered⟩ :=
    parseText_combineTexts hborder (.cons hp (.cons hq .nil))
  have hflat : [p, q].flatMap Program.definitions = p.definitions ++ q.definitions := by simp
  rw [hflat] at hdefinitions hrendered
  exact ⟨p, q, hp, hq, hlength, hlength', ⟨r, hr, hdefinitions rfl⟩, hrendered rfl {} rfl⟩

end WebIdl

import WebIdl.Proofs.Combining.Texts
import WebIdl.Proofs.Merging.Increments
import WebIdl.Proofs.Printing.Rereading

/-!
# Rendering an index again

A merged program holds no partial definitions, and its layout does not change by what the printer
changes. So an index is rendered to itself, as long as its definitions can be read from what is
written of them: a name that needs its escape mark cannot, and neither can a member in a body that
may not hold it.
-/

namespace WebIdl

open Token Spelling

namespace Spelling

variable {indent : Nat}

theorem laidBody_withoutComma (x : Definition) :
    laidBody indent x.withoutComma = laidBody indent x := by
  obtain ⟨extAttrs, leading, afterAttrs, kind⟩ := x
  cases kind <;> rfl

theorem withoutComma_squeeze (x : Definition) :
    x.withoutComma.squeeze = x.squeeze.withoutComma := by
  obtain ⟨extAttrs, leading, afterAttrs, kind⟩ := x
  cases kind <;> rfl

/-- The layout is that of the bodies and of the trivia in front of them. -/
theorem laidProgram_map {f : Definition → Definition}
    (hbody : ∀ x, laidBody indent (f x) = laidBody indent x)
    (hlead : ∀ x, (f x).leading = x.leading) (xs : List Definition) :
    laidProgram indent (xs.map f) = laidProgram indent xs := by
  have hmap : ∀ lead : Definition → List Trivia, (∀ x, lead (f x) = lead x) → ∀ ys : List Definition,
      ((ys.map f).map fun y => (lead y, y)).flatMap (laidEntry indent) =
        (ys.map fun y => (lead y, y)).flatMap (laidEntry indent) := by
    intro lead hlead ys
    simp only [List.flatMap_map, laidEntry, hbody, hlead]
  cases xs with
  | nil => rfl
  | cons x xs =>
    have hrest := hmap (fun y => .emptyLine :: Trivia.dropBlanks y.leading)
      (fun y => by rw [hlead]) xs
    rw [List.map_cons, laidProgram, laidProgram, laidEntries, laidEntries, List.flatMap_cons,
      List.flatMap_cons, hrest, laidEntry, laidEntry, hbody, hlead]
    rfl

end Spelling

/-- The layout of what is read from a printed text is that of the text. -/
theorem laidProgram_printed {indent : Nat} (xs : List Definition) :
    laidProgram indent ((xs.map fun x => x.squeeze.withoutComma).map Definition.squeeze) =
      laidProgram indent (xs.map Definition.squeeze) := by
  have hmap : (xs.map fun x => x.squeeze.withoutComma).map Definition.squeeze =
      (xs.map Definition.squeeze).map Definition.withoutComma := by
    rw [List.map_map, List.map_map]
    apply List.map_congr_left
    intro x _
    simp only [Function.comp_apply, withoutComma_squeeze, Definition.squeeze_squeeze]
  rw [hmap, laidProgram_map laidBody_withoutComma fun _ => rfl]

theorem isPartial_squeeze_withoutComma (x : Definition) :
    x.squeeze.withoutComma.isPartial = x.isPartial := by
  obtain ⟨extAttrs, leading, afterAttrs, kind⟩ := x
  cases kind <;> rfl

theorem mergePartials_of_canonical {xs : List Definition} (hxs : ∀ x ∈ xs, x.isPartial = false) :
    mergePartials xs = ⟨xs, []⟩ :=
  foldl_add_of_canonical {} hxs

section Trivialess

variable {d : Dialect} (hd : d.keepTrivia = false)
include hd

theorem Definition.WellFormed.erase_withoutComma {x : Definition} (hx : x.WellFormed d) :
    x.withoutComma.erase = x.withoutComma := by
  have heq : x.erase = x := hx.erase_eq_self hd
  have hcomm : x.withoutComma.erase = x.erase.withoutComma := by
    obtain ⟨extAttrs, leading, afterAttrs, kind⟩ := x
    cases kind <;> rfl
  rw [hcomm, heq]

/-- From the printed text of well-formed definitions exactly the squeezed ones are read. -/
theorem parseText_print_of_wellFormed {indent : Nat} {xs : List Definition}
    (hxs : ∀ x ∈ xs, x.WellFormed d) :
    ∃ q, parseText d (Layout.print indent (writeDefinitions xs)) = .ok q ∧
      q.definitions = xs.map (fun x => x.squeeze.withoutComma) ∧
      ∀ x ∈ q.definitions, x.WellFormed d := by
  have hsqueezed : ∀ x ∈ xs.map Definition.squeeze, x.WellFormed d := by
    intro y hy
    obtain ⟨x, hx, rfl⟩ := List.mem_map.mp hy
    exact (hxs x hx).squeeze
  obtain ⟨hunescaped, q, hq, hsame⟩ :=
    parseText_of_laid hsqueezed (@Layout.toList_print _ indent _ hxs (by simp [hd]))
  have hwell := wellFormed_of_parseText hunescaped hq
  have herase : q.erase = q := hwell.erase_eq_self hd
  refine ⟨q, hq, ?_, hwell.definitions⟩
  have hdefinitions : q.definitions.map Definition.erase = q.definitions :=
    congrArg Program.definitions herase
  rw [← hdefinitions, hsame, List.map_map]
  apply List.map_congr_left
  intro x hx
  exact ((hxs x hx).squeeze).erase_withoutComma hd

end Trivialess

theorem wellFormed_merge {d : Dialect} {o : RenderOptions} {xs : List Definition}
    (hxs : ∀ x ∈ xs, x.WellFormed d) (hfit : o.mergePartials → Fitting [] xs) :
    ∀ x ∈ (o.merge xs).definitions, x.WellFormed d := by
  have hempty : Stands [] {} := .nil
  unfold RenderOptions.merge
  cases hmerge : o.mergePartials with
  | false => exact hxs
  | true => exact wellFormed_foldl hempty (by simp) hxs (hfit hmerge)

theorem merge_of_canonical {o : RenderOptions} {xs : List Definition}
    (hxs : o.mergePartials → ∀ x ∈ xs, x.isPartial = false) : o.merge xs = ⟨xs, []⟩ := by
  unfold RenderOptions.merge
  cases hmerge : o.mergePartials with
  | false => rfl
  | true => exact mergePartials_of_canonical (hxs hmerge)

/-- What has been laid out is parsed into definitions that are partial alike and laid out alike. -/
theorem exists_parseText_layOut {o : RenderOptions} (hd : o.dialect.keepTrivia = false)
    {xs : List Definition} (hxs : ∀ x ∈ xs, x.WellFormed o.dialect) :
    ∃ q, parseText o.dialect (o.layOut (writeDefinitions xs)) = .ok q ∧
      q.definitions.map Definition.isPartial = xs.map Definition.isPartial ∧
      o.layOut (writeDefinitions q.definitions) = o.layOut (writeDefinitions xs) := by
  unfold RenderOptions.layOut
  cases o.pretty with
  | false =>
    have hparse := @parseText_writeDefinitions_of_wellFormed o.dialect ⟨xs, []⟩ hd ⟨hxs, by simp [hd]⟩
    exact ⟨_, hparse, rfl, rfl⟩
  | true =>
    obtain ⟨q, hq, hdefinitions, hread⟩ :=
      @parseText_print_of_wellFormed _ hd Layout.standardIndent _ hxs
    refine ⟨q, hq, ?_, ?_⟩
    · rw [hdefinitions, List.map_map]
      exact List.map_congr_left fun x _ => isPartial_squeeze_withoutComma x
    · apply String.toList_inj.mp
      simp only [if_true]
      rw [Layout.toList_print hread (by simp [hd]), Layout.toList_print hxs (by simp [hd]),
        hdefinitions, laidProgram_printed]

/-- Rendering an index gives the index again, without warnings, if its definitions could be written
without escape marks and its partial definitions fit their targets. -/
theorem render_render {o : RenderOptions} {text : String} {r : Rendered}
    (hd : o.dialect.keepTrivia = false) (h : render o text = .ok r)
    (hplain : ∃ plain, Unescaped plain ∧ parseText o.dialect plain = parseText o.dialect text)
    (hfit : o.mergePartials → ∀ p, parseText o.dialect text = .ok p → Fitting [] p.definitions) :
    render o r.text = .ok ⟨r.text, []⟩ := by
  obtain ⟨plain, hplain, hsame⟩ := hplain
  rw [render_eq] at h
  obtain ⟨p, hp, rfl⟩ := exists_of_map_eq_ok h
  have hxs := (wellFormed_of_parseText hplain (hsame.trans hp)).definitions
  have hmerged := wellFormed_merge hxs fun hmerge => hfit hmerge p hp
  obtain ⟨q, hq, hpartial, hagain⟩ := exists_parseText_layOut hd hmerged
  -- nothing in the index is partial, so that there is nothing left to merge
  have hcanonical : o.mergePartials → ∀ x ∈ q.definitions, x.isPartial = false := by
    intro hmerge
    rw [← List.forall_mem_map (f := Definition.isPartial) (P := (· = false)), hpartial,
      List.forall_mem_map]
    intro x hx
    rw [RenderOptions.merge, if_pos hmerge] at hx
    exact isPartial_of_mem_mergePartials hx
  rw [render_eq, RenderOptions.rendered, hq]
  simp only [Except.map, RenderOptions.rendered, merge_of_canonical hcanonical, hagain]

/-- The second index has the squeezed members and the merged ones, and no more warnings. -/
theorem render_render_dictionary :
    ∃ r, render {} ("enum E \x7b \"p\", \x7d; " ++
          "dictionary D \x7b [A(optional E s = \"a  b\")] long x; \x7d; " ++
          "partial dictionary D \x7b required E[] y; \x7d; partial interface I \x7b\x7d;") = .ok r ∧
      r = ⟨"enum E \x7b\n    \"p\"\n\x7d;\n\ndictionary D \x7b\n" ++
        "    [A(optional E s = \"a b\")] long x;\n    required E[]                   y;\n\x7d;\n\n",
          [⟨"I"⟩]⟩ ∧
      render {} r.text = .ok ⟨r.text, []⟩ := by
  obtain ⟨r, hr, htext⟩ := @exists_of_map_eq_ok _ _ _ (fun r : Rendered => r)
    (render {} ("enum E \x7b \"p\", \x7d; " ++
      "dictionary D \x7b [A(optional E s = \"a  b\")] long x; \x7d; " ++
      "partial dictionary D \x7b required E[] y; \x7d; partial interface I \x7b\x7d;"))
    ⟨"enum E \x7b\n    \"p\"\n\x7d;\n\ndictionary D \x7b\n" ++
      "    [A(optional E s = \"a b\")] long x;\n    required E[]                   y;\n\x7d;\n\n",
        [⟨"I"⟩]⟩ (by decide +kernel)
  obtain ⟨p, hp, hfit⟩ := @exists_of_map_eq_ok _ _ _
    (fun p : Program => decide (Fitting [] p.definitions))
    (parseText {} ("enum E \x7b \"p\", \x7d; " ++
      "dictionary D \x7b [A(optional E s = \"a  b\")] long x; \x7d; " ++
      "partial dictionary D \x7b required E[] y; \x7d; partial interface I \x7b\x7d;"))
    true (by decide +kernel)
  refine ⟨r, hr, htext, render_render rfl hr ⟨_, by decide +kernel, rfl⟩ fun _ p' hp' => ?_⟩
  obtain rfl : p = p' := Except.ok.inj (hp.symm.trans hp')
  exact of_decide_eq_true hfit

/-- A member that its body may not hold is not read again, and a name that needs its mark is read as
another name. -/
theorem render_render_ne :
    (∃ r, render {} "interface A \x7b\x7d; partial dictionary A \x7b long x; \x7d;" = .ok r ∧
        (render {} r.text).isOk = false) ∧
      ∃ r r', render {} "interface __A \x7b\x7d;" = .ok r ∧ render {} r.text = .ok r' ∧
        r'.text ≠ r.text := by
  constructor
  · obtain ⟨r, hr, htext⟩ := @exists_of_map_eq_ok _ _ _ Rendered.text
      (render {} "interface A \x7b\x7d; partial dictionary A \x7b long x; \x7d;")
      "interface A \x7b\n    long x;\n\x7d;\n\n" (by decide +kernel)
    refine ⟨r, hr, ?_⟩
    rw [htext]
    decide +kernel
  · obtain ⟨r, hr, htext⟩ := @exists_of_map_eq_ok _ _ _ Rendered.text
      (render {} "interface __A \x7b\x7d;") "interface _A \x7b\n\x7d;\n\n" (by decide +kernel)
    obtain ⟨r', hr', htext'⟩ := @exists_of_map_eq_ok _ _ _ Rendered.text
      (render {} "interface _A \x7b\n\x7d;\n\n") "interface A \x7b\n\x7d;\n\n" (by decide +kernel)
    refine ⟨r, r', hr, by rw [htext, hr'], ?_⟩
    rw [htext, htext']
    decide

end WebIdl

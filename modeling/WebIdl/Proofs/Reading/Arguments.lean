import WebIdl.Grammar.Attributes
import WebIdl.Proofs.Erasure
import WebIdl.Proofs.Reading.Literals
import WebIdl.Proofs.Reading.Types

/-!
# Reading written arguments and extended attributes

What is read back is the tree that was written, up to trivia. Where the blanks are those of the
written list too, the answer is written with the same tokens: trivia comes back into its slot, and
a blank that stood for an empty slot becomes the trivia of that slot.
-/

namespace WebIdl.Spelling

open Token

/-- Trivia, or one blank where there is none. -/
def filled (items : List Trivia) : List Trivia :=
  if items.isEmpty then [.whitespace " "] else items

theorem filled_filled (items : List Trivia) : filled (filled items) = filled items := by
  cases items <;> rfl

theorem isRun_filled {items : List Trivia} (h : Trivia.IsRun items) :
    Trivia.IsRun (filled items) := by
  cases items with
  | nil => exact .blanks (by simp) (by simp [Text.isBlank]) (by simp) .nil
  | cons t items => exact h

theorem closed_filled {items : List Trivia} (h : Trivia.Closed items) :
    Trivia.Closed (filled items) := by
  cases items with
  | nil => trivial
  | cons t items => exact h

theorem bracketed_of_ne_nil {ts : List Token} (h : ts ≠ []) (after : List Trivia) :
    bracketed ts after = mark "[" :: ts ++ mark "]" :: trivia (filled after) := by
  rw [bracketed, if_neg (by simpa using h)]
  cases after <;> rfl

/-- An argument behind the trivia in front of it. -/
def argumentBody (a : Argument) : List Token :=
  bracketed (ofAttributes a.extAttrs) a.afterAttrs ++ (wordIf a.optional "optional" ++
    (ofType a.type ++ ((if a.variadic then [mark ".", mark ".", mark "."] else []) ++
      (space :: word a.name :: (ofDefault a.default ++ trivia a.trailing)))))

theorem ofArgument_eq (a : Argument) : ofArgument a = trivia a.leading ++ argumentBody a := by
  cases a
  simp [ofArgument, argumentBody]

theorem ofArguments_cons (a : Argument) (as : List Argument) :
    ofArguments (a :: as) = trivia a.leading ++ argumentBody a ++
      as.flatMap fun a => mark "," :: (trivia (filled a.leading) ++ argumentBody a) := by
  have hmore : ∀ as, ofMoreArguments as =
      as.flatMap fun a => mark "," :: (trivia (filled a.leading) ++ argumentBody a) := by
    intro as
    induction as with
    | nil => rfl
    | cons a as ih =>
      rw [ofMoreArguments, ofArgument_eq, ih, List.flatMap_cons, filled]
      cases a.leading <;> simp [space, Trivia.token, Trivia.text]
  rw [ofArguments, ofArgument_eq, hmore]

theorem ofAttribute_eq (e : ExtendedAttribute) :
    ofAttribute e = word e.name :: (ofValue e.value ++ ofParameters e.parameters) := by
  cases e
  simp [ofAttribute]

theorem ofAttributes_cons (e : ExtendedAttribute) (es : List ExtendedAttribute) :
    ofAttributes (e :: es) =
      ofAttribute e ++ es.flatMap fun e => mark "," :: space :: ofAttribute e := by
  induction es generalizing e with
  | nil => simp [ofAttributes]
  | cons f fs ih => simp [ofAttributes, ih f]

theorem ofAttributes_ne_nil {es : List ExtendedAttribute} (h : es ≠ []) : ofAttributes es ≠ [] := by
  obtain ⟨e, es, rfl⟩ := List.exists_cons_of_ne_nil h
  rw [ofAttributes_cons, ofAttribute_eq]
  exact List.cons_ne_nil _ _

theorem joined_cons (separator ts : List Token) (tss : List (List Token)) :
    joined separator (ts :: tss) = ts ++ tss.flatMap (separator ++ ·) := by
  induction tss generalizing ts with
  | nil => simp [joined]
  | cons us tss ih => simp [joined, ih us]

end WebIdl.Spelling

namespace WebIdl.Grammar

open Token Cursor Spelling

variable {α γ : Type} {exact : Bool} {d : Dialect} {c : Cursor} {ts us : List Token}

theorem reads_keyword_wordIf {flag : Bool} {w : String} {Q : Bool → Cursor → Prop}
    (hc : Near exact c (wordIf flag w ++ us))
    (hus : flag = false → (core us).head? ≠ some (word w))
    (h : ∀ c', Near exact c' us → Q flag c') : Reads c (keyword w) Q := by
  cases flag with
  | true => exact reads_keyword hc rfl fun c' hc' => h c' hc'.toNear.of_space
  | false => exact reads_keyword_none hc (hus rfl) fun c' hc' => h c' hc'.near

/-- Items behind commas. What follows an item is a comma or the end of the list. -/
theorem reads_afterCommas {item : Reader α} {f : γ → List Token} {R : γ → α → Prop}
    {gs : List γ} {Q : List α → Cursor → Prop} (hus : (core us).head? ≠ some (mark ","))
    (hitem : ∀ g ∈ gs, ∀ c vs, vs = us ∨ (∃ ws, vs = mark "," :: ws) →
      At exact c (f g ++ vs) → Reads c item fun a c' => R g a ∧ Near exact c' vs)
    (hc : Near exact c (gs.flatMap (fun g => mark "," :: f g) ++ us))
    (h : ∀ as c', List.Forall₂ R gs as → Near exact c' us → Q as c') :
    Reads c (afterCommas item) Q := by
  have hlen : gs.length ≤ c.remaining := by
    have hle := @length_le_solids_flatMap _ (fun g => mark "," :: f g) gs (by simp)
    have := hc.length_le
    rw [solids_append, List.length_append] at this
    omega
  rw [afterCommas]
  refine (reads_many
    (P := fun hs c => (∀ g ∈ hs, g ∈ gs) ∧
      Near exact c (hs.flatMap (fun g => mark "," :: f g) ++ us))
    (Q := fun c' => Near exact c' us) ?_ ?_ hlen ⟨fun g hg => hg, hc⟩).mono
    fun as c' has => h as c' has.1 has.2
  · rintro g hs c ⟨hmem, hc⟩
    obtain ⟨hg, hhs⟩ := List.forall_mem_cons.mp hmem
    simp only [List.flatMap_cons, List.cons_append, List.append_assoc] at hc
    refine reads_bind.mpr (reads_symbol hc rfl fun c1 hc1 => reads_bind.mpr ?_)
    refine (hitem g hg c1 _ ?_ hc1).mono fun a c2 ha => reads_pure.mpr ⟨a, rfl, ha.1, hhs, ha.2⟩
    cases hs with
    | nil => exact Or.inl rfl
    | cons => exact Or.inr ⟨_, rfl⟩
  · rintro c ⟨-, hc⟩
    refine reads_bind.mpr (reads_symbol_none hc hus fun c1 hc1 => ?_)
    exact reads_pure.mpr ⟨rfl, hc1.near⟩

theorem reads_moreNames {f : String → List Token} (hf : ∀ n vs, core (f n ++ vs) = word n :: vs)
    {ns : List String} {Q : List String → Cursor → Prop} (hns : ∀ n ∈ ns, IsName n)
    (hus : (core us).head? ≠ some (mark ","))
    (hc : Near exact c (ns.flatMap (fun n => mark "," :: f n) ++ us))
    (h : ∀ c', Near exact c' us → Q ns c') : Reads c moreNames Q := by
  refine reads_afterCommas (R := Eq) hus ?_ hc fun as c' has hc' => ?_
  · intro n hn c vs _ hc
    exact reads_expectIdentifier hc.toNear (hf n vs) (hns n hn).unescape_word
      fun c' hc' => ⟨rfl, hc'.toNear⟩
  · rw [List.forall₂_eq_eq_eq] at has
    exact has ▸ h c' hc'

theorem reads_nameList {ns : List String} {Q : List String → Cursor → Prop}
    (hns : ∀ n ∈ ns, IsName n)
    (hc : Near exact c (joined [mark ","] (ns.map fun n => [word n]) ++ mark ")" :: us))
    (h : ∀ c', Near exact c' (mark ")" :: us) → Q ns c') : Reads c nameList Q := by
  have hus : (core (mark ")" :: us)).head? ≠ some (mark ",") := by simp
  rw [nameList, reads_bind]
  cases ns with
  | nil =>
    refine reads_identifier_mark hc rfl fun c1 hc1 => reads_bind.mpr ?_
    exact reads_moreNames (f := fun n => [word n]) (fun n vs => core_word n vs) hns hus hc1
      fun c2 hc2 => reads_pure.mpr (h c2 hc2)
  | cons n ns =>
    obtain ⟨hn, hns⟩ := List.forall_mem_cons.mp hns
    rw [List.map_cons, joined_cons, List.flatMap_map, List.singleton_append] at hc
    refine reads_identifier hc rfl hn.unescape_word fun c1 hc1 => reads_bind.mpr ?_
    exact reads_moreNames (fun n vs => core_word n vs) hns hus hc1.toNear
      fun c2 hc2 => reads_pure.mpr (h c2 hc2)

theorem reads_attributeValue {v : AttributeValue} {Q : AttributeValue → Cursor → Prop}
    (hv : v.WellFormed) (hus : (core us).head? ≠ some (mark "="))
    (hc : Near exact c (ofValue v ++ us)) (h : ∀ c', Near exact c' us → Q v c') :
    Reads c attributeValue Q := by
  rw [attributeValue, reads_bind]
  cases v with
  | absent => exact reads_symbol_none hc hus fun c1 hc1 => reads_pure.mpr (h c1 hc1.near)
  | identifier name =>
    refine reads_symbol hc rfl fun c1 hc1 => reads_bind.mpr ?_
    exact reads_identifier hc1.toNear rfl (IsName.unescape_word hv)
      fun c2 hc2 => reads_pure.mpr (h c2 hc2.toNear)
  | identifierList names =>
    simp only [ofValue, List.cons_append, List.append_assoc, List.nil_append] at hc
    refine reads_symbol hc rfl fun c1 hc1 => reads_bind.mpr ?_
    refine reads_identifier_mark hc1.toNear rfl fun c2 hc2 => reads_bind.mpr ?_
    refine reads_symbol hc2 rfl fun c3 hc3 => reads_bind.mpr ?_
    refine reads_nameList hv hc3.toNear fun c4 hc4 => reads_bind.mpr ?_
    exact reads_expectSymbol hc4 rfl fun c5 hc5 => reads_pure.mpr (h c5 hc5.toNear)

/-- Points that follow each other directly. -/
theorem reads_point {Q : Option Token → Cursor → Prop} (hc : Near exact c (mark "." :: us))
    (h : ∀ c', At exact c' us → Q (some (mark ".")) c') :
    Reads c (token .other (some ".")) Q := by
  obtain ⟨rest, hrest, hat⟩ := hc.exists_rest (core_mark "." us)
  rw [hc.point (core_mark "." us)] at hrest
  exact reads_token_some (t := mark ".") hrest rfl (by simp [mark]) (h _ (hat _ _))

theorem reads_ellipsis {Q : Bool → Cursor → Prop}
    (hc : Near exact c (mark "." :: mark "." :: mark "." :: us))
    (h : ∀ c', At exact c' us → Q true c') : Reads c ellipsis Q := by
  rw [ellipsis, reads_bind, reads_skip, reads_bind]
  refine reads_attempt (reads_bind.mpr ?_)
  refine reads_point hc.skip_near fun c1 hc1 => reads_bind.mpr ?_
  refine reads_point hc1.toNear fun c2 hc2 => ?_
  exact reads_point hc2.toNear fun c3 hc3 => ⟨_, rfl, reads_pure.mpr (h c3 hc3)⟩

theorem reads_ellipsis_none {Q : Bool → Cursor → Prop} (hc : Near exact c ts)
    (hts : (core ts).head? ≠ some (mark ".")) (h : ∀ c', Near exact c' ts → Q false c') :
    Reads c ellipsis Q := by
  rw [ellipsis, reads_bind, reads_skip, reads_bind]
  refine reads_attempt_none (reads_bind.mpr (reads_token_none ?_ ?_))
    (reads_pure.mpr (h _ hc.skip_near))
  · rintro ⟨kind, text⟩ ht rfl htext
    rw [after_skip, hc.head?_eq] at ht
    simp only [Option.all_some, decide_eq_true_eq] at htext
    exact hts (htext ▸ ht)
  · exact reads_bind.mpr (reads_pure.mpr (reads_pure.mpr rfl))

end WebIdl.Grammar

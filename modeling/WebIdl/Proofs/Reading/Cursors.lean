import WebIdl.Grammar.Reader
import WebIdl.Proofs.Lexing.Lexable

/-!
# Cursors in front of written tokens

A reader sees the tokens of a written list through the tokens that its text is cut into. `Near`
says that a cursor stands in front of the same tokens as a list, up to the blanks; where `exact` is
set, the blanks behind each token are the same too. `At` adds the blanks in front of the first
token, which only a reader that keeps trivia looks at.
-/

namespace WebIdl.Token

open Spelling

@[simp] theorem word_inj {s t : String} : word s = word t ↔ s = t := by
  simp [word]

@[simp] theorem mark_inj {s t : String} : mark s = mark t ↔ s = t := by
  simp [mark]

@[simp] theorem word_ne_mark {s t : String} : word s ≠ mark t := by
  simp [word, mark]

@[simp] theorem mark_ne_word {s t : String} : mark s ≠ word t := by
  simp [word, mark]

theorem isWhitespace_ofNumeral (s : String) : (ofNumeral s).isWhitespace = false := by
  simp only [ofNumeral]
  split <;> rfl

@[simp] theorem core_word (s : String) (ts : List Token) : core (word s :: ts) = word s :: ts :=
  rfl

@[simp] theorem core_mark (s : String) (ts : List Token) : core (mark s :: ts) = mark s :: ts :=
  rfl

@[simp] theorem core_quoted (s : String) (ts : List Token) :
    core (quoted s :: ts) = quoted s :: ts :=
  rfl

@[simp] theorem core_ofNumeral (s : String) (ts : List Token) :
    core (ofNumeral s :: ts) = ofNumeral s :: ts :=
  core_cons_of_solid (isWhitespace_ofNumeral s)

@[simp] theorem core_space (ts : List Token) : core (space :: ts) = core ts :=
  rfl

@[simp] theorem core_core (ts : List Token) : core (core ts) = core ts := by
  cases h : core ts with
  | nil => rfl
  | cons t us => exact core_cons_of_solid (core_eq_cons_iff_head h)

@[simp] theorem core_trivia_append (items : List Trivia) (us : List Token) :
    core (trivia items ++ us) = core us := by
  induction items with
  | nil => rfl
  | cons t items ih => rw [trivia_cons, List.cons_append, core_cons_of_blank rfl, ih]

@[simp] theorem solids_word (s : String) (ts : List Token) :
    solids (word s :: ts) = word s :: solids ts :=
  rfl

@[simp] theorem solids_mark (s : String) (ts : List Token) :
    solids (mark s :: ts) = mark s :: solids ts :=
  rfl

@[simp] theorem solids_quoted (s : String) (ts : List Token) :
    solids (quoted s :: ts) = quoted s :: solids ts :=
  rfl

@[simp] theorem solids_ofNumeral (s : String) (ts : List Token) :
    solids (ofNumeral s :: ts) = ofNumeral s :: solids ts :=
  solids_cons_of_solid (isWhitespace_ofNumeral s)

@[simp] theorem solids_space (ts : List Token) : solids (space :: ts) = solids ts :=
  rfl

@[simp] theorem solids_trivia (items : List Trivia) : solids (trivia items) = [] := by
  induction items with
  | nil => rfl
  | cons t items ih => rw [trivia_cons, solids_cons_of_blank rfl, ih]

/-- A list of items has at least as many tokens as items, if none of them is blank. -/
theorem length_le_solids_flatMap {α : Type} {f : α → List Token} {xs : List α}
    (h : ∀ x ∈ xs, solids (f x) ≠ []) : xs.length ≤ (solids (xs.flatMap f)).length := by
  induction xs with
  | nil => exact Nat.zero_le _
  | cons x xs ih =>
    have hx := List.length_pos_iff.mpr (h x List.mem_cons_self)
    have hxs := ih fun y hy => h y (List.mem_cons_of_mem x hy)
    rw [List.flatMap_cons, solids_append, List.length_append, List.length_cons]
    omega

end WebIdl.Token

namespace WebIdl.Cursor

open Token

variable {exact : Bool} {c : Cursor} {ts us : List Token} {t : Token}

structure Near (exact : Bool) (c : Cursor) (ts : List Token) : Prop where
  solids : Token.solids c.after = Token.solids ts
  tight : Tight c.after
  blanks : exact → (spaced c.after).2 = (spaced ts).2

structure At (exact : Bool) (c : Cursor) (ts : List Token) : Prop extends Near exact c ts where
  gap : exact → (spaced c.after).1 = (spaced ts).1

theorem near_core_iff : Near exact c (core ts) ↔ Near exact c ts := by
  constructor <;> rintro ⟨hsolids, htight, hblanks⟩
  · exact ⟨by rw [hsolids, solids_core], htight, fun hx => by rw [hblanks hx, spaced_core]⟩
  · exact ⟨by rw [hsolids, solids_core], htight, fun hx => by rw [hblanks hx, spaced_core]⟩

theorem Near.of_core_eq (h : Near exact c ts) (heq : core ts = core us) : Near exact c us := by
  rw [← near_core_iff, ← heq, near_core_iff]
  exact h

theorem Near.of_space (h : Near exact c (Spelling.space :: ts)) : Near exact c ts :=
  h.of_core_eq rfl

theorem At.near (h : At exact c (core ts)) : Near exact c ts :=
  near_core_iff.mp h.toNear

theorem At.of_core (h : At exact c (core ts)) (hts : exact → core ts = ts) : At exact c ts := by
  refine ⟨h.near, fun hx => ?_⟩
  rw [h.gap hx, hts hx]

theorem at_of_spaced_eq (hsolids : Token.solids c.after = Token.solids ts) (htight : Tight c.after)
    (hspaced : exact → spaced c.after = spaced ts) : At exact c ts :=
  ⟨⟨hsolids, htight, fun hx => by rw [hspaced hx]⟩, fun hx => by rw [hspaced hx]⟩

@[simp] theorem after_skip (c : Cursor) : c.skip.after = core c.after := rfl

/-- Behind its blanks a cursor stands exactly in front of the first token. -/
theorem Near.skip (h : Near exact c ts) : At exact c.skip (core ts) := by
  refine at_of_spaced_eq ?_ (h.tight.suffix (core_suffix _)) fun hx => ?_
  · rw [after_skip, solids_core, solids_core, h.solids]
  · rw [after_skip, spaced_core, spaced_core, h.blanks hx]

theorem Near.skip_near (h : Near exact c ts) : Near exact c.skip ts :=
  near_core_iff.mp h.skip.toNear

/-- The next token of a cursor is that of the list, and behind it the two still agree. -/
theorem Near.exists_rest (h : Near exact c ts) (hts : core ts = t :: us) :
    ∃ rest, core c.after = t :: rest ∧ ∀ before line, At exact ⟨before, rest, line⟩ us := by
  have hsolid := core_eq_cons_iff_head hts
  have hhead : (core c.after).head? = some t := by
    rw [head?_core, h.solids, ← head?_core, hts]
    rfl
  obtain ⟨rest, hrest⟩ := List.head?_eq_some_iff.mp hhead
  refine ⟨rest, hrest, fun before line => at_of_spaced_eq ?_ ?_ fun hx => ?_⟩
  · have heq := h.solids
    rw [← solids_core c.after, ← solids_core ts, hrest, hts, solids_cons_of_solid hsolid,
      solids_cons_of_solid hsolid] at heq
    exact (List.cons.inj heq).2
  · exact (h.tight.suffix (core_suffix _)).suffix (hrest ▸ List.suffix_cons t rest)
  · have heq := h.blanks hx
    rw [← Prod.ext_iff.mp (spaced_core c.after) |>.2, ← Prod.ext_iff.mp (spaced_core ts) |>.2,
      hrest, hts, spaced_cons_of_solid hsolid, spaced_cons_of_solid hsolid] at heq
    exact Prod.ext (Prod.ext_iff.mp (List.cons.inj heq).1).2 (List.cons.inj heq).2

theorem Near.head?_eq (h : Near exact c ts) : (core c.after).head? = (core ts).head? := by
  rw [head?_core, head?_core, h.solids]

/-- As many tokens are left as the list has, if not more. -/
theorem Near.length_le (h : Near exact c ts) : (Token.solids ts).length ≤ c.remaining := by
  rw [← h.solids]
  exact List.length_filter_le _ _

/-- A point has no blanks in front of it. -/
theorem Near.point (h : Near exact c ts) (hts : core ts = mark "." :: us) :
    core c.after = c.after := by
  have hsolids : Token.solids c.after = mark "." :: Token.solids us := by
    rw [h.solids, ← solids_core, hts]
    rfl
  obtain ⟨hhead, hsolid⟩ := h.tight.head_eq hsolids
  cases hafter : c.after with
  | nil => rfl
  | cons t rest =>
    refine core_cons_of_solid (Bool.eq_false_iff.mpr fun hb => hsolid t ?_ hb)
    rw [hafter]
    rfl

end WebIdl.Cursor

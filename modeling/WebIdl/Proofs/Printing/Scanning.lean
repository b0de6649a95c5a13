import WebIdl.Layout.Exposure
import WebIdl.Trivia
import WebIdl.Proofs.Lexing.Gaps

/-!
# Scanning for exposed characters

`Passes` says that the scan gets over a text at any depth of brackets, and what it exposes on the
way. Texts that are passed may be put in a row or into brackets. Cuts at an exposed character fall
where no text in front of it exposes that character.
-/

namespace WebIdl.Layout

open Text Lexer

/-- The scan comes out of the text as it went in, at any depth. At depth zero it exposes only
characters of which `P` holds, and elsewhere none. -/
def Passes (P : Char → Prop) (cs : List Char) : Prop :=
  ∀ k rest, ∃ fs, expose (.code k) (cs ++ rest) = fs ++ expose (.code k) rest ∧
    fs.map Prod.fst = cs ∧ ∀ f ∈ fs, f.2 → k = 0 ∧ P f.1

variable {P Q : Char → Prop} {cs ds rest : List Char} {c : Char}

theorem passes_nil : Passes P [] :=
  fun _ _ => ⟨[], rfl, rfl, by simp⟩

theorem Passes.mono (h : Passes P cs) (hPQ : ∀ c, P c → Q c) : Passes Q cs := by
  intro k rest
  obtain ⟨fs, heq, hmap, hfs⟩ := h k rest
  exact ⟨fs, heq, hmap, fun f hf hexposed => (hfs f hf hexposed).imp_right (hPQ f.1)⟩

theorem Passes.append (h : Passes P cs) (h' : Passes P ds) : Passes P (cs ++ ds) := by
  intro k rest
  obtain ⟨fs, heq, hmap, hfs⟩ := h k (ds ++ rest)
  obtain ⟨gs, heq', hmap', hgs⟩ := h' k rest
  refine ⟨fs ++ gs, ?_, by rw [List.map_append, hmap, hmap'], ?_⟩
  · rw [List.append_assoc, heq, heq', List.append_assoc]
  · intro f hf
    rcases List.mem_append.mp hf with hf | hf
    · exact hfs f hf
    · exact hgs f hf

/-- A character that the scan reads as it is, and that is no bracket. -/
def IsPlain (c : Char) : Prop :=
  c ≠ '"' ∧ c ≠ '/' ∧ isOpening c = false ∧ isClosing c = false

instance (c : Char) : Decidable (IsPlain c) :=
  inferInstanceAs (Decidable (_ ∧ _))

theorem expose_code_of_ne (k : Nat) (hquote : c ≠ '"') (hslash : c ≠ '/') (rest : List Char) :
    expose (.code k) (c :: rest) =
      (c, k == 0 && !isClosing c) :: expose (.code (depthAfter k c)) rest := by
  rw [expose]
  · rw [if_neg hquote]
  · rintro _ rfl
    exact fun _ => hslash rfl
  · rintro _ rfl
    exact fun _ => hslash rfl

theorem expose_plain (k : Nat) (hc : IsPlain c) (rest : List Char) :
    expose (.code k) (c :: rest) = (c, k == 0) :: expose (.code k) rest := by
  obtain ⟨hquote, hslash, hopening, hclosing⟩ := hc
  rw [expose_code_of_ne k hquote hslash]
  simp [depthAfter, hopening, hclosing]

theorem passes_plain (hcs : ∀ c ∈ cs, IsPlain c ∧ P c) : Passes P cs := by
  induction cs with
  | nil => exact passes_nil
  | cons c cs ih =>
    intro k rest
    obtain ⟨hc, hcs⟩ := List.forall_mem_cons.mp hcs
    obtain ⟨fs, heq, hmap, hfs⟩ := ih hcs k rest
    refine ⟨(c, k == 0) :: fs, ?_, by rw [List.map_cons, hmap], ?_⟩
    · rw [List.cons_append, expose_plain k hc.1, heq, List.cons_append]
    · simpa [hc.2] using hfs

/-- Strings are passed without exposing anything. -/
theorem passes_string (hs : '"' ∉ cs) : Passes P ('"' :: (cs ++ ['"'])) := by
  have hbody : ∀ {cs : List Char} (k : Nat) (rest : List Char), '"' ∉ cs →
      expose (.string k) (cs ++ '"' :: rest) =
        cs.map (·, false) ++ ('"', false) :: expose (.code k) rest := by
    intro cs k rest hs
    induction cs with
    | nil => rw [List.nil_append, expose, if_pos rfl, List.map_nil, List.nil_append]
    | cons c cs ih =>
      rw [List.mem_cons, not_or] at hs
      rw [List.cons_append, expose, if_neg (Ne.symm hs.1), ih hs.2, List.map_cons, List.cons_append]
  intro k rest
  refine ⟨('"', false) :: (cs.map (·, false) ++ [('"', false)]), ?_,
    by simp [Function.comp_def], by simp⟩
  have hopen : expose (.code k) ('"' :: (cs ++ '"' :: rest)) =
      ('"', false) :: expose (.string k) (cs ++ '"' :: rest) := by
    rw [expose] <;> simp
  simp only [List.cons_append, List.append_assoc, List.nil_append]
  rw [hopen, hbody k rest hs]

/-- The brackets of each kind. -/
def brackets : List (Char × Char) :=
  [('(', ')'), ('[', ']'), ('\x7b', '\x7d')]

theorem expose_opening {o e : Char} (hb : (o, e) ∈ brackets) (k : Nat) (rest : List Char) :
    expose (.code k) (o :: rest) = (o, k == 0) :: expose (.code (k + 1)) rest := by
  simp only [brackets, List.mem_cons, Prod.mk.injEq, List.not_mem_nil, or_false] at hb
  rcases hb with ⟨rfl, rfl⟩ | ⟨rfl, rfl⟩ | ⟨rfl, rfl⟩ <;>
    rw [expose_code_of_ne k (by decide) (by decide)] <;> simp [depthAfter, isOpening, isClosing]

theorem expose_closing {o e : Char} (hb : (o, e) ∈ brackets) (k : Nat) (rest : List Char) :
    expose (.code (k + 1)) (e :: rest) = (e, false) :: expose (.code k) rest := by
  simp only [brackets, List.mem_cons, Prod.mk.injEq, List.not_mem_nil, or_false] at hb
  rcases hb with ⟨rfl, rfl⟩ | ⟨rfl, rfl⟩ | ⟨rfl, rfl⟩ <;>
    rw [expose_code_of_ne _ (by decide) (by decide)] <;> simp [depthAfter, isOpening, isClosing]

/-- Of a text in brackets only the opening one may be exposed. -/
theorem Passes.bracketed {o e : Char} (h : Passes P cs) (hb : (o, e) ∈ brackets) (ho : Q o) :
    Passes Q (o :: (cs ++ [e])) := by
  intro k rest
  obtain ⟨fs, heq, hmap, hfs⟩ := h (k + 1) (e :: rest)
  refine ⟨(o, k == 0) :: (fs ++ [(e, false)]), ?_, by simp [hmap], ?_⟩
  · rw [List.cons_append, List.append_assoc, expose_opening hb, List.cons_append, List.nil_append, heq,
      expose_closing hb]
    simp
  · simp only [List.mem_cons, List.mem_append, List.not_mem_nil, or_false]
    rintro f (rfl | hf | rfl) hexposed
    · exact ⟨by simpa using hexposed, ho⟩
    · exact absurd (hfs f hf hexposed).1 (Nat.succ_ne_zero k)
    · cases hexposed

theorem passes_blockComment (hs : CommentBody cs) : Passes P ('/' :: '*' :: (cs ++ ['*', '/'])) := by
  have hbody : ∀ {cs : List Char} (k : Nat) (rest : List Char), CommentBody cs →
      expose (.blockComment k) (cs ++ '*' :: '/' :: rest) =
        cs.map (·, false) ++ ('*', false) :: ('/', false) :: expose (.code k) rest := by
    intro cs k rest hs
    induction cs with
    | nil => rw [List.nil_append, expose, List.map_nil, List.nil_append]
    | cons c cs ih =>
      rw [List.cons_append, expose, ih hs.tail, List.map_cons, List.cons_append]
      rintro tail rfl heq
      cases cs with
      | nil => cases heq
      | cons d ds =>
        obtain rfl : d = '/' := (List.cons.inj heq).1
        exact hs ⟨[], ds, rfl⟩
  intro k rest
  refine ⟨('/', false) :: ('*', false) :: (cs.map (·, false) ++ [('*', false), ('/', false)]), ?_,
    by simp [Function.comp_def], by simp⟩
  simp only [List.cons_append, List.append_assoc, List.nil_append]
  rw [expose, hbody k rest hs]

/-- What stands behind plain characters is passed if both are. -/
theorem Passes.of_plain_append (h : Passes P (cs ++ ds)) (hcs : ∀ c ∈ cs, IsPlain c) :
    Passes P ds := by
  induction cs with
  | nil => exact h
  | cons c cs ih =>
    obtain ⟨hc, hcs⟩ := List.forall_mem_cons.mp hcs
    refine ih (fun k rest => ?_) hcs
    obtain ⟨fs, heq, hmap, hfs⟩ := h k rest
    cases fs with
    | nil => cases hmap
    | cons f fs =>
      rw [List.cons_append, List.cons_append, expose_plain k hc, List.cons_append] at heq
      exact ⟨fs, (List.cons.inj heq).2, (List.cons.inj hmap).2,
        fun g hg => hfs g (List.mem_cons_of_mem f hg)⟩

/-- A line comment is passed together with the line feed that ends it. -/
theorem passes_lineComment (hcs : '\n' ∉ cs) (hfeed : P '\n') (h : Passes P ds) :
    Passes P ('/' :: '/' :: (cs ++ '\n' :: ds)) := by
  have hbody : ∀ {cs : List Char} (k : Nat) (rest : List Char), '\n' ∉ cs →
      expose (.lineComment k) (cs ++ '\n' :: rest) =
        cs.map (·, false) ++ ('\n', k == 0) :: expose (.code k) rest := by
    intro cs k rest hcs
    induction cs with
    | nil => rw [List.nil_append, expose, if_pos rfl, List.map_nil, List.nil_append]
    | cons c cs ih =>
      rw [List.mem_cons, not_or] at hcs
      rw [List.cons_append, expose, if_neg (Ne.symm hcs.1), ih hcs.2, List.map_cons,
        List.cons_append]
  intro k rest
  obtain ⟨fs, heq, hmap, hfs⟩ := h k rest
  refine ⟨('/', false) :: ('/', false) :: (cs.map (·, false) ++ ('\n', k == 0) :: fs), ?_,
    by simp [Function.comp_def, hmap], ?_⟩
  · simp only [List.cons_append, List.append_assoc]
    rw [expose, hbody k (ds ++ rest) hcs, heq]
  · simpa [hfeed, or_imp, forall_and] using hfs

theorem map_fst_expose (m : Mode) (cs : List Char) : (expose m cs).map Prod.fst = cs := by
  fun_induction expose m cs <;> simp_all

theorem splitMarked_append {separator : Char} {fs gs : List (Char × Bool)}
    (hfs : ∀ f ∈ fs, f.2 → f.1 ≠ separator) :
    splitMarked separator (fs ++ (separator, true) :: gs) =
      (fs.map Prod.fst :: (splitMarked separator gs).1, (splitMarked separator gs).2) := by
  induction fs with
  | nil => simp [splitMarked]
  | cons f fs ih =>
    obtain ⟨c, exposed⟩ := f
    obtain ⟨hf, hfs⟩ := List.forall_mem_cons.mp hfs
    have hkeep : (exposed && c == separator) = false := by
      cases exposed with
      | false => rfl
      | true => simpa using hf rfl
    rw [List.cons_append, splitMarked, ih hfs]
    simp [hkeep]

theorem splitMarked_of_ne {separator : Char} {fs : List (Char × Bool)}
    (hfs : ∀ f ∈ fs, f.2 → f.1 ≠ separator) : splitMarked separator fs = ([], fs.map Prod.fst) := by
  induction fs with
  | nil => rfl
  | cons f fs ih =>
    obtain ⟨c, exposed⟩ := f
    obtain ⟨hf, hfs⟩ := List.forall_mem_cons.mp hfs
    have hkeep : (exposed && c == separator) = false := by
      cases exposed with
      | false => rfl
      | true => simpa using hf rfl
    rw [splitMarked, ih hfs]
    simp [hkeep]

/-- A text ends where the first separator is exposed. -/
theorem split_append {separator : Char} (hs : IsPlain separator) (h : Passes (· ≠ separator) cs)
    (rest : List Char) :
    split separator (cs ++ separator :: rest) =
      (cs :: (split separator rest).1, (split separator rest).2) := by
  obtain ⟨fs, heq, hmap, hfs⟩ := h 0 (separator :: rest)
  rw [split, exposure, heq, expose_plain 0 hs, beq_self_eq_true,
    splitMarked_append fun f hf hexposed => (hfs f hf hexposed).2, hmap]
  rfl

theorem split_of_passes {separator : Char} (h : Passes (· ≠ separator) cs) :
    split separator cs = ([], cs) := by
  obtain ⟨fs, heq, hmap, hfs⟩ := h 0 []
  rw [List.append_nil, expose, List.append_nil] at heq
  rw [split, exposure, heq, splitMarked_of_ne fun f hf hexposed => (hfs f hf hexposed).2, hmap]

/-- Texts with a separator behind each. -/
theorem split_flatMap {α : Type} {separator : Char} (hs : IsPlain separator) {f : α → List Char}
    {xs : List α} (hxs : ∀ x ∈ xs, Passes (· ≠ separator) (f x)) (rest : List Char) :
    split separator (xs.flatMap (fun x => f x ++ [separator]) ++ rest) =
      (xs.map f ++ (split separator rest).1, (split separator rest).2) := by
  induction xs with
  | nil => rfl
  | cons x xs ih =>
    obtain ⟨hx, hxs⟩ := List.forall_mem_cons.mp hxs
    rw [List.flatMap_cons, List.append_assoc, List.append_assoc, List.cons_append,
      List.nil_append, split_append hs hx, ih hxs, List.map_cons, List.cons_append]

theorem cutAt?_append {wanted : Char} {k : Nat} (h : Passes (· ≠ wanted) cs)
    (hwanted : expose (.code 0) (wanted :: rest) = (wanted, true) :: expose (.code k) rest) :
    cutAt? wanted (cs ++ wanted :: rest) = some (cs, rest) := by
  obtain ⟨fs, heq, hmap, hfs⟩ := h 0 (wanted :: rest)
  have hspan : ∀ {fs : List (Char × Bool)} {f : Char × Bool} {gs : List (Char × Bool)}
      {p : Char × Bool → Bool}, (∀ f ∈ fs, p f) → p f = false →
      (fs ++ f :: gs).span p = (fs, f :: gs) := by
    intro fs f gs p hfs hf
    rw [List.span_eq_takeWhile_dropWhile, List.takeWhile_append_of_pos hfs,
      List.dropWhile_append_of_pos hfs, List.takeWhile_cons_of_neg (by simp [hf]),
      List.dropWhile_cons_of_neg (by simp [hf]), List.append_nil]
  rw [cutAt?, exposure, heq, hwanted, hspan ?_ (by simp)]
  · simp only [hmap, map_fst_expose]
  · rintro ⟨c, exposed⟩ hf
    cases exposed with
    | false => rfl
    | true => simpa using (hfs _ hf rfl).2

theorem cutAt?_of_passes {wanted : Char} (h : Passes (· ≠ wanted) cs) :
    cutAt? wanted cs = none := by
  obtain ⟨fs, heq, -, hfs⟩ := h 0 []
  rw [List.append_nil, expose, List.append_nil] at heq
  have hall : ∀ f ∈ fs, (!(f.2 && f.1 == wanted)) = true := by
    rintro ⟨c, exposed⟩ hf
    cases exposed with
    | false => rfl
    | true => simpa using (hfs _ hf rfl).2
  have hspan : fs.span (fun f => !(f.2 && f.1 == wanted)) = (fs, []) := by
    rw [List.span_eq_takeWhile_dropWhile, List.takeWhile_eq_self_iff.mpr hall,
      List.dropWhile_eq_nil_iff.mpr hall]
  rw [cutAt?, exposure, heq]
  simp only [hspan]

end WebIdl.Layout

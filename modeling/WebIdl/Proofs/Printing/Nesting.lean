import WebIdl.Proofs.Printing.Comments

/-!
# Nested text

Text is nested if it holds no comments and every bracket in it is answered. That can be told by going
over the text once, and white space makes no difference to it. So whatever is made of the words of a
nested text is nested as well, and a text that is cut at an exposed character falls into nested parts.
-/

namespace WebIdl.Layout

open Text

variable {V W : List Char} {m n : Mode} {c w : Char} {cs ds : List Char} {j k : Nat}

/-- One character further in a text without comments. There is no way on where a bracket is closed
that was not opened, or where one of the characters stands outside of brackets. -/
def stride (W : List Char) : Mode → Char → Option Mode
  | .code k, c =>
    if c = '"' then some (.string k)
    else if c = '/' ∨ k = 0 ∧ (isClosing c ∨ c ∈ W) then none
    else some (.code (depthAfter k c))
  | .string k, c => some (if c = '"' then .code k else .string k)
  | _, _ => none

/-- Where the way over a text leads. -/
def settle (W : List Char) (m : Mode) (cs : List Char) : Option Mode :=
  cs.foldlM (stride W) m

/-- The text holds no comments, its brackets come in pairs, and none of the characters stands outside
of them. -/
def Nested (W : List Char) (cs : List Char) : Prop :=
  settle W (.code 0) cs = some (.code 0)

instance (W cs : List Char) : Decidable (Nested W cs) :=
  inferInstanceAs (Decidable (_ = _))

/-- The same place with more brackets around it. -/
def Mode.raise (j : Nat) : Mode → Mode
  | .code k => .code (k + j)
  | .string k => .string (k + j)
  | .lineComment k => .lineComment (k + j)
  | .blockComment k => .blockComment (k + j)

theorem Mode.raise_zero (m : Mode) : m.raise 0 = m := by
  cases m <;> rfl

/-! ## Steps -/

theorem stride_code_of_ne (hquote : c ≠ '"') (hslash : c ≠ '/')
    (hout : k = 0 → isClosing c = false ∧ c ∉ W) :
    stride W (.code k) c = some (.code (depthAfter k c)) := by
  have hstop : ¬(c = '/' ∨ k = 0 ∧ (isClosing c ∨ c ∈ W)) := by
    rintro (hc | ⟨hk, hc⟩)
    · exact hslash hc
    · obtain ⟨hclosing, hW⟩ := hout hk
      rcases hc with hc | hc
      · rw [hclosing] at hc
        cases hc
      · exact hW hc
  rw [stride, if_neg hquote, if_neg hstop]

theorem of_stride_code (h : stride W (.code k) c = some n) :
    c = '"' ∧ n = .string k ∨
      c ≠ '"' ∧ c ≠ '/' ∧ (k = 0 → isClosing c = false ∧ c ∉ W) ∧ n = .code (depthAfter k c) := by
  rw [stride] at h
  split at h
  · next hquote => exact Or.inl ⟨hquote, (Option.some.inj h).symm⟩
  · next hquote =>
    split at h
    · cases h
    · next hstop =>
      rw [not_or] at hstop
      refine Or.inr ⟨hquote, hstop.1, ?_, (Option.some.inj h).symm⟩
      intro hk
      constructor
      · exact Bool.eq_false_iff.mpr fun hc => hstop.2 ⟨hk, Or.inl hc⟩
      · exact fun hc => hstop.2 ⟨hk, Or.inr hc⟩

theorem depthAfter_add (h : k = 0 → isClosing c = false) (j : Nat) :
    depthAfter (k + j) c = depthAfter k c + j := by
  unfold depthAfter
  split
  · omega
  · split
    · next hc =>
      have hk : k ≠ 0 := by
        intro hk
        rw [h hk] at hc
        cases hc
      omega
    · rfl

/-- What holds of a step holds within more brackets, and there all characters may stand. -/
theorem stride_raise (h : stride V m c = some n) (hj : j = 0 → W ⊆ V) :
    stride W (m.raise j) c = some (n.raise j) := by
  cases m with
  | code k =>
    rcases of_stride_code h with ⟨rfl, rfl⟩ | ⟨hquote, hslash, hout, rfl⟩
    · rfl
    · have hclosing : k = 0 → isClosing c = false := fun hk => (hout hk).1
      rw [Mode.raise, Mode.raise, ← depthAfter_add hclosing]
      apply stride_code_of_ne hquote hslash
      intro hk
      obtain ⟨hc, hV⟩ := hout (by omega)
      exact ⟨hc, fun hW => hV (hj (by omega) hW)⟩
  | string k =>
    obtain rfl := Option.some.inj h
    rw [Mode.raise, stride]
    split <;> rfl
  | lineComment | blockComment => cases h

/-- The scan goes the same way, and exposes nothing within brackets. -/
theorem expose_stride (h : stride W m c = some n) (j : Nat) (rest : List Char) :
    ∃ exposed, expose (m.raise j) (c :: rest) = (c, exposed) :: expose (n.raise j) rest ∧
      (exposed → j = 0 ∧ c ∉ W) := by
  cases m with
  | code k =>
    rcases of_stride_code h with ⟨rfl, rfl⟩ | ⟨hquote, hslash, hout, rfl⟩
    · refine ⟨false, ?_, nofun⟩
      rw [Mode.raise, expose]
      · rw [if_pos rfl]
        rfl
      · simp
      · simp
    · have hclosing : k = 0 → isClosing c = false := fun hk => (hout hk).1
      refine ⟨k + j == 0 && !isClosing c, ?_, ?_⟩
      · rw [Mode.raise, expose_code_of_ne _ hquote hslash, depthAfter_add hclosing, Mode.raise]
      · intro hexposed
        rw [Bool.and_eq_true, beq_iff_eq] at hexposed
        exact ⟨by omega, (hout (by omega)).2⟩
  | string k =>
    obtain rfl := Option.some.inj h
    refine ⟨false, ?_, nofun⟩
    rw [Mode.raise, expose]
    split <;> rfl
  | lineComment | blockComment => cases h

/-- White space is no step. -/
theorem stride_white (hc : isWhiteSpace c) (hW : ∀ d ∈ W, isWhiteSpace d = false) (k : Nat) :
    stride W (.code k) c = some (.code k) ∧ stride W (.string k) c = some (.string k) := by
  have hne : ∀ d, isWhiteSpace d = false → c ≠ d := by
    rintro d hd rfl
    rw [hc] at hd
    cases hd
  have hquote : c ≠ '"' := hne '"' rfl
  have hdepth : depthAfter k c = k := by
    have hopening : isOpening c = false := by
      simp [isOpening, hne '(' rfl, hne '[' rfl, hne '\x7b' rfl]
    have hclosing : isClosing c = false := by
      simp [isClosing, hne ')' rfl, hne ']' rfl, hne '\x7d' rfl]
    simp [depthAfter, hopening, hclosing]
  constructor
  · rw [stride_code_of_ne hquote (hne '/' rfl), hdepth]
    intro _
    constructor
    · simp [isClosing, hne ')' rfl, hne ']' rfl, hne '\x7d' rfl]
    · exact fun hmem => hne c (hW c hmem) rfl
  · rw [stride, if_neg hquote]

/-! ## Ways over a text -/

@[simp]
theorem settle_nil (W : List Char) (m : Mode) : settle W m [] = some m :=
  rfl

theorem settle_cons (W : List Char) (m : Mode) (c : Char) (cs : List Char) :
    settle W m (c :: cs) = (stride W m c).bind (settle W · cs) :=
  rfl

theorem settle_append (W : List Char) (m : Mode) (cs ds : List Char) :
    settle W m (cs ++ ds) = (settle W m cs).bind (settle W · ds) :=
  List.foldlM_append

theorem settle_append_of_eq (h : settle W m cs = some n) (ds : List Char) :
    settle W m (cs ++ ds) = settle W n ds := by
  rw [settle_append, h, Option.bind_some]

theorem settle_raise (h : settle V m cs = some n) (hj : j = 0 → W ⊆ V) :
    settle W (m.raise j) cs = some (n.raise j) := by
  induction cs generalizing m with
  | nil =>
    cases h
    rfl
  | cons c cs ih =>
    rw [settle_cons] at h
    obtain ⟨m', hstride, h⟩ := Option.bind_eq_some_iff.mp h
    rw [settle_cons, stride_raise hstride hj, Option.bind_some, ih h]

/-- White space aside, the way depends on nothing but the text. -/
theorem settle_filter (hW : ∀ d ∈ W, isWhiteSpace d = false) (cs : List Char) (k : Nat) :
    settle W (.code k) (cs.filter (!isWhiteSpace ·)) = settle W (.code k) cs ∧
      settle W (.string k) (cs.filter (!isWhiteSpace ·)) = settle W (.string k) cs := by
  induction cs generalizing k with
  | nil => exact ⟨rfl, rfl⟩
  | cons c cs ih =>
    by_cases hc : isWhiteSpace c
    · obtain ⟨hcode, hstring⟩ := stride_white hc hW k
      rw [List.filter_cons_of_neg (by simp [hc]), settle_cons, settle_cons, hcode, hstring]
      exact ih k
    · rw [List.filter_cons_of_pos (by simp [hc])]
      constructor
      · rw [settle_cons, settle_cons]
        cases hstride : stride W (.code k) c with
        | none => rfl
        | some n =>
          rcases of_stride_code hstride with ⟨-, rfl⟩ | ⟨-, -, -, rfl⟩
          · exact (ih k).2
          · exact (ih _).1
      · rw [settle_cons, settle_cons, stride]
        split
        · exact (ih k).1
        · exact (ih k).2

theorem expose_settle (h : settle W m cs = some n) (j : Nat) (rest : List Char) :
    ∃ fs, expose (m.raise j) (cs ++ rest) = fs ++ expose (n.raise j) rest ∧
      fs.map Prod.fst = cs ∧ ∀ f ∈ fs, f.2 → j = 0 ∧ f.1 ∉ W := by
  induction cs generalizing m with
  | nil =>
    cases h
    exact ⟨[], rfl, rfl, by simp⟩
  | cons c cs ih =>
    rw [settle_cons] at h
    obtain ⟨m', hstride, h⟩ := Option.bind_eq_some_iff.mp h
    obtain ⟨exposed, hexpose, hc⟩ := expose_stride hstride j (cs ++ rest)
    obtain ⟨fs, heq, hmap, hfs⟩ := ih h
    refine ⟨(c, exposed) :: fs, ?_, by rw [List.map_cons, hmap], ?_⟩
    · rw [List.cons_append, hexpose, heq, List.cons_append]
    · exact List.forall_mem_cons.mpr ⟨hc, hfs⟩

/-- A way that may pass a character goes past it, or up to the first place where it stands. -/
theorem settle_or_cut (hquote : w ≠ '"') (h : settle V m cs = some n) :
    settle (w :: V) m cs = some n ∨
      ∃ front back, cs = front ++ w :: back ∧ settle (w :: V) m front = some (.code 0) ∧
        settle V (.code (depthAfter 0 w)) back = some n := by
  induction cs generalizing m with
  | nil => exact Or.inl h
  | cons c cs ih =>
    rw [settle_cons] at h
    obtain ⟨m', hstride, h⟩ := Option.bind_eq_some_iff.mp h
    have hstep : m = .code 0 ∧ c = w ∨ stride (w :: V) m c = some m' := by
      by_cases hhere : m = .code 0 ∧ c = w
      · exact Or.inl hhere
      · cases m with
        | code k =>
          rcases of_stride_code hstride with ⟨rfl, rfl⟩ | ⟨hc, hslash, hout, rfl⟩
          · exact Or.inr rfl
          · apply Or.inr
            apply stride_code_of_ne hc hslash
            rintro rfl
            obtain ⟨hclosing, hV⟩ := hout rfl
            refine ⟨hclosing, fun hmem => ?_⟩
            rcases List.mem_cons.mp hmem with hcw | hmem
            · exact hhere ⟨rfl, hcw⟩
            · exact hV hmem
        | string k => exact Or.inr hstride
        | lineComment | blockComment => cases hstride
    rcases hstep with ⟨rfl, rfl⟩ | hstep
    · obtain ⟨hc, -⟩ | ⟨-, -, -, rfl⟩ := of_stride_code hstride
      · exact absurd hc hquote
      · exact Or.inr ⟨[], cs, rfl, rfl, h⟩
    · rcases ih h with hpast | ⟨front, back, rfl, hfront, hback⟩
      · exact Or.inl (by rw [settle_cons, hstep, Option.bind_some, hpast])
      · exact Or.inr ⟨c :: front, back, rfl,
          by rw [settle_cons, hstep, Option.bind_some, hfront], hback⟩

/-! ## Nested texts -/

theorem nested_nil : Nested W [] :=
  rfl

theorem Nested.append (h : Nested W cs) (h' : Nested W ds) : Nested W (cs ++ ds) := by
  rw [Nested, settle_append_of_eq h]
  exact h'

theorem Nested.mono (h : Nested V cs) (hWV : W ⊆ V) : Nested W cs := by
  have hraise := settle_raise h (j := 0) fun _ => hWV
  rwa [Mode.raise_zero] at hraise

theorem Nested.passes (h : Nested W cs) : Passes (· ∉ W) cs := by
  intro j rest
  have hexpose := expose_settle h j rest
  rwa [Mode.raise, Nat.zero_add] at hexpose

theorem Nested.passes_ne {c : Char} (h : Nested W cs) (hc : c ∈ W) : Passes (· ≠ c) cs :=
  h.passes.mono fun _ hd heq => hd (heq ▸ hc)

theorem nested_plain (h : ∀ c ∈ cs, IsPlain c ∧ c ∉ W) : Nested W cs := by
  induction cs with
  | nil => rfl
  | cons c cs ih =>
    obtain ⟨⟨⟨hquote, hslash, hopening, hclosing⟩, hW⟩, hcs⟩ := List.forall_mem_cons.mp h
    have hdepth : depthAfter 0 c = 0 := by simp [depthAfter, hopening, hclosing]
    rw [Nested, settle_cons, stride_code_of_ne hquote hslash fun _ => ⟨hclosing, hW⟩, hdepth]
    exact ih hcs

theorem nested_white (hW : ∀ d ∈ W, isWhiteSpace d = false) (h : ∀ c ∈ cs, isWhiteSpace c) :
    Nested W cs := by
  rw [Nested, ← (settle_filter hW cs 0).1, filter_of_white (by simp) h]
  rfl

theorem nested_string (hs : '"' ∉ cs) : Nested W ('"' :: (cs ++ ['"'])) := by
  have hbody : settle W (.string 0) cs = some (.string 0) := by
    induction cs with
    | nil => rfl
    | cons c cs ih =>
      rw [List.mem_cons, not_or] at hs
      rw [settle_cons, stride, if_neg (Ne.symm hs.1), Option.bind_some, ih hs.2]
  rw [Nested, settle_cons, stride, if_pos rfl, Option.bind_some, settle_append_of_eq hbody]
  rfl

/-- Text in brackets may hold anything nested. -/
theorem Nested.bracketed {o e : Char} (h : Nested V cs) (hb : (o, e) ∈ brackets) (ho : o ∉ W) :
    Nested W (o :: (cs ++ [e])) := by
  have hinner : settle W (.code 1) cs = some (.code 1) := settle_raise h (j := 1) (by simp)
  have hopen : stride W (.code 0) o = some (.code 1) := by
    simp only [brackets, List.mem_cons, Prod.mk.injEq, List.not_mem_nil, or_false] at hb
    rcases hb with ⟨rfl, rfl⟩ | ⟨rfl, rfl⟩ | ⟨rfl, rfl⟩ <;>
      exact stride_code_of_ne (by decide) (by decide) fun _ => ⟨rfl, ho⟩
  have hclose : stride W (.code 1) e = some (.code 0) := by
    simp only [brackets, List.mem_cons, Prod.mk.injEq, List.not_mem_nil, or_false] at hb
    rcases hb with ⟨rfl, rfl⟩ | ⟨rfl, rfl⟩ | ⟨rfl, rfl⟩ <;>
      exact stride_code_of_ne (by decide) (by decide) (by simp)
  rw [Nested, settle_cons, hopen, Option.bind_some, settle_append_of_eq hinner, settle_cons, hclose]
  rfl

/-- Texts that differ in nothing but white space are nested alike. -/
theorem Nested.of_filter_eq (h : Nested W cs) (hW : ∀ d ∈ W, isWhiteSpace d = false)
    (heq : cs.filter (!isWhiteSpace ·) = ds.filter (!isWhiteSpace ·)) : Nested W ds := by
  rw [Nested, ← (settle_filter hW ds 0).1, ← heq, (settle_filter hW cs 0).1]
  exact h

/-- No comment begins in front of nested text. -/
theorem Nested.leadingComments_eq (h : Nested W cs) (hW : ∀ d ∈ W, isWhiteSpace d = false) :
    leadingComments cs = ([], trim cs) := by
  have hstart : Nested W (trimStart cs) :=
    h.of_filter_eq hW (filter_trimStart (by simp) cs).symm
  apply leadingComments_of_none
  apply comment?_of_head
  intro hslash
  obtain ⟨tail, htail⟩ := List.head?_eq_some_iff.mp hslash
  rw [htail, Nested, settle_cons] at hstart
  cases hstart

end WebIdl.Layout

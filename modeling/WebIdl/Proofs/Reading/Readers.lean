import WebIdl.Proofs.Reading.Cursors

/-!
# What readers answer

`Reads c r Q` says that the reader `r` succeeds at the cursor `c`, and that `Q` holds of its answer
and of the cursor behind it. The rules follow the shape of a reader from its first step on.
-/

namespace WebIdl.Grammar

open Token Cursor

variable {α β γ : Type} {c : Cursor} {exact : Bool} {ts us : List Token}

def Reads (c : Cursor) (r : Reader α) (Q : α → Cursor → Prop) : Prop :=
  ∃ a c', r c = .ok (a, c') ∧ Q a c'

theorem Reads.mono {r : Reader α} {Q R : α → Cursor → Prop} (h : Reads c r Q)
    (hQ : ∀ a c', Q a c' → R a c') : Reads c r R := by
  obtain ⟨a, c', heq, ha⟩ := h
  exact ⟨a, c', heq, hQ a c' ha⟩

theorem reads_pure {a : α} {Q : α → Cursor → Prop} : Reads c (pure a) Q ↔ Q a c := by
  constructor
  · rintro ⟨_, _, heq, hQ⟩
    cases heq
    exact hQ
  · exact fun hQ => ⟨a, c, rfl, hQ⟩

theorem reads_bind {r : Reader α} {f : α → Reader β} {Q : β → Cursor → Prop} :
    Reads c (r >>= f) Q ↔ Reads c r fun a c' => Reads c' (f a) Q := by
  have hrun : (r >>= f) c = (r c >>= fun p => f p.1 p.2) := rfl
  constructor
  · rintro ⟨b, c'', heq, hQ⟩
    rw [hrun] at heq
    cases hr : r c with
    | error e => rw [hr] at heq; cases heq
    | ok p => rw [hr] at heq; exact ⟨p.1, p.2, hr, b, c'', heq, hQ⟩
  · rintro ⟨a, c', hr, b, c'', heq, hQ⟩
    exact ⟨b, c'', by rw [hrun, hr]; exact heq, hQ⟩

theorem reads_get {Q : Cursor → Cursor → Prop} : Reads c (get : Reader Cursor) Q ↔ Q c c := by
  constructor
  · rintro ⟨_, _, heq, hQ⟩
    cases heq
    exact hQ
  · exact fun hQ => ⟨c, c, rfl, hQ⟩

theorem reads_set {c' : Cursor} {Q : PUnit → Cursor → Prop} :
    Reads c (set c' : Reader PUnit) Q ↔ Q ⟨⟩ c' := by
  constructor
  · rintro ⟨_, _, heq, hQ⟩
    cases heq
    exact hQ
  · exact fun hQ => ⟨⟨⟩, c', rfl, hQ⟩

theorem reads_modify {f : Cursor → Cursor} {Q : PUnit → Cursor → Prop} :
    Reads c (modify f : Reader PUnit) Q ↔ Q ⟨⟩ (f c) := by
  constructor
  · rintro ⟨_, _, heq, hQ⟩
    cases heq
    exact hQ
  · exact fun hQ => ⟨⟨⟩, f c, rfl, hQ⟩

theorem reads_skip {Q : Unit → Cursor → Prop} : Reads c skip Q ↔ Q () c.skip :=
  reads_modify

/-- The next token is there and it is the one asked for. -/
theorem reads_token_some {kind : TokenKind} {text : Option String} {t : Token}
    {rest : List Token} {Q : Option Token → Cursor → Prop} (hc : c.after = t :: rest)
    (hkind : t.kind = kind) (htext : text.all (· = t.text))
    (h : Q (some t.unescape) ⟨t :: c.before, rest, c.line⟩) : Reads c (token kind text) Q := by
  have hconsume : c.consume? kind text = some (t.unescape, ⟨t :: c.before, rest, c.line⟩) := by
    simp only [Cursor.consume?, hc, hkind, htext, and_self, if_true]
  rw [token, reads_bind, reads_get, hconsume]
  exact reads_bind.mpr (reads_set.mpr (reads_pure.mpr h))

theorem reads_token_none {kind : TokenKind} {text : Option String}
    {Q : Option Token → Cursor → Prop}
    (hc : ∀ t ∈ c.after.head?, t.kind = kind → text.all (· = t.text) → False) (h : Q none c) :
    Reads c (token kind text) Q := by
  have hconsume : c.consume? kind text = none := by
    unfold Cursor.consume?
    split
    · rfl
    · next t rest hafter =>
      rw [if_neg]
      rintro ⟨hkind, htext⟩
      exact hc t (by rw [hafter]; rfl) hkind htext
  rw [token, reads_bind, reads_get, hconsume]
  exact reads_pure.mpr h

/-- The token that is asked for comes next, blanks aside. -/
theorem reads_asked {kind : TokenKind} {w : String} {Q : Bool → Cursor → Prop}
    (hc : Near exact c ts) (hts : core ts = ⟨kind, w⟩ :: us) (h : ∀ c', At exact c' us → Q true c') :
    Reads c (do skip; return (← token kind (some w)).isSome) Q := by
  obtain ⟨rest, hrest, hat⟩ := hc.exists_rest hts
  rw [reads_bind, reads_skip, reads_bind]
  refine reads_token_some (t := ⟨kind, w⟩) hrest rfl (by simp) ?_
  exact reads_pure.mpr (h _ (hat _ _))

/-- Nothing but blanks is read where another token comes next, and the cursor stands right in front
of it. -/
theorem reads_asked_none {kind : TokenKind} {w : String} {Q : Bool → Cursor → Prop}
    (hc : Near exact c ts) (hts : (core ts).head? ≠ some ⟨kind, w⟩)
    (h : ∀ c', core c'.after = c'.after → At exact c' (core ts) → Q false c') :
    Reads c (do skip; return (← token kind (some w)).isSome) Q := by
  rw [reads_bind, reads_skip, reads_bind]
  refine reads_token_none ?_ (reads_pure.mpr (h _ (by simp) hc.skip))
  rintro ⟨kind, text⟩ ht rfl htext
  rw [after_skip, hc.head?_eq] at ht
  simp only [Option.all_some, decide_eq_true_eq] at htext
  exact hts (htext ▸ ht)

theorem reads_keyword {w : String} {Q : Bool → Cursor → Prop} (hc : Near exact c ts)
    (hts : core ts = word w :: us) (h : ∀ c', At exact c' us → Q true c') :
    Reads c (keyword w) Q :=
  reads_asked hc hts h

theorem reads_keyword_none {w : String} {Q : Bool → Cursor → Prop} (hc : Near exact c ts)
    (hts : (core ts).head? ≠ some (word w)) (h : ∀ c', At exact c' (core ts) → Q false c') :
    Reads c (keyword w) Q :=
  reads_asked_none hc hts fun c' _ hc' => h c' hc'

theorem reads_symbol {m : String} {Q : Bool → Cursor → Prop} (hc : Near exact c ts)
    (hts : core ts = mark m :: us) (h : ∀ c', At exact c' us → Q true c') :
    Reads c (symbol m) Q :=
  reads_asked hc hts h

theorem reads_symbol_settled {m : String} {Q : Bool → Cursor → Prop} (hc : Near exact c ts)
    (hts : (core ts).head? ≠ some (mark m))
    (h : ∀ c', core c'.after = c'.after → At exact c' (core ts) → Q false c') :
    Reads c (symbol m) Q :=
  reads_asked_none hc hts h

theorem reads_symbol_none {m : String} {Q : Bool → Cursor → Prop} (hc : Near exact c ts)
    (hts : (core ts).head? ≠ some (mark m)) (h : ∀ c', At exact c' (core ts) → Q false c') :
    Reads c (symbol m) Q :=
  reads_symbol_settled hc hts fun c' _ hc' => h c' hc'

theorem reads_identifier {s : String} {Q : Option String → Cursor → Prop} (hc : Near exact c ts)
    (hts : core ts = word s :: us) (hs : (word s).unescape = word s)
    (h : ∀ c', At exact c' us → Q (some s) c') : Reads c identifier Q := by
  obtain ⟨rest, hrest, hat⟩ := hc.exists_rest hts
  rw [identifier, reads_bind, reads_skip, reads_bind]
  refine reads_token_some (t := word s) hrest rfl rfl ?_
  rw [hs]
  exact reads_pure.mpr (h _ (hat _ _))

theorem reads_identifier_none {Q : Option String → Cursor → Prop} (hc : Near exact c ts)
    (hts : ∀ t ∈ (core ts).head?, t.kind ≠ .identifier)
    (h : ∀ c', At exact c' (core ts) → Q none c') : Reads c identifier Q := by
  rw [identifier, reads_bind, reads_skip, reads_bind]
  refine reads_token_none ?_ (reads_pure.mpr (h _ hc.skip))
  intro t ht hkind _
  rw [after_skip, hc.head?_eq] at ht
  exact hts t ht hkind

/-- A mark begins nothing that starts with a word. -/
theorem reads_identifier_mark {m : String} {Q : Option String → Cursor → Prop}
    (hc : Near exact c ts) (hts : core ts = mark m :: us)
    (h : ∀ c', Near exact c' ts → Q none c') : Reads c identifier Q := by
  refine reads_identifier_none hc (fun t ht => ?_) fun c' hc' => h c' hc'.near
  obtain rfl : mark m = t := by simpa [hts] using ht
  simp [mark]

/-- Kept trivia is that of the list in front of its first token, and all of it is read. -/
theorem reads_trivia_settled {d : Dialect} {items : List Trivia}
    {Q : List Trivia → Cursor → Prop} (hc : At exact c (Spelling.trivia items ++ us))
    (hus : core us = us) (hitems : exact → d.keepTrivia ∧ Trivia.IsRun items)
    (h : ∀ items', (exact → items' = items) → At exact c.skip us → Q items' c.skip) :
    Reads c (trivia d) Q := by
  rw [trivia, reads_bind, reads_get, reads_bind, reads_skip, reads_pure]
  refine h _ (fun hx => ?_) ?_
  · obtain ⟨hkeep, hrun⟩ := hitems hx
    have hus' : (spaced us).1 = [] := by rw [← hus, spaced_core]
    have hgap : (Token.source c.gap).toList = Trivia.chars items := by
      rw [toList_source, show c.gap = lead c.after from rfl, ← spaced_fst, hc.gap hx,
        spaced_trivia_append, hus', List.append_nil]
    rw [if_pos hkeep, Trivia.ofText, hgap, Trivia.pieces_chars hrun]
  · have hskip := hc.toNear.skip
    rwa [core_trivia_append, hus] at hskip

theorem reads_trivia {d : Dialect} {items : List Trivia} {Q : List Trivia → Cursor → Prop}
    (hc : At exact c (Spelling.trivia items ++ us)) (hus : core us = us)
    (hitems : exact → d.keepTrivia ∧ Trivia.IsRun items)
    (h : ∀ items' c', (exact → items' = items) → At exact c' us → Q items' c') :
    Reads c (trivia d) Q :=
  reads_trivia_settled hc hus hitems fun items' hitems' hskip => h items' _ hitems' hskip

theorem reads_trivia_near {d : Dialect} {Q : List Trivia → Cursor → Prop} (hc : Near exact c ts)
    (h : ∀ items c', At exact c' (core ts) → Q items c') : Reads c (trivia d) Q := by
  rw [trivia, reads_bind, reads_get, reads_bind, reads_skip, reads_pure]
  exact h _ _ hc.skip

theorem reads_expect {p : Reader (Option α)} {reason : Reason} {Q : α → Cursor → Prop}
    (h : Reads c p fun o c' => ∃ a, o = some a ∧ Q a c') : Reads c (expect reason p) Q := by
  rw [expect, reads_bind]
  refine h.mono ?_
  rintro _ c' ⟨a, rfl, hQ⟩
  exact reads_pure.mpr hQ

theorem reads_expectSymbol {m : String} {reason : Reason} {Q : Unit → Cursor → Prop}
    (hc : Near exact c ts) (hts : core ts = mark m :: us) (h : ∀ c', At exact c' us → Q () c') :
    Reads c (expectSymbol m reason) Q := by
  rw [expectSymbol, reads_bind]
  exact reads_symbol hc hts fun c' hc' => reads_pure.mpr (h c' hc')

theorem reads_expectIdentifier {s : String} {reason : Reason} {Q : String → Cursor → Prop}
    (hc : Near exact c ts) (hts : core ts = word s :: us) (hs : (word s).unescape = word s)
    (h : ∀ c', At exact c' us → Q s c') : Reads c (expectIdentifier reason) Q :=
  reads_expect (reads_identifier hc hts hs fun c' hc' => ⟨s, rfl, h c' hc'⟩)

theorem reads_attempt {p : Reader (Option α)} {Q : Option α → Cursor → Prop}
    (h : Reads c p fun o c' => ∃ a, o = some a ∧ Q (some a) c') : Reads c (attempt p) Q := by
  rw [attempt, reads_bind, reads_get, reads_bind]
  refine h.mono ?_
  rintro _ c' ⟨a, rfl, hQ⟩
  exact reads_pure.mpr hQ

/-- Where the production does not match, the cursor is back at its place. -/
theorem reads_attempt_none {p : Reader (Option α)} {Q : Option α → Cursor → Prop}
    (h : Reads c p fun o _ => o = none) (hQ : Q none c) : Reads c (attempt p) Q := by
  rw [attempt, reads_bind, reads_get, reads_bind]
  refine h.mono ?_
  rintro _ c' rfl
  exact reads_bind.mpr (reads_set.mpr (reads_pure.mpr hQ))

theorem reads_firstOf {p : Reader (Option α)} {ps : List (Reader (Option α))}
    {Q : Option α → Cursor → Prop} (h : Reads c p fun o c' => ∃ a, o = some a ∧ Q (some a) c') :
    Reads c (firstOf (p :: ps)) Q := by
  rw [firstOf, reads_bind]
  refine h.mono ?_
  rintro _ c' ⟨a, rfl, hQ⟩
  exact reads_pure.mpr hQ

theorem reads_firstOf_next {p : Reader (Option α)} {ps : List (Reader (Option α))}
    {Q : Option α → Cursor → Prop}
    (h : Reads c p fun o c' => o = none ∧ Reads c' (firstOf ps) Q) :
    Reads c (firstOf (p :: ps)) Q := by
  rw [firstOf, reads_bind]
  refine h.mono ?_
  rintro _ c' ⟨rfl, hQ⟩
  exact hQ

theorem reads_mapped {f : α → β} {p : Reader (Option α)} {Q : Option β → Cursor → Prop}
    (h : Reads c p fun o c' => Q (o.map f) c') : Reads c (mapped f p) Q := by
  rw [mapped, reads_bind]
  exact h.mono fun o c' hQ => reads_pure.mpr hQ

theorem reads_bounded {p : Nat → Reader α} {Q : α → Cursor → Prop}
    (h : Reads c (p (c.remaining + 1)) Q) : Reads c (bounded p) Q := by
  rw [bounded, reads_bind, reads_get]
  exact h

theorem reads_iterateWithin {σ : Type} {step : σ → Reader (Option σ)} {bound : Nat} {s : σ}
    {Q : σ → Cursor → Prop}
    (h : Reads c (step s) fun o c' => ∃ t, o = some t ∧ Reads c' (iterateWithin step bound t) Q) :
    Reads c (iterateWithin step (bound + 1) s) Q := by
  rw [iterateWithin, reads_bind]
  refine h.mono ?_
  rintro _ c' ⟨t, rfl, ht⟩
  exact ht

theorem reads_iterateWithin_done {σ : Type} {step : σ → Reader (Option σ)} {bound : Nat} {s : σ}
    {Q : σ → Cursor → Prop} (h : Reads c (step s) fun o c' => o = none ∧ Q s c') :
    Reads c (iterateWithin step (bound + 1) s) Q := by
  rw [iterateWithin, reads_bind]
  refine h.mono ?_
  rintro _ c' ⟨rfl, hQ⟩
  exact reads_pure.mpr hQ

section Loops

variable {P : List γ → Cursor → Prop} {R : γ → α → Prop}

/-- A loop reads the items of a list one by one: `P` holds of those still to come, and `R` relates
each item to its answer. -/
theorem reads_untilWithin {step : Reader (α ⊕ β)} {Q : β → Cursor → Prop}
    (hstep : ∀ g gs c, P (g :: gs) c →
      Reads c step fun r c' => ∃ a, r = .inl a ∧ R g a ∧ P gs c')
    (hdone : ∀ c, P [] c → Reads c step fun r c' => ∃ b, r = .inr b ∧ Q b c')
    {bound : Nat} {gs : List γ} (hbound : gs.length < bound) (h : P gs c) :
    Reads c (untilWithin step bound) fun r c' => List.Forall₂ R gs r.1 ∧ Q r.2 c' := by
  induction gs generalizing c bound with
  | nil =>
    obtain ⟨bound, rfl⟩ : ∃ n, bound = n + 1 := ⟨bound - 1, by omega⟩
    rw [untilWithin, reads_bind]
    refine (hdone c h).mono ?_
    rintro _ c' ⟨b, rfl, hQ⟩
    exact reads_pure.mpr ⟨.nil, hQ⟩
  | cons g gs ih =>
    obtain ⟨bound, rfl⟩ : ∃ n, bound = n + 1 := ⟨bound - 1, by omega⟩
    rw [untilWithin, reads_bind]
    refine (hstep g gs c h).mono ?_
    rintro _ c' ⟨a, rfl, hR, hP⟩
    refine reads_bind.mpr ((ih (Nat.lt_of_succ_lt_succ hbound) hP).mono ?_)
    rintro ⟨as, b⟩ c'' ⟨has, hQ⟩
    exact reads_pure.mpr ⟨.cons hR has, hQ⟩

theorem reads_untilDone {step : Reader (α ⊕ β)} {Q : β → Cursor → Prop}
    (hstep : ∀ g gs c, P (g :: gs) c →
      Reads c step fun r c' => ∃ a, r = .inl a ∧ R g a ∧ P gs c')
    (hdone : ∀ c, P [] c → Reads c step fun r c' => ∃ b, r = .inr b ∧ Q b c')
    {gs : List γ} (hlen : gs.length ≤ c.remaining) (h : P gs c) :
    Reads c (untilDone step) fun r c' => List.Forall₂ R gs r.1 ∧ Q r.2 c' :=
  reads_bounded (reads_untilWithin hstep hdone (Nat.lt_succ_of_le hlen) h)

theorem reads_many {step : Reader (Option α)} {Q : Cursor → Prop}
    (hstep : ∀ g gs c, P (g :: gs) c →
      Reads c step fun o c' => ∃ a, o = some a ∧ R g a ∧ P gs c')
    (hdone : ∀ c, P [] c → Reads c step fun o c' => o = none ∧ Q c')
    {gs : List γ} (hlen : gs.length ≤ c.remaining) (h : P gs c) :
    Reads c (many step) fun as c' => List.Forall₂ R gs as ∧ Q c' := by
  rw [many, reads_bind]
  refine (reads_untilDone (R := R) (Q := fun _ => Q) ?_ ?_ hlen h).mono
    fun r c' hr => reads_pure.mpr hr
  · intro g gs c hP
    refine reads_bind.mpr ((hstep g gs c hP).mono ?_)
    rintro _ c' ⟨a, rfl, hR, hP'⟩
    exact reads_pure.mpr ⟨a, rfl, hR, hP'⟩
  · intro c hP
    refine reads_bind.mpr ((hdone c hP).mono ?_)
    rintro _ c' ⟨rfl, hQ⟩
    exact reads_pure.mpr ⟨(), rfl, hQ⟩

end Loops

theorem forall₂_map_eq {R : α → β → Prop} {f : α → γ} {g : β → γ} {as : List α} {bs : List β}
    (h : List.Forall₂ R as bs) (hR : ∀ a b, R a b → g b = f a) : bs.map g = as.map f := by
  induction h with
  | nil => rfl
  | cons hab _ ih => rw [List.map_cons, List.map_cons, hR _ _ hab, ih]

theorem forall₂_flatMap_eq {R : α → β → Prop} {f : α → List γ} {g : β → List γ} {as : List α}
    {bs : List β} (h : List.Forall₂ R as bs) (hR : ∀ a b, R a b → g b = f a) :
    bs.flatMap g = as.flatMap f := by
  rw [List.flatMap_def, List.flatMap_def, forall₂_map_eq h hR]

end WebIdl.Grammar

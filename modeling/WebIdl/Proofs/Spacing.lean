import WebIdl.Proofs.Twins.Trivia

/-!
# Where blanks matter

Blanks between two tokens change nothing but in two places. The dots of an ellipsis have to stand
together. And a minus that begins no value is stepped back over by one token alone: where blanks
follow it, only the last of them comes back, and a bracket or a string behind them is read as the
default. So `- []` is a default and `-[]` is none.
-/

namespace WebIdl

open Token Cursor

namespace Token

/-- Blanks between the two tokens may change what is read. -/
def sticky (t u : Token) : Bool :=
  (t = mark "." && u = mark ".") || (t = mark "-" && (u = mark "[" || u.kind = .string))

/-- The tokens that are not blank. With each of them goes whether it stands right behind the one
before it, at the places where that matters. -/
def bonds : Option Token → List Token → List (Token × Bool)
  | _, [] => []
  | p, t :: ts =>
    if t.isWhitespace then bonds none ts else (t, p.any (sticky · t)) :: bonds (some t) ts

theorem bonds_cons_of_blank {p : Option Token} {t : Token} {ts : List Token}
    (h : t.isWhitespace) : bonds p (t :: ts) = bonds none ts := by
  rw [bonds, if_pos h]

theorem bonds_cons_of_solid {p : Option Token} {t : Token} {ts : List Token}
    (h : t.isWhitespace = false) :
    bonds p (t :: ts) = (t, p.any (sticky · t)) :: bonds (some t) ts := by
  rw [bonds, if_neg (by simp [h])]

theorem map_fst_bonds (p : Option Token) (ts : List Token) :
    (bonds p ts).map Prod.fst = solids ts := by
  induction ts generalizing p with
  | nil => rfl
  | cons t ts ih =>
    cases ht : t.isWhitespace with
    | true => rw [bonds_cons_of_blank ht, ih, solids_cons_of_blank ht]
    | false => rw [bonds_cons_of_solid ht, List.map_cons, ih, solids_cons_of_solid ht]

/-- Nothing sticks to a blank. -/
theorem sticky_of_blank {t : Token} (ht : t.isWhitespace) (u : Token) : sticky t u = false := by
  have hmark (m : String) : t ≠ mark m := by
    rintro rfl
    cases ht
  simp [sticky, hmark]

theorem bonds_some_blank {t : Token} (ht : t.isWhitespace) (ts : List Token) :
    bonds (some t) ts = bonds none ts := by
  cases ts with
  | nil => rfl
  | cons u ts => simp [bonds, sticky_of_blank ht]

theorem bonds_none_core (ts : List Token) : bonds none (core ts) = bonds none ts := by
  induction ts with
  | nil => rfl
  | cons t ts ih =>
    cases ht : t.isWhitespace with
    | true => rw [bonds_cons_of_blank ht, ← ih, core_cons_of_blank ht]
    | false => rw [core_cons_of_solid ht]

theorem head?_bonds_none {t : Token} {b : Bool} {ts : List Token}
    (h : (bonds none ts).head? = some (t, b)) : b = false := by
  induction ts with
  | nil => cases h
  | cons u us ih =>
    cases hu : u.isWhitespace with
    | true => exact ih (by rwa [bonds_cons_of_blank hu] at h)
    | false =>
      rw [bonds_cons_of_solid hu] at h
      simp only [List.head?_cons, Option.some.injEq, Prod.mk.injEq] at h
      exact h.2.symm

/-- In front of blanks it does not matter what stands before them. -/
theorem bonds_eq_of_lead_ne_nil {p : Option Token} {ts : List Token} (h : lead ts ≠ []) :
    bonds p ts = bonds none (core ts) := by
  cases ts with
  | nil => exact absurd rfl h
  | cons t ts =>
    cases ht : t.isWhitespace with
    | true => rw [bonds_none_core, bonds_cons_of_blank ht, bonds_cons_of_blank ht]
    | false => exact absurd (by simp [lead, ht]) h

/-- No blanks stand where they could matter. -/
def Together (ts : List Token) : Prop :=
  ∀ t rest, t :: rest <:+ ts → ∀ u ∈ (core rest).head?, sticky t u → lead rest = []

theorem Together.suffix {ts us : List Token} (h : Together us) (hts : ts <:+ us) : Together ts :=
  fun t rest hrest => h t rest (hrest.trans hts)

/-- The bonds are those of the tokens alone, where no blanks stand between two that stick. -/
theorem bonds_eq_bonds_solids {p : Option Token} {ts : List Token}
    (h : Together (p.toList ++ ts)) : bonds p ts = bonds p (solids ts) := by
  induction ts generalizing p with
  | nil => rfl
  | cons t ts ih =>
    have htail : Together (t :: ts) := h.suffix (List.suffix_append _ _)
    cases ht : t.isWhitespace with
    | false =>
      rw [bonds_cons_of_solid ht, solids_cons_of_solid ht, bonds_cons_of_solid ht]
      exact congrArg _ (ih htail)
    | true =>
      rw [bonds_cons_of_blank ht, solids_cons_of_blank ht,
        @ih none (htail.suffix (List.suffix_cons t ts))]
      cases p with
      | none => rfl
      | some q =>
        cases hsolids : solids ts with
        | nil => rfl
        | cons u us =>
          have hu : (core (t :: ts)).head? = some u := by
            rw [core_cons_of_blank ht, head?_core, hsolids]
            rfl
          have hapart : sticky q u = false := by
            refine Bool.eq_false_iff.mpr fun hsticky => ?_
            have hlead := h q (t :: ts) (List.suffix_refl _) u hu hsticky
            simp [lead, ht] at hlead
          have hsolid : u.isWhitespace = false := by
            have hmem : u ∈ solids ts := hsolids ▸ List.mem_cons_self
            simpa [solids] using (List.mem_filter.mp hmem).2
          rw [bonds_cons_of_solid hsolid, bonds_cons_of_solid hsolid]
          simp [hapart]

theorem bonds_eq_of_together {ts us : List Token} (h : solids ts = solids us) (hts : Together ts)
    (hus : Together us) : bonds none ts = bonds none us := by
  rw [@bonds_eq_bonds_solids none ts hts, @bonds_eq_bonds_solids none us hus, h]

/-- No blanks stand between two dots. -/
def DotsTogether (ts : List Token) : Prop :=
  ∀ us ∈ ts.tails, us.head? = some (mark ".") → (core us.tail).head? = some (mark ".") →
    lead us.tail = []

instance (ts : List Token) : Decidable (DotsTogether ts) :=
  inferInstanceAs (Decidable (∀ us ∈ ts.tails, us.head? = some (mark ".") →
    (core us.tail).head? = some (mark ".") → lead us.tail = []))

/-- No minus stands in front of a bracket or a string. -/
def Unsigned (ts : List Token) : Prop :=
  ∀ us, mark "-" :: us <:+ solids ts → ∀ u ∈ us.head?, u ≠ mark "[" ∧ u.kind ≠ .string

theorem DotsTogether.together {ts : List Token} (h : DotsTogether ts) (hts : Unsigned ts) :
    Together ts := by
  intro t rest hrest u hu hsticky
  simp only [sticky, Bool.or_eq_true, Bool.and_eq_true, decide_eq_true_eq] at hsticky
  rcases hsticky with ⟨rfl, rfl⟩ | ⟨rfl, hafter⟩
  · exact h _ ((List.mem_tails _ _).mpr hrest) rfl hu
  · have hsolids : mark "-" :: solids rest <:+ solids ts := by
      have hfilter := hrest.filter fun t => !t.isWhitespace
      rwa [List.filter_cons_of_pos rfl] at hfilter
    rw [head?_core] at hu
    obtain ⟨hbracket, hstring⟩ := hts _ hsolids u hu
    exact absurd hafter (by simp [hbracket, hstring])

end Token

/-- The bonds of what comes next, told from the token that was read last. -/
def Cursor.bonds (c : Cursor) : List (Token × Bool) :=
  Token.bonds c.before.head? c.after

namespace Cursor

variable {c c' : Cursor} {t : Token} {rest rest' : List Token}

theorem bonds_skip (c : Cursor) : c.skip.bonds = c.bonds := by
  cases hgap : c.gap with
  | nil =>
    have hcore : core c.after = c.after := by
      have happend := lead_append_core c.after
      rwa [show lead c.after = [] from hgap, List.nil_append] at happend
    rw [Cursor.bonds, Cursor.bonds, show c.skip.after = core c.after from rfl, hcore,
      show c.skip.before = c.gap.reverse ++ c.before from rfl, hgap]
    rfl
  | cons w ws =>
    have hlast : ∃ v, c.skip.before.head? = some v ∧ v.isWhitespace := by
      obtain ⟨v, vs, hv⟩ := List.exists_cons_of_ne_nil (l := c.gap.reverse) (by simp [hgap])
      have hmem : v ∈ c.gap := List.mem_reverse.mp (hv ▸ List.mem_cons_self)
      exact ⟨v, by simp [skip, hv], List.mem_takeWhile_imp hmem⟩
    obtain ⟨v, hhead, hblank⟩ := hlast
    rw [Cursor.bonds, Cursor.bonds, hhead, bonds_some_blank hblank,
      show c.skip.after = core c.after from rfl,
      bonds_eq_of_lead_ne_nil (show c.gap ≠ [] by simp [hgap])]

theorem ahead_eq_of_bonds_eq (h : c.bonds = c'.bonds) : c.ahead = c'.ahead := by
  rw [ahead, ahead, ← map_fst_bonds c.before.head?, ← map_fst_bonds c'.before.head?]
  exact congrArg _ h

theorem bonds_of_cons (h : c.after = t :: rest) (ht : t.isWhitespace = false) :
    c.bonds = (t, c.before.head?.any (sticky · t)) :: (c.next t rest).bonds := by
  rw [Cursor.bonds, h, bonds_cons_of_solid ht]
  rfl

theorem bonds_next_eq (h : c.bonds = c'.bonds) (hafter : c.after = t :: rest)
    (hafter' : c'.after = t :: rest') (ht : t.isWhitespace = false) :
    (c.next t rest).bonds = (c'.next t rest').bonds := by
  rw [bonds_of_cons hafter ht, bonds_of_cons hafter' ht] at h
  exact (List.cons.inj h).2

/-- A token that sticks to the one before it is known by its bond. -/
theorem head?_eq_iff_of_sticky {q : Token} (hsticky : sticky q t) (ht : t.isWhitespace = false)
    (ts : List Token) : ts.head? = some t ↔ (Token.bonds (some q) ts).head? = some (t, true) := by
  cases ts with
  | nil => simp [Token.bonds]
  | cons u us =>
    cases hu : u.isWhitespace with
    | true =>
      rw [bonds_cons_of_blank hu]
      refine ⟨fun h => ?_, fun h => absurd (head?_bonds_none h) (by simp)⟩
      obtain rfl : u = t := by simpa using h
      rw [ht] at hu
      cases hu
    | false =>
      rw [bonds_cons_of_solid hu]
      simp only [List.head?_cons, Option.some.injEq, Option.any_some, Prod.mk.injEq]
      exact ⟨fun h => ⟨h, h ▸ hsticky⟩, fun h => h.1⟩

/-- Where the step back behind a minus leads: in front of the minus, or in front of a blank. -/
theorem bonds_unconsume_skip (h : c.after = mark "-" :: rest) :
    (c.next (mark "-") rest).skip.unconsume.bonds =
      if lead rest = [] then c.bonds else (c.next (mark "-") rest).bonds := by
  have hcore := lead_append_core rest
  split
  · next hlead =>
    rw [hlead, List.nil_append] at hcore
    have hskip : (c.next (mark "-") rest).skip = c.next (mark "-") rest := by
      simp [skip, Cursor.next, gap, show rest.takeWhile isWhitespace = [] from hlead,
        show rest.dropWhile isWhitespace = rest from hcore, lineFeeds]
    rw [hskip, Cursor.bonds, Cursor.bonds, h]
    rfl
  · next hlead =>
    have hback : (lead rest).reverse ≠ [] := by simpa using hlead
    obtain ⟨v, vs, hv⟩ := List.exists_cons_of_ne_nil hback
    have hblank : v.isWhitespace := by
      have hmem : v ∈ lead rest := List.mem_reverse.mp (hv ▸ List.mem_cons_self)
      exact List.mem_takeWhile_imp hmem
    have hback : (c.next (mark "-") rest).skip.unconsume.after = v :: core rest := by
      have hgap : (rest.takeWhile isWhitespace).reverse = v :: vs := hv
      simp [Cursor.unconsume, skip, Cursor.next, gap, hgap]
      rfl
    rw [Cursor.bonds, hback, bonds_cons_of_blank hblank, bonds_none_core, Cursor.bonds]
    exact ((bonds_eq_of_lead_ne_nil hlead).trans (bonds_none_core rest)).symm

theorem refused_of_bonds (h : ∀ b ∈ c.bonds.head?, b.1 ≠ mark "[" ∧ b.1.kind ≠ .string) :
    Refused c := by
  intro t ht
  rw [ahead, ← map_fst_bonds c.before.head?, List.head?_map] at ht
  obtain ⟨b, hb, rfl⟩ := Option.map_eq_some_iff.mp ht
  exact h b hb

theorem refused_of_minus (h : c.after = mark "-" :: rest) {u : Cursor} (hu : u.bonds = c.bonds) :
    Refused u := by
  refine refused_of_bonds ?_
  rw [hu, bonds_of_cons h rfl]
  rintro _ ⟨⟩
  exact ⟨show mark "-" ≠ mark "[" by decide, show TokenKind.other ≠ .string by decide⟩

/-- Where blanks follow one minus and not the other, what comes behind does not stick to it. -/
theorem refused_of_lead {u : Cursor}
    (h : (c.next (mark "-") rest).bonds = (c'.next (mark "-") rest').bonds)
    (hlead : lead rest = []) (hlead' : lead rest' ≠ [])
    (hu : u.bonds = (c.next (mark "-") rest).bonds) : Refused u := by
  refine refused_of_bonds ?_
  rintro ⟨t, b⟩ hb
  rw [hu] at hb
  have hfree : b = false := by
    have hb' : (Token.bonds (some (mark "-")) rest').head? = some (t, b) :=
      (congrArg List.head? h).symm.trans hb
    rw [bonds_eq_of_lead_ne_nil hlead'] at hb'
    exact head?_bonds_none hb'
  cases rest with
  | nil => cases hb
  | cons v vs =>
    cases hv : v.isWhitespace with
    | true => simp [lead, hv] at hlead
    | false =>
      have hbond : (v, sticky (mark "-") v) = (t, b) := by
        have hhead : (Token.bonds (some (mark "-")) (v :: vs)).head? = some (t, b) := hb
        rw [bonds_cons_of_solid hv] at hhead
        simpa using hhead
      obtain ⟨rfl, rfl⟩ := Prod.mk.inj hbond
      have hparts : decide (v = mark "[") = false ∧ v.kind ≠ .string := by
        simpa [sticky] using hfree
      exact ⟨of_decide_eq_false hparts.1, hparts.2⟩

end Cursor

/-- Two runs over tokens that differ in blanks that do not matter. -/
def Pairing.spacing : Pairing where
  rel c c' := c.bonds = c'.bonds
  past c c' := c.bonds = c'.bonds
  strict := True
  err x x' := x'.reason = x.reason
  skip h := by rw [bonds_skip, bonds_skip, h]
  head h := by rw [head?_after_skip, head?_after_skip, ahead_eq_of_bonds_eq h]
  next h hafter hafter' ht _ := bonds_next_eq h hafter hafter' ht
  semicolon h hafter hafter' := bonds_next_eq h hafter hafter' rfl
  forget h := h
  revive h := .inl h
  fail _ _ := rfl
  dots {c c' rest rest'} h hafter hafter' := by
    have hnext := bonds_next_eq h hafter hafter' rfl
    have hsticky : sticky (mark ".") (mark ".") := by decide
    rw [head?_eq_iff_of_sticky hsticky rfl rest, head?_eq_iff_of_sticky hsticky rfl rest']
    rw [Cursor.bonds, Cursor.bonds] at hnext
    rw [show Token.bonds (some (mark ".")) rest = Token.bonds (some (mark ".")) rest' from hnext]
  minus {c c' rest rest'} h hafter hafter' := by
    have hnext := bonds_next_eq h hafter hafter' rfl
    have hback := bonds_unconsume_skip hafter
    have hback' := bonds_unconsume_skip hafter'
    have hfail (u u' : Cursor) (_ : Refused u) (_ : Refused u') (reason : Reason) :
        (u'.fail reason).reason = (u.fail reason).reason := rfl
    by_cases hlead : lead rest = [] <;> by_cases hlead' : lead rest' = []
    · rw [if_pos hlead] at hback
      rw [if_pos hlead'] at hback'
      exact .inl (hback.trans (h.trans hback'.symm))
    · rw [if_pos hlead] at hback
      rw [if_neg hlead'] at hback'
      exact .inr ⟨refused_of_minus hafter hback,
        refused_of_lead hnext hlead hlead' (hback'.trans hnext.symm), hfail⟩
    · rw [if_neg hlead] at hback
      rw [if_pos hlead'] at hback'
      exact .inr ⟨refused_of_lead hnext.symm hlead' hlead (hback.trans hnext),
        refused_of_minus hafter' hback', hfail⟩
    · rw [if_neg hlead] at hback
      rw [if_neg hlead'] at hback'
      exact .inl (hback.trans (hnext.trans hback'.symm))

variable {d : Dialect} {ts us : List Token}

/-- What is read from a cursor on depends on the bonds ahead alone, the places of errors apart. -/
theorem parseFrom_of_bonds_eq {c c' : Cursor} (hd : d.keepTrivia = false) (h : c.bonds = c'.bonds) :
    (parseFrom d c).mapError ParseError.reason = (parseFrom d c').mapError ParseError.reason := by
  have hruns := @Grammar.twins_program Pairing.spacing d (fun _ _ h => h) c c' h
  rw [plain_eq_self hd] at hruns
  rw [parseFrom, parseFrom]
  cases hrun : (Grammar.program d : Grammar.Reader Program) c with
  | error x =>
    obtain ⟨x', hrun', hreason⟩ := hruns.error trivial x hrun
    rw [hrun']
    exact congrArg Except.error hreason.symm
  | ok r =>
    obtain ⟨c1', hrun', -⟩ := hruns.ok r.1 r.2 hrun
    have hparse : parseFrom d c = .ok r.1 := by
      rw [parseFrom, hrun]
      rfl
    rw [hrun', erase_eq_self_of_parseFrom hd hparse]
    rfl

/-- Where no trivia is kept, two token lists that differ only in blanks that do not matter are
parsed into the same program, or fail for the same reason. -/
theorem parse_of_bonds_eq (hd : d.keepTrivia = false)
    (h : Token.bonds none ts = Token.bonds none us) :
    (parse d ts).mapError ParseError.reason = (parse d us).mapError ParseError.reason :=
  parseFrom_of_bonds_eq hd h

/-- Behind a minus that blanks follow there may be more of them. -/
theorem parse_of_bonds_eq_comments :
    ∃ ts us, tokenize "dictionary D \x7b long a = - []; \x7d;" = .ok ts ∧
      tokenize "dictionary\nD\x7blong a=- /* none */[];\x7d/* D */;" = .ok us ∧
      (parse {} ts).isOk ∧
      (parse {} ts).mapError ParseError.reason = (parse {} us).mapError ParseError.reason := by
  obtain ⟨ts, hts, hparse⟩ := @exists_of_map_eq_ok _ _ _ (fun ts => (parse {} ts).isOk)
    (tokenize "dictionary D \x7b long a = - []; \x7d;") true (by decide +kernel)
  obtain ⟨us, hus, -⟩ := @exists_of_map_eq_ok _ _ _ (fun _ => ())
    (tokenize "dictionary\nD\x7blong a=- /* none */[];\x7d/* D */;") () (by decide +kernel)
  have hbonds : (tokenize "dictionary D \x7b long a = - []; \x7d;").map (Token.bonds none) =
      (tokenize "dictionary\nD\x7blong a=- /* none */[];\x7d/* D */;").map (Token.bonds none) := by
    decide +kernel
  rw [hts, hus] at hbonds
  exact ⟨ts, us, hts, hus, hparse, parse_of_bonds_eq rfl (Except.ok.inj hbonds)⟩

/-- Without a minus in front of a bracket or a string, blanks matter between dots alone. -/
theorem parse_of_solids_eq (hd : d.keepTrivia = false) (h : Token.solids ts = Token.solids us)
    (hts : Token.DotsTogether ts) (hus : Token.DotsTogether us) (hminus : Token.Unsigned ts) :
    (parse d ts).mapError ParseError.reason = (parse d us).mapError ParseError.reason := by
  have hminus' : Token.Unsigned us := by rwa [Token.Unsigned, ← h]
  exact parseFrom_of_bonds_eq hd
    (Token.bonds_eq_of_together h (hts.together hminus) (hus.together hminus'))

/-- A blank behind a minus turns a rejected default into an accepted one. -/
theorem parse_ne_of_solids_eq :
    ∃ ts us, tokenize "dictionary D \x7b long a = - []; \x7d;" = .ok ts ∧
      tokenize "dictionary D \x7b long a = -[]; \x7d;" = .ok us ∧
      Token.solids ts = Token.solids us ∧ Token.DotsTogether ts ∧ Token.DotsTogether us ∧
      (parse {} ts).isOk ∧ ∃ e, parse {} us = .error e ∧ e.reason = .noDefault := by
  obtain ⟨ts, hts, htogether⟩ := @exists_of_map_eq_ok _ _ _
    (fun ts => (decide (Token.DotsTogether ts), (parse {} ts).isOk))
    (tokenize "dictionary D \x7b long a = - []; \x7d;") (true, true) (by decide +kernel)
  obtain ⟨us, hus, htogether'⟩ := @exists_of_map_eq_ok _ _ _
    (fun us => (decide (Token.DotsTogether us), (parse {} us).map fun _ => ()))
    (tokenize "dictionary D \x7b long a = -[]; \x7d;")
    (true, .error ⟨.noDefault, 1, [.mark "-", .mark "[", .mark "]", .mark ";", .blank " "]⟩)
    (by decide +kernel)
  have hsolids : (tokenize "dictionary D \x7b long a = - []; \x7d;").map Token.solids =
      (tokenize "dictionary D \x7b long a = -[]; \x7d;").map Token.solids := by
    decide +kernel
  rw [hts, hus] at hsolids
  obtain ⟨hdots, hparse⟩ := Prod.mk.inj htogether
  obtain ⟨hdots', hfail⟩ := Prod.mk.inj htogether'
  refine ⟨ts, us, hts, hus, Except.ok.inj hsolids, of_decide_eq_true hdots,
    of_decide_eq_true hdots', hparse, ?_⟩
  cases hrun : parse {} us with
  | error e =>
    rw [hrun] at hfail
    obtain rfl := Except.error.inj hfail
    exact ⟨_, rfl, rfl⟩
  | ok p =>
    rw [hrun] at hfail
    cases hfail

end WebIdl

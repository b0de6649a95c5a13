import WebIdl.Proofs.Progress.Endings
import WebIdl.Proofs.Spacing

/-!
# One program behind another

A token list that parses may be followed by a second one. Its definitions are read as they are
alone, since a definition looks no further than to its `;`, and the rest is then read as if nothing
stood in front of it.
-/

namespace WebIdl

open Token Cursor

namespace Cursor

variable {c c' : Cursor} {us : List Token}

/-- The cursor with more tokens at the end. -/
def extend (c : Cursor) (us : List Token) : Cursor :=
  ⟨c.before, c.after ++ us, c.line⟩

/-- As long as a token is ahead, all blanks that are skipped stand in front of it. -/
theorem skip_extend (h : c.ahead ≠ []) : (c.extend us).skip = c.skip.extend us := by
  have hsolid : ∃ t ∈ c.after, t.isWhitespace = false := by
    obtain ⟨t, ht⟩ := List.exists_mem_of_ne_nil _ h
    exact ⟨t, by simpa [ahead, solids] using ht⟩
  obtain ⟨t, ht, hkind⟩ := hsolid
  have hdrop : (c.after ++ us).dropWhile isWhitespace = c.after.dropWhile isWhitespace ++ us := by
    rw [List.dropWhile_append, if_neg]
    simpa using ⟨t, ht, hkind⟩
  have htake : (c.after ++ us).takeWhile isWhitespace = c.after.takeWhile isWhitespace := by
    have hparts := @List.takeWhile_append_dropWhile _ isWhitespace (c.after ++ us)
    rw [hdrop, ← List.append_assoc] at hparts
    have hwhole := List.append_cancel_right hparts
    conv_rhs at hwhole => rw [← @List.takeWhile_append_dropWhile _ isWhitespace c.after]
    exact List.append_cancel_right hwhole
  simp [skip, extend, gap, hdrop, htake]

theorem unconsume_extend (c : Cursor) (us : List Token) :
    (c.extend us).unconsume = c.unconsume.extend us := by
  cases h : c.before <;> simp [unconsume, extend, h]

theorem mem_ahead_unconsume {t : Token} (h : t ∈ c.ahead) : t ∈ c.unconsume.ahead := by
  unfold unconsume
  split
  · exact h
  · exact ((List.sublist_cons_self _ _).filter _).subset h

/-- Nothing stands in front of the cursor, or a definition has just ended. -/
def Fresh (c : Cursor) : Prop :=
  ∀ t ∈ c.before.head?, t = mark ";"

/-- Nothing sticks to a `;`. -/
theorem Fresh.bonds_eq (h : Fresh c) : c.bonds = Token.bonds none c.after := by
  cases hafter : c.after with
  | nil => rw [Cursor.bonds, hafter]; rfl
  | cons t ts =>
    cases hbefore : c.before.head? with
    | none => rw [Cursor.bonds, hafter, hbefore]
    | some u =>
      obtain rfl := h u hbefore
      rw [Cursor.bonds, hafter, hbefore]
      rfl

end Cursor

/-- Blanks in front of a list are no part of its bonds. -/
theorem Token.bonds_append_of_blank {ws us : List Token} (h : solids ws = []) :
    Token.bonds none (ws ++ us) = Token.bonds none us := by
  induction ws with
  | nil => rfl
  | cons w ws ih =>
    cases hw : w.isWhitespace with
    | true =>
      rw [solids_cons_of_blank hw] at h
      rw [List.cons_append, bonds_cons_of_blank hw, ih h]
    | false =>
      rw [solids_cons_of_solid hw] at h
      cases h

/-- Two runs, of which the second has more tokens at the end. They go together as long as the
first one has a `;` to come to. -/
def Pairing.extension (us : List Token) : Pairing where
  rel c c' := c' = c.extend us ∧ mark ";" ∈ c.ahead
  past c c' := c' = c.extend us
  strict := False
  err _ _ := True
  skip := by
    rintro c _ ⟨rfl, hmem⟩
    exact ⟨skip_extend (List.ne_nil_of_mem hmem), by rwa [ahead_skip]⟩
  head := by
    rintro c _ ⟨rfl, hmem⟩
    have hne : c.skip.after ≠ [] := by
      intro hnil
      have hahead : c.skip.ahead = [] := by rw [ahead, hnil]; rfl
      rw [ahead_skip] at hahead
      exact absurd (hahead ▸ hmem) List.not_mem_nil
    rw [skip_extend (List.ne_nil_of_mem hmem)]
    exact (List.head?_append_of_ne_nil _ hne).symm
  next := by
    rintro c _ t rest rest' ⟨rfl, hmem⟩ hafter hafter' ht hne
    obtain rfl : rest' = rest ++ us := by simpa [extend, hafter] using hafter'.symm
    refine ⟨rfl, ?_⟩
    rw [ahead, hafter, solids_cons_of_solid ht] at hmem
    exact (List.mem_cons.mp hmem).resolve_left hne.symm
  semicolon := by
    rintro c _ rest rest' ⟨rfl, -⟩ hafter hafter'
    obtain rfl : rest' = rest ++ us := by simpa [extend, hafter] using hafter'.symm
    rfl
  forget h := h.1
  revive := by
    rintro c _ rfl
    by_cases hmem : mark ";" ∈ c.ahead
    · exact .inl ⟨rfl, hmem⟩
    · exact .inr ⟨id, hmem⟩
  fail _ _ := trivial
  dots := by
    rintro c _ rest rest' ⟨rfl, hmem⟩ hafter hafter'
    obtain rfl : rest' = rest ++ us := by simpa [extend, hafter] using hafter'.symm
    rw [ahead, hafter] at hmem
    cases rest with
    | nil => exact absurd hmem (by decide)
    | cons u rest => rfl
  minus := by
    rintro c _ rest rest' ⟨rfl, hmem⟩ hafter hafter'
    obtain rfl : rest' = rest ++ us := by simpa [extend, hafter] using hafter'.symm
    have hrest : mark ";" ∈ (c.next (mark "-") rest).ahead := by
      rw [ahead, hafter, solids_cons_of_solid rfl] at hmem
      exact (List.mem_cons.mp hmem).resolve_left (by decide)
    refine .inl ⟨?_, mem_ahead_unconsume (by rwa [ahead_skip])⟩
    rw [← unconsume_extend, ← skip_extend (List.ne_nil_of_mem hrest)]
    rfl

namespace Grammar

variable {d : Dialect} {us : List Token}

theorem run_bind_of_eq_ok {α β : Type} {r : Reader α} {f : α → Reader β} {c c1 : Cursor} {a : α}
    (h : r c = .ok (a, c1)) : (r >>= f) c = f a c1 := by
  show (r c >>= fun p => f p.1 p.2) = _
  rw [h]
  rfl

/-- What a definition is read from holds the `;` that it ends with. -/
theorem mem_ahead_of_programEntry {c c' : Cursor} {x : Definition}
    (h : (programEntry d : Reader _) c = .ok (.inl x, c')) : mark ";" ∈ c.ahead := by
  obtain ⟨⟨read, hafter, hbefore, -⟩, hclears⟩ := (gains_programEntry d).answers c _ _ h
  have hlast := answers_programEntry_end d c _ _ h
  rcases List.eq_nil_or_concat read with rfl | ⟨init, t, rfl⟩
  · have hlt := (hclears rfl).length_lt
    rw [ahead, ahead, hafter] at hlt
    exact absurd hlt (Nat.lt_irrefl _)
  · rw [List.concat_eq_append] at hafter hbefore
    obtain rfl : t = mark ";" := by simpa [hbefore] using hlast
    simp [ahead, hafter]

/-- The entries up to the end of the first list are read from the longer one as well. What is read
then is what a reader would find that starts with the second list. -/
theorem answers_entries_extend (us : List Token) (n : Nat) (c : Cursor) (hc : c.Fresh) :
    Answers c (untilWithin (programEntry d) n) fun r c1 => c1.after = [] →
      ∃ c2 : Cursor, c2.bonds = Token.bonds none us ∧
        (untilDone (programEntry d.plain) : Reader _) (c.extend us) =
          ((untilDone (programEntry d.plain) : Reader _) c2).map
            fun s => ((r.1.map Definition.erase ++ s.1.1, s.1.2), s.2) := by
  induction n generalizing c with
  | zero => exact answers_fail
  | succ n ih =>
    refine answers_bind fun r c1 hentry => ?_
    have hbehind := answers_programEntry_end d c _ _ hentry
    rcases r with x | items
    · -- The definition ends with its `;`, so the second run reads it too.
      have hfresh : c1.Fresh := by
        intro t ht
        exact Option.some.inj (ht.symm.trans hbehind)
      refine answers_bind ((ih c1 hfresh).mono fun rest c2 h2 => answers_pure fun hend => ?_)
      obtain ⟨c3, hbonds, hrun⟩ := h2 hend
      refine ⟨c3, hbonds, ?_⟩
      obtain ⟨_, hentry', rfl⟩ := (@twins_programEntry (Pairing.extension us) d c (c.extend us)
        ⟨rfl, mem_ahead_of_programEntry hentry⟩).ok _ _ hentry
      rw [untilDone_eq (gains_programEntry d.plain), run_bind_of_eq_ok hentry']
      show ((untilDone (programEntry d.plain) : Reader _) (c1.extend us) >>= fun p => pure _) = _
      rw [hrun, ← untilDone_eq (gains_programEntry d.plain)]
      cases (untilDone (programEntry d.plain) : Reader _) c3 <;> rfl
    · -- Nothing but blanks is left of the first list.
      refine answers_pure fun hend => ⟨c.extend us, ?_, ?_⟩
      · have hblank : solids c.after = [] := by
          have hahead : c1.ahead = [] := by rw [ahead, hend]; rfl
          exact hbehind.symm.trans hahead
        have hfresh : (c.extend us).Fresh := hc
        rw [hfresh.bonds_eq]
        exact Token.bonds_append_of_blank hblank
      · cases (untilDone (programEntry d.plain) : Reader _) (c.extend us) <;> rfl

/-- A program is what its entries are, if they reach to the end. -/
theorem parseFrom_eq (d : Dialect) (c : Cursor) :
    parseFrom d c = ((untilDone (programEntry d) : Reader _) c).bind fun r =>
      if r.2.atEnd then .ok ⟨r.1.1, r.1.2⟩ else .error (r.2.fail .unrecognised) := by
  show Except.map Prod.fst ((untilDone (programEntry d) : Reader _) c >>= fun r =>
    (if r.2.atEnd then pure ⟨r.1.1, r.1.2⟩ else fail .unrecognised : Reader Program) r.2) = _
  cases (untilDone (programEntry d) : Reader _) c with
  | error e => rfl
  | ok r =>
    show Except.map Prod.fst ((if r.2.atEnd then pure ⟨r.1.1, r.1.2⟩ else fail .unrecognised :
      Reader Program) r.2) = if r.2.atEnd then .ok ⟨r.1.1, r.1.2⟩ else .error _
    split <;> rfl

end Grammar

/-- What parses may stand in front of any token list. Its definitions come first then, and the rest
is read as it is alone. -/
theorem parse_append {d : Dialect} {ts : List Token} {p : Program} (h : parse d ts = .ok p)
    (us : List Token) :
    (parse d.plain (ts ++ us)).mapError ParseError.reason =
      ((parse d.plain us).mapError ParseError.reason).map fun q =>
        ⟨p.definitions.map Definition.erase ++ q.definitions, q.trailing⟩ := by
  rw [parse_eq_parseFrom, Grammar.parseFrom_eq] at h
  cases hrun : (Grammar.untilDone (Grammar.programEntry d) : Grammar.Reader _)
      (Cursor.ofTokens ts) with
  | error e =>
    rw [hrun] at h
    cases h
  | ok r =>
    obtain ⟨⟨xs, items⟩, c1⟩ := r
    rw [hrun] at h
    have hend : c1.atEnd ∧ p.definitions = xs := by
      simp only [Except.bind] at h
      split at h
      · next hend =>
        cases h
        exact ⟨hend, rfl⟩
      · cases h
    obtain ⟨hend, rfl⟩ := hend
    obtain ⟨c2, hbonds, hextend⟩ := Grammar.answers_entries_extend us _ (Cursor.ofTokens ts)
      (by rintro _ ⟨⟩) _ _ hrun (List.isEmpty_iff.mp hend)
    have hfirst : parseFrom d.plain (Cursor.ofTokens (ts ++ us)) =
        (parseFrom d.plain c2).map fun q =>
          ⟨p.definitions.map Definition.erase ++ q.definitions, q.trailing⟩ := by
      rw [show Cursor.ofTokens (ts ++ us) = (Cursor.ofTokens ts).extend us from rfl,
        Grammar.parseFrom_eq, Grammar.parseFrom_eq, hextend]
      cases (Grammar.untilDone (Grammar.programEntry d.plain) : Grammar.Reader _) c2 with
      | error e => rfl
      | ok s =>
        simp only [Except.map, Except.bind]
        split <;> rfl
    have hrest : (parseFrom d.plain c2).mapError ParseError.reason =
        (parseFrom d.plain (Cursor.ofTokens us)).mapError ParseError.reason :=
      parseFrom_of_bonds_eq rfl hbonds
    rw [parse_eq_parseFrom, parse_eq_parseFrom, hfirst, ← hrest]
    cases parseFrom d.plain c2 <;> rfl

end WebIdl

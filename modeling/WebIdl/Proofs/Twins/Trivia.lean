import WebIdl.Proofs.Twins.Statements

/-!
# Parsing without trivia

Keeping trivia changes what is kept and nothing else: with and without it the same tokens are read,
and the same errors stand at the same places.
-/

namespace WebIdl

open Token Cursor

/-- Two runs over the same tokens. -/
def Pairing.same : Pairing where
  rel c c' := c = c'
  past c c' := c = c'
  strict := True
  err x x' := x = x'
  skip := by
    rintro c _ rfl
    rfl
  head := by
    rintro c _ rfl
    rfl
  next := by
    rintro c _ t rest rest' rfl hafter hafter' - -
    obtain rfl : rest = rest' := by simpa [hafter] using hafter'
    rfl
  semicolon := by
    rintro c _ rest rest' rfl hafter hafter'
    obtain rfl : rest = rest' := by simpa [hafter] using hafter'
    rfl
  forget h := h
  revive h := .inl h
  fail := by
    rintro c _ rfl reason
    rfl
  dots := by
    rintro c _ rest rest' rfl hafter hafter'
    obtain rfl : rest = rest' := by simpa [hafter] using hafter'
    exact Iff.rfl
  minus := by
    rintro c _ rest rest' rfl hafter hafter'
    obtain rfl : rest = rest' := by simpa [hafter] using hafter'
    exact .inl rfl

/-- The program that is read from a cursor on. -/
def parseFrom (d : Dialect) (c : Cursor) : Except ParseError Program :=
  ((Grammar.program d : Grammar.Reader Program) c).map Prod.fst

theorem parse_eq_parseFrom (d : Dialect) (ts : List Token) :
    parse d ts = parseFrom d (Cursor.ofTokens ts) :=
  rfl

/-- Without trivia the same program is read, less its trivia, or the same error is met. -/
theorem parseFrom_plain (d : Dialect) (c : Cursor) :
    parseFrom d.plain c = (parseFrom d c).map Program.erase := by
  have hruns := @Grammar.twins_program Pairing.same d (fun _ _ h => h) c _ rfl
  rw [parseFrom, parseFrom]
  cases hrun : (Grammar.program d : Grammar.Reader Program) c with
  | error x =>
    obtain ⟨_, hrun', rfl⟩ := hruns.error trivial x hrun
    rw [hrun']
    rfl
  | ok r =>
    obtain ⟨c', hrun', -⟩ := hruns.ok r.1 r.2 hrun
    rw [hrun']
    rfl

theorem parse_plain (d : Dialect) (ts : List Token) :
    parse d.plain ts = (parse d ts).map Program.erase :=
  parseFrom_plain d (Cursor.ofTokens ts)

theorem plain_eq_self {d : Dialect} (hd : d.keepTrivia = false) : d.plain = d := by
  cases d
  simp_all [Dialect.plain]

/-- Dialects that differ in the trivia that they keep, and in nothing else, read programs that are
equal once all trivia is erased, or meet the same error at the same place. -/
theorem parse_of_plain_eq {d d' : Dialect} (h : d.plain = d'.plain) (ts : List Token) :
    (∃ p p', parse d ts = .ok p ∧ parse d' ts = .ok p' ∧ p.erase = p'.erase) ∨
      ∃ e, parse d ts = .error e ∧ parse d' ts = .error e := by
  have hsame : (parse d ts).map Program.erase = (parse d' ts).map Program.erase := by
    rw [← parse_plain, ← parse_plain, h]
  cases hp : parse d ts with
  | error e =>
    cases hp' : parse d' ts with
    | error e' =>
      rw [hp, hp'] at hsame
      obtain rfl : e = e' := Except.error.inj hsame
      exact .inr ⟨e, rfl, rfl⟩
    | ok p' =>
      rw [hp, hp'] at hsame
      cases hsame
  | ok p =>
    cases hp' : parse d' ts with
    | error e' =>
      rw [hp, hp'] at hsame
      cases hsame
    | ok p' =>
      rw [hp, hp'] at hsame
      exact .inl ⟨p, p', rfl, rfl, Except.ok.inj hsame⟩

/-- The comments that one dialect keeps are the whole difference. Those in front of an argument that
is not there are kept by neither. -/
theorem parse_of_plain_eq_comments :
    ∃ ts p p', tokenize ("interface A \x7b /* f */ T f(/* x */ long x, [B] /* y */ T y /* z */); " ++
          "T g(/* none */); // end\n\x7d;") = .ok ts ∧
      parse { keepTrivia := true } ts = .ok p ∧ parse {} ts = .ok p' ∧
      writeDefinitions p.definitions =
        "interface A \x7b /* f */ T f(/* x */ long x, [B] /* y */ T y /* z */); T g(); // end\n\x7d;" ∧
      writeDefinitions p'.definitions = "interface A \x7bT f(long x, [B] T y);T g();\x7d;" ∧
      p.erase = p'.erase := by
  obtain ⟨ts, hts, hwritten⟩ := @exists_of_map_eq_ok _ _ _
    (fun ts => ((parse { keepTrivia := true } ts).map fun p => writeDefinitions p.definitions,
      (parse {} ts).map fun p => writeDefinitions p.definitions))
    (tokenize ("interface A \x7b /* f */ T f(/* x */ long x, [B] /* y */ T y /* z */); " ++
      "T g(/* none */); // end\n\x7d;"))
    (.ok ("interface A \x7b /* f */ T f(/* x */ long x, [B] /* y */ T y /* z */); T g(); // end\n\x7d;"),
      .ok "interface A \x7bT f(long x, [B] T y);T g();\x7d;") (by decide +kernel)
  obtain ⟨hkept, hplain⟩ := Prod.mk.inj hwritten
  obtain ⟨p, hp, hwritten⟩ := exists_of_map_eq_ok hkept
  obtain ⟨p', hp', hwritten'⟩ := exists_of_map_eq_ok hplain
  refine ⟨ts, p, p', hts, hp, hp', hwritten, hwritten', ?_⟩
  rcases @parse_of_plain_eq { keepTrivia := true } {} rfl ts with ⟨q, q', hq, hq', hsame⟩ | ⟨e, he, -⟩
  · obtain rfl : p = q := Except.ok.inj (hp.symm.trans hq)
    obtain rfl : p' = q' := Except.ok.inj (hp'.symm.trans hq')
    exact hsame
  · rw [hp] at he
    cases he

/-- A program that is read without trivia has none to lose. -/
theorem erase_eq_self_of_parseFrom {d : Dialect} {c : Cursor} {p : Program}
    (hd : d.keepTrivia = false) (h : parseFrom d c = .ok p) : p.erase = p := by
  have hplain := parseFrom_plain d c
  rw [plain_eq_self hd, h] at hplain
  exact (Except.ok.inj hplain).symm

end WebIdl

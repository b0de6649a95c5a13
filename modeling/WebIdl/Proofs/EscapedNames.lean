import WebIdl.Proofs.Lexing.Lexable
import WebIdl.Proofs.Renaming.Productions
import WebIdl.Proofs.Twins.Trivia

/-!
# Names behind escape marks

An escape mark is there so that any name may be used for anything. For all names but four that is
so: whatever names stand behind the marks, the same lists are accepted, and those that are not fail
in the same place for the same reason. The four others are looked at when their mark is already
gone, and each of them is refused somewhere where every other name is accepted.
-/

namespace WebIdl

open Token

variable {ρ : Renaming} {d : Dialect}

/-- Lists that differ at one place only. -/
theorem forall₂_at {R : Token → Token → Prop} (hsame : ∀ t, R t t) {t t' : Token} (h : R t t')
    (before after : List Token) : List.Forall₂ R (before ++ t :: after) (before ++ t' :: after) :=
  List.rel_append (List.forall₂_same.mpr fun u _ => hsame u)
    (.cons h (List.forall₂_same.mpr fun u _ => hsame u))

theorem parseFrom_of_renamed {c c' : Cursor} (h : c.Renamed ρ c') :
    (∃ p p', parseFrom d c = .ok p ∧ parseFrom d c' = .ok p') ∨
      ∃ e e', parseFrom d c = .error e ∧ parseFrom d c' = .error e' ∧ e.Renamed ρ e' := by
  have hruns := (Grammar.blind_program d).alike c c' h
  rw [parseFrom, parseFrom]
  revert hruns
  generalize (Grammar.program d : Grammar.Reader Program) c = x
  generalize (Grammar.program d : Grammar.Reader Program) c' = x'
  rintro (_ | he)
  · exact .inl ⟨_, _, rfl, rfl⟩
  · exact .inr ⟨_, _, rfl, rfl, he⟩

/-- Exchanging names behind escape marks changes neither whether a list is accepted nor why and
where it is not. Reasons that quote the name of a generic type quote the name that stands there. -/
theorem parse_of_renamed (ρ : Renaming) (d : Dialect) {ts ts' : List Token}
    (h : List.Forall₂ (Token.Renamed ρ) ts ts') :
    (∃ p p', parse d ts = .ok p ∧ parse d ts' = .ok p') ∨
      ∃ e e', parse d ts = .error e ∧ parse d ts' = .error e' ∧ e.Renamed ρ e' :=
  parseFrom_of_renamed (Cursor.renamed_ofTokens h)

/-- The name in front of an unfinished `<` is exchanged, and the reason quotes it. -/
theorem parse_of_renamed_generic :
    ∃ e e', parse {} [word "typedef", blank " ", word "_interface", mark "<", mark ";"] =
        .error e ∧
      parse {} [word "typedef", blank " ", word "_name", mark "<", mark ";"] = .error e' ∧
      e.reason = .genericArgument "interface" ∧ e.Renamed .untoldNames e' := by
  have hname : Token.Renamed .untoldNames (word "_interface") (word "_name") := by
    show Token.Renamed .untoldNames (word ("_" ++ "interface")) (word ("_" ++ "name"))
    exact .escaped ⟨by decide, by decide⟩
  have hfail : (parse {} [word "typedef", blank " ", word "_interface", mark "<",
      mark ";"]).map (fun _ => ()) = .error ⟨.genericArgument "interface", 1, [mark ";"]⟩ := by
    decide +kernel
  have hlists : List.Forall₂ (Token.Renamed .untoldNames)
      [word "typedef", blank " ", word "_interface", mark "<", mark ";"]
      [word "typedef", blank " ", word "_name", mark "<", mark ";"] :=
    forall₂_at .same hname [word "typedef", blank " "] [mark "<", mark ";"]
  rcases parse_of_renamed .untoldNames {} hlists with
    ⟨p, p', hp, -⟩ | ⟨e, e', he, he', hrenamed⟩
  · rw [hp] at hfail
    cases hfail
  · rw [he] at hfail
    exact ⟨e, e', he, he', congrArg ParseError.reason (Except.error.inj hfail), hrenamed⟩

/-- The same token, or any escaped name in place of another. -/
def Token.Exchanged (t t' : Token) : Prop :=
  t = t' ∨ ∃ k m, IsName k ∧ IsName m ∧ t = word ("_" ++ k) ∧ t' = word ("_" ++ m)

/-- A serializer pattern of two names, the first of them escaped. -/
def escapedPattern (name : String) : List Token :=
  [word "interface", blank " ", word "A", mark "\x7b", word "serializer", mark "=",
    mark "\x7b"] ++ word ("_" ++ name) ::
    [mark ",", word "a", mark "\x7d", mark ";", mark "\x7d", mark ";"]

/-- If any name could be exchanged, `_getter, a` would be a pattern as `_name, a` is. -/
theorem not_parse_of_exchanged :
    ¬ ∀ (d : Dialect) (ts ts' : List Token), List.Forall₂ Token.Exchanged ts ts' →
      (∃ p p', parse d ts = .ok p ∧ parse d ts' = .ok p') ∨
        ∃ e e', parse d ts = .error e ∧ parse d ts' = .error e' ∧ e.reason = e'.reason := by
  intro hclaim
  have hlists : List.Forall₂ Token.Exchanged (escapedPattern "getter") (escapedPattern "name") :=
    forall₂_at (fun _ => .inl rfl) (.inr ⟨"getter", "name", by decide, by decide, rfl, rfl⟩) _ _
  have hrefused : (parse {} (escapedPattern "getter")).isOk = false := by decide +kernel
  have haccepted : (parse {} (escapedPattern "name")).isOk = true := by decide +kernel
  rcases hclaim {} _ _ hlists with ⟨p, p', hp, -⟩ | ⟨e, e', -, he', -⟩
  · rw [hp] at hrefused
    cases hrefused
  · rw [he'] at haccepted
    cases haccepted

/-- At one place it makes no difference which of the untold names stands behind the mark. -/
theorem isOk_parse_of_untold {before after : List Token} {n m : String}
    (hn : n ∉ tellingNames) (hm : m ∉ tellingNames) :
    (parse d (before ++ word ("_" ++ n) :: after)).isOk =
      (parse d (before ++ word ("_" ++ m) :: after)).isOk := by
  have hrenamed : List.Forall₂ (Token.Renamed .untoldNames) (before ++ word ("_" ++ n) :: after)
      (before ++ word ("_" ++ m) :: after) :=
    forall₂_at .same (.escaped ⟨hn, hm⟩) before after
  rw [parse_eq_parseFrom, parse_eq_parseFrom]
  rcases parseFrom_of_renamed (d := d) (Cursor.renamed_ofTokens hrenamed) with
    ⟨p, p', hp, hp'⟩ | ⟨e, e', he, he', -⟩
  · rw [hp, hp']
    rfl
  · rw [he, he']
    rfl

/-- Each telling name is refused somewhere where every other name is accepted. -/
theorem tellingNames_tell :
    ∀ n ∈ tellingNames, ∃ before after : List Token,
      (parse {} (before ++ word ("_" ++ n) :: after)).isOk = false ∧
        ∀ m ∉ tellingNames, (parse {} (before ++ word ("_" ++ m) :: after)).isOk = true := by
  have htold {n : String} (before after : List Token)
      (hn : (parse {} (before ++ word ("_" ++ n) :: after)).isOk = false)
      (hname : (parse {} (before ++ word ("_" ++ "name") :: after)).isOk = true) :
      ∃ before after : List Token, (parse {} (before ++ word ("_" ++ n) :: after)).isOk = false ∧
        ∀ m ∉ tellingNames, (parse {} (before ++ word ("_" ++ m) :: after)).isOk = true :=
    ⟨before, after, hn, fun m hm => (isOk_parse_of_untold hm (by decide)).trans hname⟩
  have hpattern (opening closing n : String) := @htold n
    [word "interface", blank " ", word "A", mark "\x7b", word "serializer", mark "=", mark opening]
    [mark ",", word "a", mark closing, mark ";", mark "\x7d", mark ";"]
  simp only [tellingNames, List.forall_mem_cons, List.not_mem_nil, false_implies, implies_true,
    and_true]
  refine ⟨?_, ?_, ?_, ?_⟩
  · exact htold [word "typedef", blank " "] [mark "?", word "X", mark ";"] (by decide +kernel)
      (by decide +kernel)
  · exact htold [word "interface", blank " ", word "A", mark "\x7b", word "attribute", blank " "]
      [mark "<", word "long", mark ">", word "x", mark ";", mark "\x7d", mark ";"]
      (by decide +kernel) (by decide +kernel)
  · exact hpattern "\x7b" "\x7d" "getter" (by decide +kernel) (by decide +kernel)
  · exact hpattern "[" "]" "inherit" (by decide +kernel) (by decide +kernel)

end WebIdl

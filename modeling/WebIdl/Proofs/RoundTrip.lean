import WebIdl.Proofs.Answers.Definitions
import WebIdl.Proofs.Erasure
import WebIdl.Proofs.Reading.Programs
import WebIdl.Proofs.Writing.Statements

/-!
# Parsing written programs

A parsed program is well-formed, the text of a well-formed program is cut into the tokens that it
is written with, and from these tokens the program is read again. Without trivia the parse answers
the very same program. With trivia a definition may gain the line break that it is written behind,
but what is written then stays the same.
-/

namespace WebIdl

open Token Spelling Grammar

variable {d : Dialect} {text : String} {p : Program}

theorem solids_entryTokens_ne_nil (e : List Trivia × Definition) : solids (entryTokens e) ≠ [] := by
  have hkind : solids (ofDefinitionKind e.2.kind) ≠ [] := by
    generalize ofDefinitionKind e.2.kind = ts, opens_ofDefinitionKind e.2.kind = hopens
    cases hopens <;> simp
  simp [entryTokens, definitionBody, solids_append, hkind]

theorem map_snd_entries (xs : List Definition) : (entries xs).map Prod.snd = xs := by
  cases xs with
  | nil => rfl
  | cons x xs => simp [entries, Function.comp_def]

theorem erase_eq_of_same {exact : Bool} {p' : Program}
    (h : List.Forall₂ (SameDefinition exact) (entries p.definitions) p'.definitions) :
    p'.erase = p.erase := by
  have hmap : ∀ {es : List (List Trivia × Definition)} {xs : List Definition},
      List.Forall₂ (SameDefinition exact) es xs →
      xs.map Definition.erase = (es.map Prod.snd).map Definition.erase := by
    intro es xs h
    induction h with
    | nil => rfl
    | cons hx _ ih => simp only [List.map_cons, hx.erase, ih]
  rw [Program.erase, Program.erase, hmap h, map_snd_entries]

/-- The line breaks between definitions become leading trivia, in front of which none is added. -/
theorem ofDefinitions_eq_of_same {xs ys : List Definition}
    (h : List.Forall₂ (SameDefinition true) (entries xs) ys) :
    ofDefinitions ys = ofDefinitions xs := by
  have hmore : ∀ {xs ys : List Definition},
      List.Forall₂ (SameDefinition true) (xs.map fun y => (brokenLine y.leading, y)) ys →
      (ys.map fun y => (brokenLine y.leading, y)).flatMap entryTokens =
        (xs.map fun y => (brokenLine y.leading, y)).flatMap entryTokens := by
    intro xs
    induction xs with
    | nil =>
      intro ys h
      cases h
      rfl
    | cons x xs ih =>
      intro ys h
      cases h with
      | cons hy hys =>
        simp only [List.map_cons, List.flatMap_cons, ih hys, entryTokens, hy.leading rfl,
          hy.written rfl, brokenLine_brokenLine]
  cases xs with
  | nil =>
    cases h
    rfl
  | cons x xs =>
    cases h with
    | cons hy hys =>
      rw [ofDefinitions_eq, ofDefinitions_eq, entries, entries, List.flatMap_cons,
        List.flatMap_cons, hmore hys]
      simp only [entryTokens, hy.leading rfl, hy.written rfl]

/-- What is written of well-formed definitions is parsed into the same definitions, up to trivia. -/
theorem parseText_of_wellFormed {exact : Bool} {xs : List Definition} {trailing : List Trivia}
    (hd : exact → d.keepTrivia) (hxs : ∀ x ∈ xs, x.WellFormed d)
    (htrailing : Trivia.IsRun trailing)
    (htext : text.toList = sourceChars (ofDefinitions xs ++ trivia trailing)) :
    Unescaped text ∧ ∃ p, parseText d text = .ok p ∧
      List.Forall₂ (SameDefinition exact) (entries xs) p.definitions ∧
      (exact → p.trailing = trailing) := by
  rw [ofDefinitions_eq] at htext
  refine parseText_of_entries hd (fun e he => ?_) (fun e _ => solids_entryTokens_ne_nil e)
    (fun _ => htrailing) (lexable_program hxs htrailing) htext
  obtain ⟨hitems, hx⟩ := settled_of_mem_entries hxs he
  exact reads_programEntry hd (fun _ => hitems.1) hx

/-- A well-formed tree without trivia is parsed from what is written of it. -/
theorem parseText_writeDefinitions_of_wellFormed (hd : d.keepTrivia = false)
    (hp : p.WellFormed d) : parseText d (writeDefinitions p.definitions) = .ok p := by
  obtain ⟨hunescaped, p', hparse, hsame, -⟩ := @parseText_of_wellFormed d
    (writeDefinitions p.definitions) false p.definitions [] nofun hp.definitions .nil
    (by simp [writeDefinitions, toList_source])
  have hp' := wellFormed_of_parseText hunescaped hparse
  rw [hparse, ← hp'.erase_eq_self hd, erase_eq_of_same hsame, hp.erase_eq_self hd]

/-- Writing undoes parsing where no trivia is kept. -/
theorem parseText_writeDefinitions (hd : d.keepTrivia = false) (htext : Unescaped text)
    (h : parseText d text = .ok p) : parseText d (writeDefinitions p.definitions) = .ok p :=
  parseText_writeDefinitions_of_wellFormed hd (wellFormed_of_parseText htext h)

/-- What is written is not the text that was read. -/
theorem parseText_writeDefinitions_extends :
    ∃ p, parseText { allowExtends := true }
        "interface A extends B \x7b deleter getter T f(); \x7d; enum E \x7b \"a\", \x7d;" = .ok p ∧
      writeDefinitions p.definitions =
        "interface A : B \x7bgetter deleter T f();\x7d;\nenum E \x7b\"a\",\x7d;" ∧
      parseText { allowExtends := true } (writeDefinitions p.definitions) = .ok p := by
  obtain ⟨p, hp, hwritten⟩ := @exists_of_map_eq_ok _ _ _
    (fun p : Program => writeDefinitions p.definitions)
    (parseText { allowExtends := true }
      "interface A extends B \x7b deleter getter T f(); \x7d; enum E \x7b \"a\", \x7d;")
    "interface A : B \x7bgetter deleter T f();\x7d;\nenum E \x7b\"a\",\x7d;" (by decide +kernel)
  exact ⟨p, hp, hwritten, parseText_writeDefinitions rfl (by decide +kernel) hp⟩

/-- Where trivia is kept, what is written parses into the same tree up to trivia, and is written
again from it. -/
theorem exists_parseText_write (hd : d.keepTrivia) (htext : Unescaped text)
    (h : parseText d text = .ok p) :
    ∃ p', parseText d p.write = .ok p' ∧ p'.erase = p.erase ∧ p'.write = p.write := by
  have hp := wellFormed_of_parseText htext h
  have htrailing : Trivia.IsRun p.trailing := by simpa [hd] using hp.trailing
  obtain ⟨-, p', hparse, hsame, hitems⟩ := @parseText_of_wellFormed d p.write true p.definitions
    p.trailing (fun _ => hd) hp.definitions htrailing (by simp [Program.write, toList_source])
  refine ⟨p', hparse, erase_eq_of_same hsame, ?_⟩
  rw [Program.write, Program.write, ofDefinitions_eq_of_same hsame, hitems rfl]

/-- Comments stay where they were, also in front of the end. -/
theorem exists_parseText_write_comments :
    ∃ p, parseText { keepTrivia := true } "// c\ninterface A \x7b /* m */ const long x = 1; // n\n\x7d;// e" =
        .ok p ∧
      p.write = "// c\ninterface A \x7b /* m */ const long x = 1; // n\n\x7d;// e" ∧
      ∃ p', parseText { keepTrivia := true } p.write = .ok p' ∧ p'.erase = p.erase ∧
        p'.write = p.write := by
  obtain ⟨p, hp, hwritten⟩ := @exists_of_map_eq_ok _ _ _ Program.write
    (parseText { keepTrivia := true }
      "// c\ninterface A \x7b /* m */ const long x = 1; // n\n\x7d;// e")
    "// c\ninterface A \x7b /* m */ const long x = 1; // n\n\x7d;// e" (by decide +kernel)
  exact ⟨p, hp, hwritten, exists_parseText_write rfl (by decide +kernel) hp⟩

end WebIdl

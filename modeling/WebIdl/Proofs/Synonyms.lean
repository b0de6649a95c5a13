import Mathlib.Logic.Relation
import WebIdl.Proofs.Synonyms.Definitions

/-!
# Synonymous spellings

A base may be named behind a `:` or behind the word `extends`, and a comma between two values of an
enumeration may be left out. Which of these spellings is used does not show in the tree. Respelling
a list goes one place after the other, and at each of them the lists fork.
-/

namespace WebIdl

variable {d : Dialect} {ts us : List Token} {p : Program}

namespace Token

/-- Some of the `:` of the first list are the word `extends` in the second one, between blanks. -/
inductive Respelled : List Token → List Token → Prop
  | nil : Respelled [] []
  | cons {ts us : List Token} (t : Token) (h : Respelled ts us) : Respelled (t :: ts) (t :: us)
  | colon {ts us : List Token} {w w' : Token} (hw : w.isWhitespace) (hw' : w'.isWhitespace)
    (h : Respelled ts us) : Respelled (mark ":" :: ts) (w :: word "extends" :: w' :: us)

/-- The second list has a comma between two strings that stand together in the first one. -/
inductive CommaAdded : List Token → List Token → Prop
  | between {s s' : Token} {ws ws' : List Token} (hs : s.kind = .string) (hs' : s'.kind = .string)
    (hws : ∀ t ∈ ws, t.isWhitespace) (hws' : ∀ t ∈ ws', t.isWhitespace) (ts us : List Token) :
    CommaAdded (ts ++ s :: (ws ++ (ws' ++ s' :: us)))
      (ts ++ s :: (ws ++ mark "," :: (ws' ++ s' :: us)))

theorem Forked.append (h : Forked d ts us) (xs : List Token) : Forked d (xs ++ ts) (xs ++ us) := by
  induction xs with
  | nil => exact h
  | cons x xs ih => exact .cons x ih

/-- The places are respelled from the last one on. -/
theorem Respelled.forks (hd : d.allowExtends) (h : Respelled ts us) :
    Relation.ReflTransGen (Forked d) ts us := by
  induction h with
  | nil => exact .refl
  | cons t _ ih => exact ih.lift (t :: ·) fun _ _ h => h.cons t
  | @colon ts us w w' hw hw' _ ih =>
    have hrest : Relation.ReflTransGen (Forked d) (mark ":" :: ts) (mark ":" :: us) :=
      ih.lift (mark ":" :: ·) fun _ _ h => h.cons (mark ":")
    have hcolon : Forked d (mark ":" :: us) ([w] ++ word "extends" :: w' :: us) :=
      .colon us hd (by simpa using hw) hw'
    exact hrest.tail hcolon

/-- The two lists are of the same kind: there is a separator between the strings. -/
theorem CommaAdded.forked (hd : d.keepTrivia = false) (h : CommaAdded ts us) :
    Forked d ts us ∧ Forked d us ts := by
  obtain ⟨hs, hs', hws, hws', xs, ys⟩ := h
  rename_i s s' ws ws'
  have hblanks : Separator (ws ++ ws') :=
    .blanks fun t ht => (List.mem_append.mp ht).elim (hws t) (hws' t)
  have hcomma : Separator (ws ++ mark "," :: ws') := .comma hws hws'
  have hleft : ws ++ (ws' ++ s' :: ys) = ws ++ ws' ++ s' :: ys := by simp
  have hright : ws ++ mark "," :: (ws' ++ s' :: ys) = ws ++ mark "," :: ws' ++ s' :: ys := by simp
  rw [hleft, hright]
  constructor
  · exact (Forked.comma ys hd hs hs' hblanks hcomma).append xs
  · exact (Forked.comma ys hd hs hs' hcomma hblanks).append xs

end Token

open Token

namespace Grammar

open Cursor

theorem answers_program_of_forked {e : Bool} {c c' : Cursor} (hc : Forked (d.extending e) c c') :
    Answers c (program d) fun p _ => ∃ c1',
      (program (d.extending e) : Reader _) c' = .ok (p, c1') := by
  have hentries : Guided (d.extending e) (untilDone (programEntry d))
      (untilDone (programEntry (d.extending e))) :=
    guided_bounded (stable_untilWithin (gains_programEntry d))
      (stable_untilWithin (gains_programEntry _)) fun n => guided_untilWithin n
  apply answers_bind
  intro r c1 hrun
  apply answers_bind
  apply answers_get
  split
  · next hend =>
    have hafter : c1.after = [] := List.isEmpty_iff.mp hend
    apply answers_pure
    rcases hentries.leads c c' hc r c1 hrun with hcolon | ⟨c1', hrun', h1⟩
    · rw [AtColon, ahead, hafter] at hcolon
      cases hcolon
    · have hafter' : c1'.after = [] := by
        rw [Forked, hafter] at h1
        exact h1.eq_nil
      refine ⟨c1', (run_bind_of_ok hrun').trans ?_⟩
      have hend' : c1'.atEnd = true := List.isEmpty_iff.mpr hafter'
      show (if c1'.atEnd then _ else _ : Reader Program) c1' = _
      rw [if_pos hend']
      rfl
  · exact answers_fail

end Grammar

/-- What parses before a fork parses behind it to the same program. -/
theorem parse_of_forked {e : Bool} (h : Token.Forked (d.extending e) ts us)
    (hp : parse d ts = .ok p) : parse (d.extending e) us = .ok p := by
  obtain ⟨c1, hrun⟩ := parse_eq_ok_iff.mp hp
  have hc : Grammar.Forked (d.extending e) (Cursor.ofTokens ts) (Cursor.ofTokens us) := h
  exact parse_eq_ok_iff.mpr (Grammar.answers_program_of_forked hc p c1 hrun)

theorem parse_of_forks (h : Relation.ReflTransGen (Token.Forked d) ts us)
    (hp : parse d ts = .ok p) : parse d us = .ok p := by
  have hd : d.extending false = d := by simp [Dialect.extending]
  induction h with
  | refl => exact hp
  | @tail us vs _ hstep ih => exact hd ▸ parse_of_forked (e := false) (hd.symm ▸ hstep) ih

/-- A token list that parses does so with the word `extends` allowed, and with that word for some of
its `:`. Where no trivia is kept, commas between strings may be added and left out. -/
theorem parse_of_synonyms (h : parse d ts = .ok p) :
    (parse { d with allowExtends := true } ts = .ok p ∧
      ∀ us, Respelled ts us → parse { d with allowExtends := true } us = .ok p) ∧
    (d.keepTrivia = false → ∀ us,
      Relation.ReflTransGen (fun xs ys => CommaAdded xs ys ∨ CommaAdded ys xs) ts us →
        parse d us = .ok p) := by
  have hextending : d.extending true = { d with allowExtends := true } := by
    simp [Dialect.extending]
  have hallowed : parse { d with allowExtends := true } ts = .ok p :=
    hextending ▸ parse_of_forked (.same ts) h
  refine ⟨⟨hallowed, fun us hus => ?_⟩, fun hd us hus => ?_⟩
  · exact parse_of_forks (hus.forks rfl) hallowed
  · have hstep (xs ys : List Token) (hxs : CommaAdded xs ys ∨ CommaAdded ys xs) :
        Token.Forked d xs ys := by
      rcases hxs with hadded | hadded
      · exact (hadded.forked hd).1
      · exact (hadded.forked hd).2
    exact parse_of_forks (Relation.ReflTransGen.mono hstep ts us hus) h

/-- The head of an interface with a base, and of an enumeration behind it. -/
def twoHeads (base : List Token) : List Token :=
  [word "interface", blank " ", word "A"] ++ base ++ [word "B", mark "\x7b", mark "\x7d", mark ";",
    word "enum", blank " ", word "E", mark "\x7b"]

/-- Two values and the end of an enumeration. -/
def twoValues (gap : List Token) : List Token :=
  Spelling.quoted "a" :: (gap ++ [Spelling.quoted "b", mark "\x7d", mark ";"])

theorem parse_twoHeads_twoValues :
    ∃ p : Program, p.definitions.map Definition.name = ["A", "E"] ∧
      parse {} (twoHeads [mark ":"] ++ twoValues [blank " "]) = .ok p ∧
      parse { allowExtends := true }
        (twoHeads [blank "\n", word "extends", blank " "] ++ twoValues [blank " "]) = .ok p ∧
      parse {} (twoHeads [mark ":"] ++ twoValues [mark ",", blank " "]) = .ok p := by
  obtain ⟨p, hp, hnames⟩ : ∃ p : Program,
      parse {} (twoHeads [mark ":"] ++ twoValues [blank " "]) = .ok p ∧
        p.definitions.map Definition.name = ["A", "E"] := ⟨_, rfl, rfl⟩
  refine ⟨p, hnames, hp, ?_, ?_⟩
  · have hrest (ts : List Token) : Respelled ts ts := by
      induction ts with
      | nil => exact .nil
      | cons t ts ih => exact .cons t ih
    apply (parse_of_synonyms hp).1.2
    exact .cons _ (.cons _ (.cons _ (.colon rfl rfl (hrest _))))
  · apply (parse_of_synonyms hp).2 rfl
    have hblank : ∀ t ∈ [blank " "], t.isWhitespace := by decide
    exact .single (.inl (.between rfl rfl (List.forall_mem_nil _) hblank (twoHeads [mark ":"]) _))

end WebIdl

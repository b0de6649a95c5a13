import WebIdl.Proofs.Synonyms.Productions

/-!
# Token lists that fork

Two token lists fork if they part at one place and are the same again behind it. There one of them
has a `:` and the other one the word that may stand for it, or there are two strings with a comma
between them in one list and none in the other. A fork is in front of the next stop or behind it. If
it is behind, the lists are in step; if it is in front, then the `:` or the second string is a wall,
and whatever is to end with that stop fails.

So a statement is read alike from both lists. It remains to follow the two runs through what is
around the statements: heads of definitions, braces, and the bodies of enumerations.
-/

namespace WebIdl

variable {d : Dialect}

namespace Token

variable {n : Nat} {prev : Option Token} {t u : Token} {ts us : List Token}

/-- Blanks, with a comma among them or without. -/
inductive Separator : List Token → Prop
  | blanks {ws : List Token} (h : ∀ t ∈ ws, t.isWhitespace) : Separator ws
  | comma {ws ws' : List Token} (h : ∀ t ∈ ws, t.isWhitespace) (h' : ∀ t ∈ ws', t.isWhitespace) :
    Separator (ws ++ mark "," :: ws')

/-- The lists part at one place at most. Where trivia is kept it must not be at a comma. -/
inductive Forked (d : Dialect) : List Token → List Token → Prop
  | same (ts : List Token) : Forked d ts ts
  | colon {ws : List Token} {w : Token} (ts : List Token) (hd : d.allowExtends)
    (hws : ∀ t ∈ ws, t.isWhitespace) (hw : w.isWhitespace) :
    Forked d (mark ":" :: ts) (ws ++ word "extends" :: w :: ts)
  | comma {s s' : Token} {gap gap' : List Token} (ts : List Token) (hd : d.keepTrivia = false)
    (hs : s.kind = .string) (hs' : s'.kind = .string) (hgap : Separator gap)
    (hgap' : Separator gap') : Forked d (s :: (gap ++ s' :: ts)) (s :: (gap' ++ s' :: ts))
  | cons {ts us : List Token} (t : Token) (h : Forked d ts us) : Forked d (t :: ts) (t :: us)

theorem inStep_blanks_append {S : List Token → List Token → Prop} {ws : List Token}
    (hws : ∀ t ∈ ws, t.isWhitespace) (h : InStep S (some n) prev ts us) :
    InStep S (some n) prev (ws ++ ts) (ws ++ us) := by
  induction ws with
  | nil => exact h
  | cons w ws ih =>
    exact (ih fun t ht => hws t (List.mem_cons_of_mem w ht)).blank (hws w List.mem_cons_self)

/-- The second of two strings is a wall. -/
theorem Separator.inStep_wall {S : List Token → List Token → Prop} {s s' : Token}
    {gap : List Token} (hgap : Separator gap) (hs : s.kind = .string) (hs' : s'.kind = .string) :
    InStep S (some n) (some s) (gap ++ s' :: ts) (gap ++ s' :: ts) := by
  cases hgap with
  | blanks hws => exact inStep_blanks_append hws (.wall (.inr ⟨hs', s, rfl, .inl hs⟩))
  | @comma ws ws' hws hws' =>
    rw [List.append_assoc]
    apply inStep_blanks_append hws
    apply InStep.cons
    exact inStep_blanks_append hws' (.wall (.inr ⟨hs', mark ",", rfl, .inr rfl⟩))

namespace Forked

/-- The fork is behind the next stop, or a wall is in front of that stop. -/
theorem inStep_or (h : Forked d ts us) (n : Nat) (prev : Option Token) :
    InStep (Forked d) (some n) prev ts us ∨ InStep (fun _ _ => False) (some n) prev ts ts := by
  induction h generalizing n prev with
  | same ts => exact .inl (.refl .same (some n) prev ts)
  | colon ts hd hws hw => exact .inr (.wall (.inl rfl))
  | @comma s s' gap gap' ts hd hs hs' hgap hgap' =>
    right
    apply InStep.cons
    rw [depth_of_kind (by simp [hs]), latest_of_solid (by simp [isWhitespace, hs])]
    exact hgap.inStep_wall hs hs'
  | cons t h ih =>
    by_cases hwall : Wall prev t
    · exact .inr (.wall hwall)
    · cases hdepth : t.depth n with
      | none => exact .inl (.cons (hdepth ▸ .past h))
      | some k =>
        rcases ih k (t.latest prev) with hstep | hblocked
        · exact .inl (.cons (hdepth ▸ hstep))
        · exact .inr (.cons (hdepth ▸ hblocked))

/-- The same token comes next, or the fork is here and it is a `:`. -/
theorem head? (h : Forked d ts us) :
    ts.head? = us.head? ∨ ts.head? = some (mark ":") := by
  cases h with
  | same => exact .inl rfl
  | colon => exact .inr rfl
  | comma => exact .inl rfl
  | cons => exact .inl rfl

/-- Behind a token that both lists have, unless it is the first of the two strings. -/
theorem tail (h : Forked d (t :: ts) (t :: us)) (hstring : t.kind ≠ .string) :
    Forked d ts us := by
  generalize hxs : t :: ts = xs at h
  generalize hys : t :: us = ys at h
  cases h with
  | same =>
    obtain rfl := List.tail_eq_of_cons_eq (hxs.trans hys.symm)
    exact .same ts
  | @colon ws w rest _ hws _ =>
    obtain rfl := List.head_eq_of_cons_eq hxs
    cases ws with
    | nil => exact absurd (List.head_eq_of_cons_eq hys) (by decide)
    | cons v ws =>
      obtain rfl := List.head_eq_of_cons_eq hys
      exact absurd (hws _ List.mem_cons_self) (by decide)
  | comma _ _ hs => exact absurd ((List.head_eq_of_cons_eq hxs) ▸ hs) hstring
  | cons _ h =>
    obtain rfl := List.tail_eq_of_cons_eq hxs
    obtain rfl := List.tail_eq_of_cons_eq hys
    exact h

theorem eq_nil (h : Forked d [] us) : us = [] := by
  cases h with
  | same => rfl

/-- The blanks in front and the token behind them are the same, or there is a fork behind the blanks
and the token is a `:`. -/
theorem skip (h : Forked d ts us) :
    (lead ts = lead us ∧ (core ts).head? = (core us).head? ∧ Forked d (core ts) (core us)) ∨
      d.allowExtends ∧ ∃ w rest, w.isWhitespace ∧ core ts = mark ":" :: rest ∧
        core us = word "extends" :: w :: rest := by
  induction h with
  | same ts => exact .inl ⟨rfl, rfl, .same _⟩
  | @colon ws w ts hd hws hw =>
    right
    refine ⟨hd, w, ts, hw, rfl, ?_⟩
    rw [core, List.dropWhile_append_of_pos hws]
    rfl
  | @comma s s' gap gap' ts hd hs hs' hgap hgap' =>
    left
    have hsolid : s.isWhitespace = false := by simp [isWhitespace, hs]
    rw [core_cons_of_solid hsolid, core_cons_of_solid hsolid]
    exact ⟨by simp [lead, hsolid], rfl, .comma ts hd hs hs' hgap hgap'⟩
  | @cons ts us t h ih =>
    cases hblank : t.isWhitespace with
    | false =>
      left
      rw [core_cons_of_solid hblank, core_cons_of_solid hblank]
      exact ⟨by simp [lead, hblank], rfl, .cons t h⟩
    | true =>
      rw [core_cons_of_blank hblank, core_cons_of_blank hblank]
      rcases ih with ⟨hlead, hcore⟩ | hcolon
      · left
        refine ⟨?_, hcore⟩
        simp only [lead, List.takeWhile_cons, hblank, if_true]
        exact congrArg (t :: ·) hlead
      · exact .inr hcolon

end Forked

end Token

namespace Grammar

open Token Cursor

variable {α β γ : Type} {c c' : Cursor}

/-- What is ahead of the cursors forks. -/
def Forked (d : Dialect) (c c' : Cursor) : Prop :=
  Token.Forked d c.after c'.after

/-- A `:` comes next. -/
def AtColon (c : Cursor) : Prop :=
  c.ahead.head? = some (mark ":")

/-- A reader of a statement, or of what a bracket closes, is followed by itself. -/
theorem follows_of_moves {r : Reader α} {f : Nat → Option Nat} (hr : ∀ S, Moves S f r)
    (hf : f 0 = none) : Follows (Forked d) (fun _ => Forked d) r r := by
  intro c c' hc a c1 hrun
  rcases Token.Forked.inStep_or hc 0 c.behind with hstep | hblocked
  · obtain ⟨c1', hrun', h1⟩ := (hr (Token.Forked d)).follows 0 c c' hstep a c1 hrun
    rw [hf] at h1
    cases h1 with
    | past h => exact ⟨c1', hrun', h⟩
  · obtain ⟨c1', -, h1⟩ := (hr fun _ _ => False).follows 0 c c hblocked a c1 hrun
    rw [hf] at h1
    cases h1 with
    | past h => exact h.elim

/-- In front of a `:` it fails. -/
theorem not_answers_atColon {r : Reader α} {f : Nat → Option Nat} (hr : ∀ S, Moves S f r)
    (hf : f 0 = none) (hc : AtColon c) : Answers c r fun _ _ => False := by
  intro a c1 hrun
  have hblocked : c.InStep (fun _ _ => False) (some 0) c := by
    rw [AtColon, ahead, ← head?_core] at hc
    obtain ⟨rest, hcore⟩ := List.head?_eq_some_iff.mp hc
    rw [Cursor.InStep, ← lead_append_core c.after, hcore]
    exact inStep_blanks_append (fun t ht => List.mem_takeWhile_imp ht) (.wall (.inl rfl))
  obtain ⟨c1', -, h1⟩ := (hr fun _ _ => False).follows 0 c c hblocked a c1 hrun
  rw [hf] at h1
  cases h1 with
  | past h => exact h

/-- The second reader answers what the first one answers, unless that one comes to a `:` that it
cannot pass. -/
class Guided (d : Dialect) (r r' : Reader α) : Prop where
  leads : ∀ c c', Forked d c c' → Answers c r fun a c1 =>
    AtColon c1 ∨ ∃ c1', r' c' = .ok (a, c1') ∧ Forked d c1 c1'
  stays : ∀ c, AtColon c → Answers c r fun _ c1 => AtColon c1

section Steps

instance guided_pure (a : α) : Guided d (pure a) (pure a) :=
  ⟨fun _ c' hc => answers_pure (.inr ⟨c', rfl, hc⟩), fun _ hc => answers_pure hc⟩

instance guided_fail (reason : Reason) (r' : Reader α) : Guided d (fail reason) r' :=
  ⟨fun _ _ _ => answers_fail, fun _ _ => answers_fail⟩

/-- What ends with a stop is read alike. -/
theorem guided_of_moves {r : Reader α} {f : Nat → Option Nat} (hr : ∀ S, Moves S f r)
    (hf : f 0 = none) : Guided d r r := by
  constructor
  · exact fun c c' hc a c1 hrun => .inr (follows_of_moves hr hf c c' hc a c1 hrun)
  · exact fun c hc a c1 hrun => (not_answers_atColon hr hf hc a c1 hrun).elim

instance guided_of_closes {r : Reader α} [hr : ∀ S, Closes S r] : Guided d r r :=
  guided_of_moves hr rfl

instance guided_bind {r r' : Reader α} {g g' : α → Reader β} [hr : Guided d r r']
    [hg : ∀ a, Guided d (g a) (g' a)] : Guided d (r >>= g) (r' >>= g') := by
  constructor
  · intro c c' hc
    apply answers_bind
    intro a c1 hrun b c2 hrest
    rcases hr.leads c c' hc a c1 hrun with hcolon | ⟨c1', hrun', h1⟩
    · exact .inl ((hg a).stays c1 hcolon b c2 hrest)
    · rcases (hg a).leads c1 c1' h1 b c2 hrest with hcolon | ⟨c2', hrest', h2⟩
      · exact .inl hcolon
      · exact .inr ⟨c2', (run_bind_of_ok hrun').trans hrest', h2⟩
  · intro c hc
    apply answers_bind
    intro a c1 hrun
    exact (hg a).stays c1 (hr.stays c hc a c1 hrun)

instance (priority := high) guided_bind_option {p p' : Reader (Option α)}
    {g g' : Option α → Reader β} [Guided d p p'] [hsome : ∀ a, Guided d (g (some a)) (g' (some a))]
    [hnone : Guided d (g none) (g' none)] : Guided d (p >>= g) (p' >>= g') := by
  have hg (o : Option α) : Guided d (g o) (g' o) := by
    cases o with
    | none => exact hnone
    | some a => exact hsome a
  infer_instance

instance (priority := high) guided_bind_pair {r r' : Reader (α × β)} {g g' : α × β → Reader γ}
    [Guided d r r'] [hg : ∀ a b, Guided d (g (a, b)) (g' (a, b))] :
    Guided d (r >>= g) (r' >>= g') := by
  have hpair (p : α × β) : Guided d (g p) (g' p) := hg p.1 p.2
  infer_instance

instance guided_ite {b : Prop} [Decidable b] {r r' s s' : Reader α} [hr : Guided d r r']
    [hs : Guided d s s'] : Guided d (if b then r else s) (if b then r' else s') := by
  split
  · exact hr
  · exact hs

end Steps

section Tokens

variable {kind : TokenKind} {text : Option String}

theorem atColon_skip (c : Cursor) : AtColon c.skip ↔ AtColon c := by
  rw [AtColon, ahead_skip, AtColon]

/-- What is asked for is no `:`. -/
def Colonless (kind : TokenKind) (text : Option String) : Prop :=
  kind ≠ .whitespace ∧ ¬((mark ":").kind = kind ∧ text.all (· = ":"))

theorem colonless_identifier (text : Option String) : Colonless .identifier text :=
  ⟨by decide, fun h => TokenKind.noConfusion h.1⟩

/-- In front of a `:` nothing is read. -/
theorem answers_token_atColon (hcolonless : Colonless kind text) (hc : AtColon c) :
    Answers c (token kind text) fun o c1 => o = none ∧ c1 = c := by
  apply answers_token
  · intro t rest hafter ht htext
    have hsolid : t.isWhitespace = false := by
      simpa [isWhitespace, ht] using hcolonless.1
    obtain rfl : t = mark ":" := by
      rw [AtColon, ahead, hafter, solids_cons_of_solid hsolid] at hc
      exact Option.some.inj hc
    exact absurd ⟨ht, htext⟩ hcolonless.2
  · exact fun _ => ⟨rfl, rfl⟩

theorem lexeme_of_cons {f : Option Token → α} {t : Token} {rest : List Token}
    (h : c.skip.after = t :: rest) :
    (skip >>= fun _ => token kind text >>= fun o => pure (f o) : Reader α) c =
      if t.kind = kind ∧ text.all (· = t.text) then
        .ok (f (some t.unescape), c.skip.next t rest) else .ok (f none, c.skip) := by
  show (token kind text >>= fun o => pure (f o) : Reader α) c.skip = _
  split
  · next ht => exact run_bind_of_ok ((token_of_cons h).trans (if_pos ht))
  · next ht => exact run_bind_of_ok ((token_of_cons h).trans (if_neg ht))

theorem keyword_of_word {w : String} {rest : List Token} (h : c.skip.after = word w :: rest) :
    (keyword w : Reader _) c = .ok (true, c.skip.next (word w) rest) :=
  (lexeme_of_cons (f := Option.isSome) h).trans (if_pos ⟨rfl, by simp [word]⟩)

theorem symbol_of_mark {m : String} {rest : List Token} (h : c.skip.after = mark m :: rest) :
    (symbol m : Reader _) c = .ok (true, c.skip.next (mark m) rest) :=
  (lexeme_of_cons (f := Option.isSome) h).trans (if_pos ⟨rfl, by simp [mark]⟩)

theorem symbol_of_kind {m : String} {t : Token} {rest : List Token} (h : c.skip.after = t :: rest)
    (ht : t.kind ≠ .other) : (symbol m : Reader _) c = .ok (false, c.skip) :=
  (lexeme_of_cons (f := Option.isSome) h).trans (if_neg fun hread => ht hread.1)

/-- Either the word comes next, or nothing but blanks is read. -/
theorem keyword_cases (w : String) (c : Cursor) :
    c.skip.after.head? = some (word w) ∨ (keyword w : Reader _) c = .ok (false, c.skip) := by
  cases hafter : c.skip.after with
  | nil =>
    right
    show (token .identifier (some w) >>= fun o => pure o.isSome : Reader Bool) c.skip = _
    exact run_bind_of_ok (token_of_nil hafter)
  | cons t rest =>
    have hrun : (keyword w : Reader Bool) c =
        if t.kind = .identifier ∧ (some w).all (· = t.text) then .ok (true, c.skip.next t rest)
        else .ok (false, c.skip) := lexeme_of_cons (f := Option.isSome) hafter
    by_cases ht : t.kind = .identifier ∧ (some w).all (· = t.text)
    · exact .inl (congrArg some (eq_of_asked ht.1 ht.2))
    · exact .inr (hrun.trans (if_neg ht))

theorem answers_lexeme_atColon {f : Option Token → α} (hcolonless : Colonless kind text)
    (hc : AtColon c) :
    Answers c (skip >>= fun _ => token kind text >>= fun o => pure (f o)) fun a c1 =>
      a = f none ∧ c1 = c.skip := by
  apply answers_bind
  apply answers_skip
  apply answers_bind
  intro o c1 hrun
  obtain ⟨rfl, rfl⟩ := answers_token_atColon hcolonless ((atColon_skip c).mpr hc) o c1 hrun
  exact answers_pure ⟨rfl, rfl⟩

/-- The cursors stand in front of the same token, blanks aside, and their lists fork behind it. -/
def Abreast (d : Dialect) (c c' : Cursor) : Prop :=
  Forked d c.skip c'.skip ∧ c.skip.after.head? = c'.skip.after.head?

/-- The lists fork where the blanks end. -/
def Parting (d : Dialect) (c c' : Cursor) : Prop :=
  d.allowExtends ∧ ∃ w rest, w.isWhitespace ∧ c.skip.after = mark ":" :: rest ∧
    c'.skip.after = word "extends" :: w :: rest

theorem Forked.abreast_or (h : Forked d c c') : Abreast d c c' ∨ Parting d c c' := by
  rcases Token.Forked.skip h with ⟨-, hhead, hcore⟩ | hparting
  · exact .inl ⟨hcore, hhead⟩
  · exact .inr hparting

theorem Parting.atColon (h : Parting d c c') : AtColon c := by
  obtain ⟨-, w, rest, -, hafter, -⟩ := h
  rw [AtColon, ← head?_after_skip, hafter]
  rfl

theorem abreast_of_core_eq (h : core c.after = core c'.after) : Abreast d c c' := by
  rw [Abreast, Forked, show c.skip.after = c'.skip.after from h]
  exact ⟨.same _, rfl⟩

theorem Abreast.skip (h : Abreast d c c') : Abreast d c.skip c'.skip := by
  have hcore (c : Cursor) : c.skip.skip.after = c.skip.after := settled_skip c
  rw [Abreast, Forked, hcore, hcore]
  exact h

/-- The cursors stand in front of the same token. -/
structure Facing (d : Dialect) (c c' : Cursor) : Prop where
  abreast : Abreast d c c'
  left : Settled c
  right : Settled c'

theorem Abreast.facing (h : Abreast d c c') : Facing d c.skip c'.skip :=
  ⟨h.skip, settled_skip c, settled_skip c'⟩

theorem Facing.forked (h : Facing d c c') : Forked d c c' := by
  have hforked := h.abreast.1
  rwa [Forked, show c.skip.after = c.after from h.left,
    show c'.skip.after = c'.after from h.right] at hforked

theorem Facing.head? (h : Facing d c c') : c.after.head? = c'.after.head? := by
  have hhead := h.abreast.2
  rwa [show c.skip.after = c.after from h.left,
    show c'.skip.after = c'.after from h.right] at hhead

theorem follows_token_forked {pre : Cursor → Cursor → Prop} (hstring : kind ≠ .string)
    (hforked : ∀ c c', pre c c' → Forked d c c')
    (hhead : ∀ c c', pre c c' → c.after.head? = c'.after.head?) :
    Follows pre (fun o => o.elim pre fun _ => Forked d) (token kind text) (token kind text) := by
  apply follows_token hhead
  · intro c c' t rest rest' hc hafter hafter' ht _
    have h := hforked c c' hc
    rw [Forked, hafter, hafter'] at h
    exact h.tail (ht ▸ hstring)
  · exact fun c c' hc => hc

/-- In front of the same token both runs read it or neither does. -/
theorem follows_abreast {f : Option Token → α} {post : α → Cursor → Cursor → Prop}
    (hstring : kind ≠ .string) (hsome : ∀ t c c', Forked d c c' → post (f (some t)) c c')
    (hnone : ∀ c c', Facing d c c' → post (f none) c c') :
    Follows (Abreast d) post (skip >>= fun _ => token kind text >>= fun o => pure (f o))
      (skip >>= fun _ => token kind text >>= fun o => pure (f o)) := by
  apply follows_bind (R := fun _ => Facing d)
  · exact fun c c' hc => answers_skip ⟨c'.skip, rfl, hc.facing⟩
  · intro
    apply follows_bind (follows_token_forked hstring (fun _ _ h => h.forked) fun _ _ h => h.head?)
    intro o
    cases o with
    | none => exact follows_pure fun c c' h => hnone c c' h
    | some t => exact follows_pure fun c c' h => hsome t c c' h

theorem follows_abreast_keyword (w : String) :
    Follows (Abreast d) (fun b => cond b (Forked d) (Facing d)) (keyword w) (keyword w) :=
  follows_abreast (f := Option.isSome) (by decide) (fun _ _ _ h => h) fun _ _ h => h

theorem follows_abreast_symbol (m : String) :
    Follows (Abreast d) (fun b => cond b (Forked d) (Facing d)) (symbol m) (symbol m) :=
  follows_abreast (f := Option.isSome) (by decide) (fun _ _ _ h => h) fun _ _ h => h

theorem follows_abreast_expectIdentifier (reason : Reason) :
    Follows (Abreast d) (fun _ => Forked d) (expectIdentifier reason)
      (expectIdentifier reason) := by
  have hidentifier : Follows (Abreast d) (fun o => o.elim (fun _ _ => True) fun _ => Forked d)
      identifier identifier :=
    follows_abreast (f := Option.map Token.text) (by decide) (fun _ _ _ h => h)
      fun _ _ _ => trivial
  apply follows_bind hidentifier
  intro o
  cases o with
  | none => exact follows_fail
  | some name => exact follows_pure fun _ _ h => h

/-- In front of a `:` there is no name. -/
theorem not_answers_expectIdentifier {reason : Reason} (hc : AtColon c) :
    Answers c (expectIdentifier reason) fun _ _ => False := by
  apply answers_bind
  intro o c1 hrun
  have hnone := answers_lexeme_atColon (f := Option.map Token.text) (colonless_identifier none) hc
    o c1 hrun
  rw [hnone.1]
  exact answers_fail

theorem follows_forked_expectIdentifier (reason : Reason) :
    Follows (Forked d) (fun _ => Forked d) (expectIdentifier reason) (expectIdentifier reason) := by
  intro c c' hc
  rcases hc.abreast_or with habreast | hparting
  · exact follows_abreast_expectIdentifier reason c c' habreast
  · exact fun name c1 hrun =>
      (not_answers_expectIdentifier hparting.atColon name c1 hrun).elim

/-- A word other than `extends` is found in both runs, and so is a mark other than `:`. -/
theorem follows_forked {f : Option Token → α} (hstring : kind ≠ .string)
    (hcolonless : Colonless kind text)
    (hextends : ¬((word "extends").kind = kind ∧ text.all (· = "extends"))) :
    Follows (Forked d) (fun _ => Forked d)
      (skip >>= fun _ => token kind text >>= fun o => pure (f o))
      (skip >>= fun _ => token kind text >>= fun o => pure (f o)) := by
  intro c c' hc
  rcases hc.abreast_or with habreast | hparting
  · have hlexeme : Follows (Abreast d) (fun _ => Forked d)
        (skip >>= fun _ => token kind text >>= fun o => pure (f o))
        (skip >>= fun _ => token kind text >>= fun o => pure (f o)) :=
      follows_abreast hstring (fun _ _ _ h => h) fun _ _ h => h.forked
    exact hlexeme c c' habreast
  · intro a c1 hrun
    obtain ⟨rfl, rfl⟩ := answers_lexeme_atColon hcolonless hparting.atColon a c1 hrun
    obtain ⟨hd, w, rest, hw, hafter, hafter'⟩ := hparting
    refine ⟨c'.skip, ?_, ?_⟩
    · show (token kind text >>= fun o => pure (f o) : Reader α) c'.skip = _
      rw [run_bind_of_ok ((token_of_cons hafter').trans (if_neg hextends))]
      rfl
    · show Token.Forked d c.skip.after c'.skip.after
      rw [hafter, hafter']
      have hcolon : Token.Forked d (mark ":" :: rest) ([] ++ word "extends" :: w :: rest) :=
        .colon rest hd (by simp) hw
      exact hcolon

theorem guided_token (hstring : kind ≠ .string) (hcolonless : Colonless kind text) :
    Guided d (token kind text) (token kind text) := by
  have htoken : Follows (fun c c' => Forked d c c' ∧ c.after.head? = c'.after.head?)
      (fun o => o.elim (fun c c' => Forked d c c' ∧ c.after.head? = c'.after.head?) fun _ =>
        Forked d) (token kind text) (token kind text) :=
    follows_token_forked hstring (fun _ _ h => h.1) fun _ _ h => h.2
  constructor
  · intro c c' hc
    rcases Token.Forked.head? hc with hhead | hcolon
    · intro o c1 hrun
      obtain ⟨c1', hrun', h1⟩ := htoken c c' ⟨hc, hhead⟩ o c1 hrun
      refine .inr ⟨c1', hrun', ?_⟩
      cases o with
      | none => exact h1.1
      | some t => exact h1
    · intro o c1 hrun
      have hc : AtColon c := by
        obtain ⟨rest, hafter⟩ := List.head?_eq_some_iff.mp hcolon
        rw [AtColon, ahead, hafter]
        rfl
      obtain ⟨rfl, rfl⟩ := answers_token_atColon hcolonless hc o c1 hrun
      exact .inl hc
  · intro c hc o c1 hrun
    obtain ⟨rfl, rfl⟩ := answers_token_atColon hcolonless hc o c1 hrun
    exact hc

instance guided_skip : Guided d (skip : Reader Unit) skip := by
  constructor
  · intro c c' hc
    apply answers_skip
    rcases hc.abreast_or with habreast | hparting
    · exact .inr ⟨c'.skip, rfl, habreast.1⟩
    · exact .inl ((atColon_skip c).mpr hparting.atColon)
  · exact fun c hc => answers_skip ((atColon_skip c).mpr hc)

/-- The blanks are the same, unless a `:` comes next. -/
instance guided_trivia (d' : Dialect) : Guided d (trivia d' : Reader (List Trivia)) (trivia d') := by
  constructor
  · intro c c' hc
    rw [Answers, trivia_apply, trivia_apply]
    apply answers_pure
    rcases Token.Forked.skip hc with ⟨hlead, -, hcore⟩ | hparting
    · right
      refine ⟨c'.skip, ?_, hcore⟩
      rw [show c.gap = c'.gap from hlead]
    · exact .inl ((atColon_skip c).mpr (Parting.atColon hparting))
  · intro c hc
    rw [Answers, trivia_apply]
    exact answers_pure ((atColon_skip c).mpr hc)

instance guided_keyword (w : String) : Guided d (keyword w : Reader Bool) (keyword w) := by
  have := @guided_token d .identifier (some w) (by decide) (colonless_identifier _)
  unfold keyword
  infer_instance

theorem colonless_mark {m : String} (hm : m ≠ ":") : Colonless .other (some m) :=
  ⟨by decide, fun h => hm (by simpa using h.2)⟩

theorem guided_symbol_of_ne {m : String} (hm : m ≠ ":") :
    Guided d (symbol m : Reader Bool) (symbol m) := by
  have := @guided_token d .other (some m) (by decide) (colonless_mark hm)
  unfold symbol
  infer_instance

instance guided_symbol (m : String) [hm : Among m innerMarks] :
    Guided d (symbol m : Reader Bool) (symbol m) :=
  guided_symbol_of_ne (ne_colon_of_mem hm.mem)

instance guided_identifier : Guided d (identifier : Reader (Option String)) identifier := by
  have := @guided_token d .identifier none (by decide) (colonless_identifier _)
  unfold identifier
  infer_instance

end Tokens

section Choices

instance guided_expect {p p' : Reader (Option α)} {reason : Reason} [Guided d p p'] :
    Guided d (expect reason p) (expect reason p') := by
  unfold expect
  infer_instance

instance guided_expectSymbol (m : String) [Among m innerMarks] (reason : Reason) :
    Guided d (expectSymbol m reason : Reader Unit) (expectSymbol m reason) := by
  unfold expectSymbol
  infer_instance

instance guided_expectIdentifier (reason : Reason) :
    Guided d (expectIdentifier reason : Reader String) (expectIdentifier reason) :=
  guided_expect

instance guided_firstOf_nil : Guided d (firstOf [] : Reader (Option α)) (firstOf []) :=
  guided_pure none

instance guided_firstOf {p p' : Reader (Option α)} {ps ps' : List (Reader (Option α))}
    [Guided d p p'] [Guided d (firstOf ps) (firstOf ps')] :
    Guided d (firstOf (p :: ps)) (firstOf (p' :: ps')) := by
  rw [firstOf, firstOf]
  infer_instance

instance guided_mapped {g : α → β} {p p' : Reader (Option α)} [Guided d p p'] :
    Guided d (mapped g p) (mapped g p') := by
  unfold mapped
  infer_instance

end Choices

section Loops

theorem guided_bounded {p p' : Nat → Reader α} (hp : Stable p) (hp' : Stable p')
    (h : ∀ n, Guided d (p n) (p' n)) : Guided d (bounded p) (bounded p') := by
  constructor
  · intro c c' hc
    obtain ⟨n, hrun, hrun'⟩ := exists_common_bound hp hp' c c'
    rw [Answers, hrun, hrun']
    exact (h n).leads c c' hc
  · exact fun c hc => (h _).stays c hc

instance guided_untilWithin {step step' : Reader (α ⊕ β)} [hstep : Guided d step step'] (n : Nat) :
    Guided d (untilWithin step n) (untilWithin step' n) := by
  induction n with
  | zero => exact guided_fail _ _
  | succ n ih =>
    have hround (r : α ⊕ β) : Guided d
        (match r with
          | .inl a => untilWithin step n >>= fun q => pure (a :: q.1, q.2)
          | .inr b => pure ([], b) : Reader (List α × β))
        (match r with
          | .inl a => untilWithin step' n >>= fun q => pure (a :: q.1, q.2)
          | .inr b => pure ([], b)) := by
      cases r with
      | inl a => exact guided_bind
      | inr b => exact guided_pure _
    exact guided_bind

end Loops

end Grammar

end WebIdl

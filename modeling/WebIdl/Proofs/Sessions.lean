import WebIdl.Proofs.Progress.Forward
import WebIdl.Proofs.Reading.Literals

/-!
# Sessions

What callers do with a cursor over time: they read tokens, step back, skip blanks, take marks and
return to them. Every step keeps the tokens, so a session never leaves them. The line counter is
that of the place reached as long as line feeds are passed by skipping only. A whitespace token
that is read like any other token passes its line feeds uncounted, and the step back over it takes
them off all the same.
-/

namespace WebIdl

/-- A place to return to. -/
structure Checkpoint where
  position : Nat
  line : Nat
deriving DecidableEq, Repr

namespace Cursor

def checkpoint (c : Cursor) : Checkpoint :=
  ⟨c.position, c.line⟩

def rewind (c : Cursor) (k : Checkpoint) : Cursor :=
  ⟨(c.tokens.take k.position).reverse, c.tokens.drop k.position, k.line⟩

end Cursor

inductive Step where
  | consume (kind : TokenKind) (text : Option String)
  | unconsume
  | skip
  | checkpoint
  | rewind (mark : Nat)
deriving DecidableEq, Repr

/-- A cursor and the marks taken on it. -/
structure Session where
  cursor : Cursor
  marks : List Checkpoint
deriving DecidableEq, Repr

namespace Session

def ofTokens (ts : List Token) : Session :=
  ⟨.ofTokens ts, []⟩

/-- One step. A token that is not there is not read, and a mark that was never taken leads
nowhere. -/
def step (s : Session) : Step → Session
  | .consume kind text =>
    match s.cursor.consume? kind text with
    | none => s
    | some (_, c) => ⟨c, s.marks⟩
  | .unconsume => ⟨s.cursor.unconsume, s.marks⟩
  | .skip => ⟨s.cursor.skip, s.marks⟩
  | .checkpoint => ⟨s.cursor, s.marks ++ [s.cursor.checkpoint]⟩
  | .rewind mark =>
    match s.marks[mark]? with
    | none => s
    | some k => ⟨s.cursor.rewind k, s.marks⟩

def run (s : Session) (steps : List Step) : Session :=
  steps.foldl step s

/-- The step reads a whitespace token that has line feeds, without skipping it. -/
def Loses (s : Session) : Step → Prop
  | .consume kind text =>
    ∃ r ∈ s.cursor.consume? kind text, r.1.isWhitespace = true ∧ r.1.newlines ≠ 0
  | _ => False

instance (s : Session) (a : Step) : Decidable (s.Loses a) := by
  cases a <;> unfold Loses <;> infer_instance

end Session

namespace Token

/-- The line of the place behind the first `n` tokens. -/
def lineAt (ts : List Token) (n : Nat) : Nat :=
  1 + lineFeeds ((ts.take n).filter isWhitespace)

theorem lineFeeds_reverse (ts : List Token) : lineFeeds ts.reverse = lineFeeds ts := by
  induction ts with
  | nil => rfl
  | cons t ts ih =>
    rw [List.reverse_cons, Cursor.lineFeeds_append, ih]
    simp only [lineFeeds]
    omega

theorem isWhitespace_unescape (t : Token) : t.unescape.isWhitespace = t.isWhitespace := by
  unfold unescape
  split
  · next h _ => simp [isWhitespace, h]
  · rfl

theorem unescape_of_isWhitespace {t : Token} (h : t.isWhitespace) : t.unescape = t := by
  apply Grammar.unescape_of_kind
  rw [isWhitespace_iff.mp h]
  exact TokenKind.noConfusion

end Token

namespace Cursor

open Token

variable {c d : Cursor}

theorem take_position (c : Cursor) : c.tokens.take c.position = c.before.reverse := by
  rw [tokens, position, ← List.length_reverse, List.take_left]

theorem drop_position (c : Cursor) : c.tokens.drop c.position = c.after := by
  rw [tokens, position, ← List.length_reverse, List.drop_left]

theorem position_le (c : Cursor) : c.position ≤ c.tokens.length := by
  rw [tokens, position, List.length_append, List.length_reverse]
  omega

@[simp] theorem tokens_rewind (c : Cursor) (k : Checkpoint) : (c.rewind k).tokens = c.tokens := by
  rw [rewind, tokens, List.reverse_reverse, List.take_append_drop]

/-- A cursor comes back to the very place of its mark, wherever it went in between. -/
theorem rewind_checkpoint (h : d.tokens = c.tokens) : d.rewind c.checkpoint = c := by
  rw [rewind, checkpoint, h, take_position, drop_position, List.reverse_reverse]

theorem checkpoint_rewind {k : Checkpoint} (h : k.position ≤ c.tokens.length) :
    (c.rewind k).checkpoint = k := by
  simp [rewind, checkpoint, position, h]

/-- The counter has the line of the place. -/
def OnLine (c : Cursor) : Prop :=
  c.line = lineAt c.tokens c.position

theorem lineAt_position (c : Cursor) :
    lineAt c.tokens c.position = 1 + lineFeeds (c.before.filter isWhitespace) := by
  rw [lineAt, take_position, List.filter_reverse, lineFeeds_reverse]

theorem onLine_iff : c.OnLine ↔ c.line = 1 + lineFeeds (c.before.filter isWhitespace) := by
  rw [OnLine, lineAt_position]

/-- What reading a token does. -/
theorem consume?_eq_some {kind : TokenKind} {text : Option String} {t : Token}
    (h : c.consume? kind text = some (t, d)) :
    ∃ u rest, c.after = u :: rest ∧ t = u.unescape ∧ d = ⟨u :: c.before, rest, c.line⟩ := by
  unfold consume? at h
  split at h
  · cases h
  · next u rest hafter =>
    split at h
    · cases h
      exact ⟨u, rest, hafter, rfl, rfl⟩
    · cases h

section Reading

variable {kind : TokenKind} {text : Option String} {t : Token}

/-- Reading a token keeps the counter on its line unless it passes line feeds. -/
theorem OnLine.consume?_iff (hc : c.OnLine) (h : c.consume? kind text = some (t, d)) :
    d.OnLine ↔ ¬(t.isWhitespace = true ∧ t.newlines ≠ 0) := by
  obtain ⟨u, rest, -, rfl, rfl⟩ := consume?_eq_some h
  have hline := onLine_iff.mp hc
  rw [isWhitespace_unescape]
  cases hu : u.isWhitespace with
  | false => simp [onLine_iff, hu, hline]
  | true =>
    have hcount : OnLine ⟨u :: c.before, rest, c.line⟩ ↔
        c.line = 1 + (u.newlines + lineFeeds (c.before.filter isWhitespace)) := by
      rw [onLine_iff, List.filter_cons_of_pos hu]
      rfl
    rw [unescape_of_isWhitespace hu, hcount]
    constructor
    · rintro heq ⟨-, hne⟩
      omega
    · intro hnot
      have hzero : u.newlines = 0 := by
        by_contra hne
        exact hnot ⟨rfl, hne⟩
      omega

/-- The step back undoes the reading of a token that has no line feeds to take off. -/
theorem unconsume_of_consume? (h : c.consume? kind text = some (t, d))
    (ht : t.isWhitespace = true → t.newlines = 0) : d.unconsume = c := by
  obtain ⟨u, rest, hafter, rfl, rfl⟩ := consume?_eq_some h
  have hline : (if u.isWhitespace then c.line - u.newlines else c.line) = c.line := by
    split
    · next hu =>
      rw [isWhitespace_unescape, unescape_of_isWhitespace hu] at ht
      rw [ht hu, Nat.sub_zero]
    · rfl
  show Cursor.mk c.before (u :: rest) (if u.isWhitespace then c.line - u.newlines else c.line) = c
  rw [hline, ← hafter]

theorem unconsume_ne_of_consume? (h : c.consume? kind text = some (t, d)) (hline : 0 < c.line)
    (ht : t.isWhitespace = true ∧ t.newlines ≠ 0) : d.unconsume ≠ c := by
  obtain ⟨u, rest, -, rfl, rfl⟩ := consume?_eq_some h
  obtain ⟨hu, hne⟩ := ht
  rw [isWhitespace_unescape] at hu
  rw [unescape_of_isWhitespace hu] at hne
  intro heq
  have hless := congrArg Cursor.line heq
  simp only [unconsume, hu, if_true] at hless
  omega

end Reading

/-- The token behind holds no more line feeds than were counted, so none are missing when they are
taken off. -/
theorem OnLine.unconsume (h : c.OnLine) : c.unconsume.OnLine := by
  rw [onLine_iff] at h ⊢
  unfold Cursor.unconsume
  split
  · exact h
  · next t earlier hbefore =>
    rw [hbefore] at h
    cases ht : t.isWhitespace with
    | false =>
      rw [List.filter_cons_of_neg (by simp [ht])] at h
      exact h
    | true =>
      rw [List.filter_cons_of_pos ht, lineFeeds] at h
      show c.line - t.newlines = 1 + lineFeeds (earlier.filter isWhitespace)
      omega

theorem OnLine.skip (h : c.OnLine) : c.skip.OnLine := by
  rw [onLine_iff] at h ⊢
  obtain ⟨read, -, hbefore, hline, -⟩ := reaches_skip c
  rw [hline, hbefore, List.filter_append, lineFeeds_append, List.filter_reverse,
    lineFeeds_reverse, h]
  omega

end Cursor

namespace Session

open Token Cursor

variable {ts : List Token} {s : Session}

/-- The cursor and the marks are places of the tokens. -/
structure Within (ts : List Token) (s : Session) : Prop where
  tokens_eq : s.cursor.tokens = ts
  marks_le : ∀ k ∈ s.marks, k.position ≤ ts.length

/-- The cursor and the marks have the lines of their places. -/
structure OnLine (ts : List Token) (s : Session) : Prop where
  cursor : s.cursor.OnLine
  marks : ∀ k ∈ s.marks, k.line = lineAt ts k.position

theorem step_consume_none {kind : TokenKind} {text : Option String}
    (h : s.cursor.consume? kind text = none) : s.step (.consume kind text) = s := by
  rw [Session.step, h]

theorem step_consume_some {kind : TokenKind} {text : Option String} {t : Token} {c : Cursor}
    (h : s.cursor.consume? kind text = some (t, c)) :
    s.step (.consume kind text) = ⟨c, s.marks⟩ := by
  rw [Session.step, h]

theorem step_rewind_none {mark : Nat} (h : s.marks[mark]? = none) :
    s.step (.rewind mark) = s := by
  rw [Session.step, h]

theorem step_rewind_some {mark : Nat} {k : Checkpoint} (h : s.marks[mark]? = some k) :
    s.step (.rewind mark) = ⟨s.cursor.rewind k, s.marks⟩ := by
  rw [Session.step, h]

theorem within_ofTokens (ts : List Token) : Within ts (ofTokens ts) :=
  ⟨tokens_ofTokens ts, by simp [ofTokens]⟩

theorem onLine_ofTokens (ts : List Token) : OnLine ts (ofTokens ts) :=
  ⟨rfl, by simp [ofTokens]⟩

theorem Within.step (h : Within ts s) (a : Step) : Within ts (s.step a) := by
  have hkept : ∀ {c : Cursor}, c.tokens = s.cursor.tokens → Within ts ⟨c, s.marks⟩ := by
    intro c hc
    exact ⟨hc.trans h.tokens_eq, h.marks_le⟩
  cases a with
  | consume kind text =>
    cases hread : s.cursor.consume? kind text with
    | none =>
      rw [step_consume_none hread]
      exact h
    | some r =>
      rw [step_consume_some hread]
      exact hkept (tokens_of_consume? hread)
  | unconsume => exact hkept (tokens_unconsume _)
  | skip => exact hkept (tokens_skip _)
  | checkpoint =>
    have hle : s.cursor.checkpoint.position ≤ ts.length := h.tokens_eq ▸ s.cursor.position_le
    refine ⟨h.tokens_eq, List.forall_mem_append.mpr ⟨h.marks_le, ?_⟩⟩
    exact List.forall_mem_singleton.mpr hle
  | rewind mark =>
    cases hmark : s.marks[mark]? with
    | none =>
      rw [step_rewind_none hmark]
      exact h
    | some k =>
      rw [step_rewind_some hmark]
      exact hkept (tokens_rewind _ _)

/-- A step that passes no line feeds unseen keeps the counter on its line. -/
theorem OnLine.step (hin : Within ts s) (h : OnLine ts s) {a : Step} (ha : ¬s.Loses a) :
    OnLine ts (s.step a) := by
  cases a with
  | consume kind text =>
    cases hread : s.cursor.consume? kind text with
    | none =>
      rw [step_consume_none hread]
      exact h
    | some r =>
      rw [step_consume_some hread]
      refine ⟨(h.cursor.consume?_iff hread).mpr ?_, h.marks⟩
      intro hlost
      exact ha ⟨r, hread, hlost⟩
  | unconsume => exact ⟨h.cursor.unconsume, h.marks⟩
  | skip => exact ⟨h.cursor.skip, h.marks⟩
  | checkpoint =>
    have hline : s.cursor.checkpoint.line = lineAt ts s.cursor.checkpoint.position :=
      hin.tokens_eq ▸ h.cursor
    refine ⟨h.cursor, List.forall_mem_append.mpr ⟨h.marks, ?_⟩⟩
    exact List.forall_mem_singleton.mpr hline
  | rewind mark =>
    cases hmark : s.marks[mark]? with
    | none =>
      rw [step_rewind_none hmark]
      exact h
    | some k =>
      rw [step_rewind_some hmark]
      have hk : k ∈ s.marks := List.mem_of_getElem? hmark
      have hplace : (s.cursor.rewind k).checkpoint = k :=
        checkpoint_rewind (hin.tokens_eq ▸ hin.marks_le k hk)
      have hline := h.marks k hk
      rw [← hplace] at hline
      refine ⟨?_, h.marks⟩
      rw [Cursor.OnLine, tokens_rewind, hin.tokens_eq]
      exact hline

/-- A step that passes line feeds unseen leaves the counter behind. -/
theorem not_onLine_step (h : s.cursor.OnLine) {a : Step} (ha : s.Loses a) :
    ¬(s.step a).cursor.OnLine := by
  cases a with
  | consume kind text =>
    obtain ⟨r, hread, hlost⟩ := ha
    rw [step_consume_some hread]
    intro hon
    exact (h.consume?_iff hread).mp hon hlost
  | unconsume => exact ha.elim
  | skip => exact ha.elim
  | checkpoint => exact ha.elim
  | rewind mark => exact ha.elim

theorem run_append (s : Session) (as bs : List Step) : s.run (as ++ bs) = (s.run as).run bs :=
  List.foldl_append

theorem within_run (h : Within ts s) (steps : List Step) : Within ts (s.run steps) := by
  induction steps generalizing s with
  | nil => exact h
  | cons a steps ih => exact ih (h.step a)

theorem run_take_succ (s : Session) {steps : List Step} {n : Nat} {a : Step}
    (h : steps[n]? = some a) : s.run (steps.take (n + 1)) = (s.run (steps.take n)).step a := by
  rw [List.take_add_one, h, run_append]
  rfl

/-- A session in which no step passes line feeds unseen. -/
theorem onLine_run {steps : List Step}
    (h : ∀ n a, steps[n]? = some a → ¬((ofTokens ts).run (steps.take n)).Loses a) (n : Nat) :
    OnLine ts ((ofTokens ts).run (steps.take n)) := by
  induction n with
  | zero => exact onLine_ofTokens ts
  | succ n ih =>
    cases ha : steps[n]? with
    | none =>
      have hsame : steps.take (n + 1) = steps.take n := by
        rw [List.take_add_one, ha]
        exact List.append_nil _
      rw [hsame]
      exact ih
    | some a =>
      rw [run_take_succ _ ha]
      exact ih.step (within_run (within_ofTokens ts) _) (h n a ha)

/-- A session never leaves its tokens. Its lines are those of the places reached if and only if no
step reads a whitespace token that has line feeds, and what is read is undone by a step back unless
it is such a token. -/
theorem lineAt_session (ts : List Token) (steps : List Step) :
    (∀ n, ((ofTokens ts).run (steps.take n)).cursor.tokens = ts ∧
      ((ofTokens ts).run (steps.take n)).cursor.position ≤ ts.length) ∧
    ((∀ n, ((ofTokens ts).run (steps.take n)).cursor.line =
        lineAt ts ((ofTokens ts).run (steps.take n)).cursor.position) ↔
      ∀ n a, steps[n]? = some a → ¬((ofTokens ts).run (steps.take n)).Loses a) ∧
    ∀ (c d : Cursor) (kind : TokenKind) (text : Option String) (t : Token),
      c.consume? kind text = some (t, d) →
        ((t.isWhitespace = true → t.newlines = 0) → d.unconsume = c) ∧
        (t.isWhitespace = true ∧ t.newlines ≠ 0 → 0 < c.line → d.unconsume ≠ c) := by
  have hin : ∀ n, Within ts ((ofTokens ts).run (steps.take n)) := by
    intro n
    exact within_run (within_ofTokens ts) _
  refine ⟨?_, ?_, ?_⟩
  · intro n
    have hle := position_le ((ofTokens ts).run (steps.take n)).cursor
    rw [(hin n).tokens_eq] at hle
    exact ⟨(hin n).tokens_eq, hle⟩
  · constructor
    · intro hline n a ha hlost
      have hon : ∀ m, ((ofTokens ts).run (steps.take m)).cursor.OnLine := by
        intro m
        rw [Cursor.OnLine, (hin m).tokens_eq]
        exact hline m
      apply not_onLine_step (hon n) hlost
      rw [← run_take_succ _ ha]
      exact hon (n + 1)
    · intro hnone n
      have hon := (onLine_run hnone n).cursor
      rw [Cursor.OnLine, (hin n).tokens_eq] at hon
      exact hon
  · intro c d kind text t h
    exact ⟨unconsume_of_consume? h, fun ht hline => unconsume_ne_of_consume? h hline ht⟩

/-- A line is passed by skipping, and a return to the mark in front of it takes it back. -/
theorem lineAt_session_rewind :
    (∀ n, ((ofTokens [word "a", blank "\n", word "b"]).run
        ([.checkpoint, .consume .identifier none, .skip, .consume .identifier none, .unconsume,
          .rewind 0].take n)).cursor.line =
      lineAt [word "a", blank "\n", word "b"]
        ((ofTokens [word "a", blank "\n", word "b"]).run
          ([.checkpoint, .consume .identifier none, .skip, .consume .identifier none, .unconsume,
            .rewind 0].take n)).cursor.position) ∧
    (Cursor.mk [word "a"] [blank "\n", word "b"] 1).unconsume =
      Cursor.ofTokens [word "a", blank "\n", word "b"] := by
  constructor
  · apply (lineAt_session _ _).2.1.mpr
    intro n a ha
    have hn := (List.getElem?_eq_some_iff.mp ha).1
    simp only [List.length_cons, List.length_nil] at hn
    interval_cases n <;> cases ha <;> decide
  · exact ((lineAt_session [] []).2.2 _ _ .identifier none (word "a") rfl).1 (by decide)

/-- A blank line that is read like other tokens is not counted, and the step back over it leads to
a line in front of the first. -/
theorem line_ne_lineAt_of_consumed :
    ((ofTokens [blank "\n"]).run [.consume .whitespace none]).cursor.line ≠
        lineAt [blank "\n"] ((ofTokens [blank "\n"]).run [.consume .whitespace none]).cursor.position ∧
      ((ofTokens [blank "\n"]).run [.consume .whitespace none, .unconsume]).cursor.line ≠
        (ofTokens [blank "\n"]).cursor.line := by
  decide

end Session

end WebIdl

import Mathlib.Data.List.Forall2
import WebIdl.Cursor

/-!
# Renamed tokens

Two token lists that differ only in the names behind escape marks. A word is compared before the
mark is taken off, so both lists have the same words in the same places; but some productions look
at a name that has already been read, and these names are the telling ones. A renaming leaves them
alone.
-/

namespace WebIdl

/-- The names at which the grammar looks when it has read them. -/
def tellingNames : List String :=
  ["any", "sequence", "getter", "inherit"]

/-- Names, and what may stand in their place behind an escape mark. -/
structure Renaming where
  renames : String → String → Prop
  untold {k m : String} : renames k m → k ∉ tellingNames ∧ m ∉ tellingNames

/-- Any two names may be exchanged that are not telling. -/
def Renaming.untoldNames : Renaming where
  renames k m := k ∉ tellingNames ∧ m ∉ tellingNames
  untold h := h

variable {ρ : Renaming}

/-- The same name, or one in place of another. -/
inductive Renaming.Name (ρ : Renaming) : String → String → Prop
  | same (k : String) : Name ρ k k
  | renamed {k m : String} (h : ρ.renames k m) : Name ρ k m

/-- The same token, or one escaped name in place of another. -/
inductive Token.Renamed (ρ : Renaming) : Token → Token → Prop
  | same (t : Token) : Renamed ρ t t
  | escaped {k m : String} (h : ρ.renames k m) :
    Renamed ρ (.word ("_" ++ k)) (.word ("_" ++ m))

/-- The same reason. Two of them quote the name of a generic type, which may be renamed. -/
inductive Reason.Renamed (ρ : Renaming) : Reason → Reason → Prop
  | same (r : Reason) : Renamed ρ r r
  | genericArgument {k m : String} (h : ρ.Name k m) :
    Renamed ρ (.genericArgument k) (.genericArgument m)
  | unclosedGeneric {k m : String} (h : ρ.Name k m) :
    Renamed ρ (.unclosedGeneric k) (.unclosedGeneric m)

structure ParseError.Renamed (ρ : Renaming) (e e' : ParseError) : Prop where
  reason : e.reason.Renamed ρ e'.reason
  line : e.line = e'.line
  tokens : List.Forall₂ (Token.Renamed ρ) e.tokens e'.tokens

structure Cursor.Renamed (ρ : Renaming) (c c' : Cursor) : Prop where
  before : List.Forall₂ (Token.Renamed ρ) c.before c'.before
  after : List.Forall₂ (Token.Renamed ρ) c.after c'.after
  line : c.line = c'.line

theorem Renaming.Name.eq_iff {k m n : String} (h : ρ.Name k m) (hn : n ∈ tellingNames) :
    k = n ↔ m = n := by
  cases h with
  | same => rfl
  | renamed h =>
    obtain ⟨hk, hm⟩ := ρ.untold h
    exact iff_of_false (fun heq => hk (heq ▸ hn)) fun heq => hm (heq ▸ hn)

namespace Token

/-- The word has no escape mark. -/
def Unmarked (w : String) : Prop :=
  w.toList.head? ≠ some '_'

instance (w : String) : Decidable (Unmarked w) :=
  inferInstanceAs (Decidable (w.toList.head? ≠ some '_'))

theorem word_escaped_ne {w : String} (hw : Unmarked w) (k : String) : w ≠ "_" ++ k := by
  rintro rfl
  simp [Unmarked] at hw

theorem unescape_escaped (k : String) : (word ("_" ++ k)).unescape = word k := by
  simp [unescape, word]

theorem Renamed.kind {t t' : Token} (h : t.Renamed ρ t') : t.kind = t'.kind := by
  cases h with
  | same => rfl
  | escaped => rfl

/-- Only identifiers are renamed. -/
theorem Renamed.eq_of_kind {t t' : Token} (h : t.Renamed ρ t') (hkind : t.kind ≠ .identifier) :
    t = t' := by
  cases h with
  | same => rfl
  | escaped => exact absurd rfl hkind

/-- A word is found in both lists or in neither. -/
theorem Renamed.text_iff {t t' : Token} {w : String} (h : t.Renamed ρ t') (hw : Unmarked w) :
    w = t.text ↔ w = t'.text := by
  cases h with
  | same => rfl
  | escaped => exact iff_of_false (word_escaped_ne hw _) (word_escaped_ne hw _)

theorem Renamed.unescape_text {t t' : Token} (h : t.Renamed ρ t') :
    ρ.Name t.unescape.text t'.unescape.text := by
  cases h with
  | same => exact .same _
  | escaped h =>
    rw [unescape_escaped, unescape_escaped]
    exact .renamed h

theorem Renamed.isWhitespace {t t' : Token} (h : t.Renamed ρ t') :
    t.isWhitespace = t'.isWhitespace := by
  rw [Token.isWhitespace, Token.isWhitespace, h.kind]

end Token

namespace Cursor

open Token

variable {c c' : Cursor}

theorem gap_of_renamed {ts ts' : List Token} (h : List.Forall₂ (Token.Renamed ρ) ts ts') :
    ts.takeWhile Token.isWhitespace = ts'.takeWhile Token.isWhitespace := by
  induction h with
  | nil => rfl
  | @cons t t' ts ts' ht hts ih =>
    rw [List.takeWhile_cons, List.takeWhile_cons, ← ht.isWhitespace]
    cases hblank : t.isWhitespace with
    | false => rfl
    | true =>
      obtain rfl := ht.eq_of_kind (by simp_all [Token.isWhitespace])
      exact congrArg (t :: ·) ih

theorem skipped_of_renamed {ts ts' : List Token} (h : List.Forall₂ (Token.Renamed ρ) ts ts') :
    List.Forall₂ (Token.Renamed ρ) (ts.dropWhile Token.isWhitespace)
      (ts'.dropWhile Token.isWhitespace) := by
  induction h with
  | nil => exact .nil
  | @cons t t' ts ts' ht hts ih =>
    rw [List.dropWhile_cons, List.dropWhile_cons, ← ht.isWhitespace]
    cases t.isWhitespace with
    | false => exact .cons ht hts
    | true => exact ih

theorem renamed_same (ts : List Token) : List.Forall₂ (Token.Renamed ρ) ts ts :=
  List.forall₂_same.mpr fun t _ => .same t

theorem renamed_ofTokens {ts ts' : List Token} (h : List.Forall₂ (Token.Renamed ρ) ts ts') :
    (ofTokens ts).Renamed ρ (ofTokens ts') :=
  ⟨.nil, h, rfl⟩

theorem Renamed.gap (h : c.Renamed ρ c') : c.gap = c'.gap :=
  gap_of_renamed h.after

theorem Renamed.skip (h : c.Renamed ρ c') : c.skip.Renamed ρ c'.skip := by
  refine ⟨?_, skipped_of_renamed h.after, ?_⟩
  · show List.Forall₂ _ (c.gap.reverse ++ c.before) (c'.gap.reverse ++ c'.before)
    rw [h.gap]
    exact List.rel_append (renamed_same _) h.before
  · show c.line + lineFeeds c.gap = c'.line + lineFeeds c'.gap
    rw [h.line, h.gap]

theorem Renamed.remaining (h : c.Renamed ρ c') : c.remaining = c'.remaining :=
  h.after.length_eq

theorem Renamed.atEnd (h : c.Renamed ρ c') : c.atEnd = c'.atEnd := by
  rw [Cursor.atEnd, Cursor.atEnd, Bool.eq_iff_iff, List.isEmpty_iff_length_eq_zero,
    List.isEmpty_iff_length_eq_zero, h.after.length_eq]

theorem Renamed.unconsume (h : c.Renamed ρ c') : c.unconsume.Renamed ρ c'.unconsume := by
  obtain ⟨before, after, line⟩ := c
  obtain ⟨before', after', line'⟩ := c'
  obtain ⟨hbefore, hafter, hline⟩ := h
  cases hbefore with
  | nil => exact ⟨.nil, hafter, hline⟩
  | @cons t t' _ _ ht hts =>
    refine ⟨hts, .cons ht hafter, ?_⟩
    show (if t.isWhitespace then line - t.newlines else line) =
      if t'.isWhitespace then line' - t'.newlines else line'
    obtain rfl : line = line' := hline
    rw [← ht.isWhitespace]
    cases hblank : t.isWhitespace with
    | false => rfl
    | true =>
      obtain rfl := ht.eq_of_kind (by simp_all [Token.isWhitespace])
      rfl

theorem Renamed.fail (h : c.Renamed ρ c') {r r' : Reason} (hr : r.Renamed ρ r') :
    (c.fail r).Renamed ρ (c'.fail r') :=
  ⟨hr, h.line, List.forall₂_take _ h.after⟩

end Cursor

end WebIdl

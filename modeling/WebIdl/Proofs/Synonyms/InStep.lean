import Mathlib.Data.Nat.PSub
import WebIdl.Proofs.Twins.Rules

/-!
# Token lists in step

Two token lists are in step if they go on alike up to the next stop, and behind it are related in
some way that is left open. A stop is a `;`, or a bracket that closes more than has been opened: a
reader of a statement, or of a list of attributes, takes it last.

In front of the stop there may be a wall, which no such reader passes. A `:` stands only in the
head of a definition, and one string behind another one only in the body of an enumeration. At a
wall two lists in step are the same, so that nothing has to be said about what they hold behind it.
-/

namespace WebIdl

namespace Token

variable {S : List Token → List Token → Prop} {o : Option Nat} {n : Nat} {prev : Option Token}
  {t u : Token} {ts us : List Token}

/-- How many brackets are open behind a token if `n` are open in front of it; none behind a stop. -/
def depth (t : Token) (n : Nat) : Option Nat :=
  if t = mark ";" then none
  else if t = mark "[" then some (n + 1)
  else if t = mark "]" then n.ppred
  else some n

/-- The last token that is not blank, behind `t`. -/
def latest (t : Token) (prev : Option Token) : Option Token :=
  if t.isWhitespace then prev else some t

/-- A `:`, or a string behind a string or behind a comma. -/
def Wall (prev : Option Token) (t : Token) : Prop :=
  t = mark ":" ∨ t.kind = .string ∧ ∃ u ∈ prev, u.kind = .string ∨ u = mark ","

/-- The lists are the same up to the next stop or wall. Behind the stop they are related by `S`. -/
inductive InStep (S : List Token → List Token → Prop) :
    Option Nat → Option Token → List Token → List Token → Prop
  | past {prev : Option Token} {ts us : List Token} (h : S ts us) : InStep S none prev ts us
  | nil {n : Nat} {prev : Option Token} : InStep S (some n) prev [] []
  | wall {n : Nat} {prev : Option Token} {t : Token} {ts : List Token} (h : Wall prev t) :
    InStep S (some n) prev (t :: ts) (t :: ts)
  | cons {n : Nat} {prev : Option Token} {t : Token} {ts us : List Token}
    (h : InStep S (t.depth n) (t.latest prev) ts us) : InStep S (some n) prev (t :: ts) (t :: us)

theorem depth_of_kind (h : t.kind ≠ .other) : t.depth n = some n := by
  have hne (m : String) : t ≠ mark m := by
    rintro rfl
    exact h rfl
  simp [depth, hne]

theorem depth_of_blank (h : t.isWhitespace) : t.depth n = some n :=
  depth_of_kind fun hkind => by simp [isWhitespace, hkind] at h

theorem latest_of_blank (h : t.isWhitespace) : t.latest prev = prev :=
  if_pos h

theorem latest_of_solid (h : t.isWhitespace = false) : t.latest prev = some t :=
  if_neg (by simp [h])

theorem Wall.solid (h : Wall prev t) : t.isWhitespace = false := by
  rcases h with rfl | ⟨hkind, -⟩
  · rfl
  · simp [isWhitespace, hkind]

namespace InStep

theorem refl (hS : ∀ ts, S ts ts) (o : Option Nat) (prev : Option Token) (ts : List Token) :
    InStep S o prev ts ts := by
  induction ts generalizing o prev with
  | nil =>
    cases o with
    | none => exact .past (hS [])
    | some n => exact .nil
  | cons t ts ih =>
    cases o with
    | none => exact .past (hS _)
    | some n => exact .cons (ih _ _)

theorem tail (h : InStep S (some n) prev (t :: ts) (u :: us)) (hwall : ¬Wall prev t) :
    InStep S (t.depth n) (t.latest prev) ts us := by
  cases h with
  | wall hw => exact absurd hw hwall
  | cons h => exact h

theorem head? (h : InStep S (some n) prev ts us) : ts.head? = us.head? := by
  cases h with
  | nil => rfl
  | wall _ => rfl
  | cons _ => rfl

theorem blank (ht : t.isWhitespace) (h : InStep S (some n) prev ts us) :
    InStep S (some n) prev (t :: ts) (t :: us) := by
  apply InStep.cons
  rw [depth_of_blank ht, latest_of_blank ht]
  exact h

/-- The blanks in front are the same, and the lists are in step behind them. -/
theorem skip (h : InStep S (some n) prev ts us) :
    lead ts = lead us ∧ InStep S (some n) prev (core ts) (core us) := by
  induction ts generalizing us with
  | nil =>
    cases h with
    | nil => exact ⟨rfl, .nil⟩
  | cons t ts ih =>
    cases hblank : t.isWhitespace with
    | false =>
      obtain ⟨us, rfl⟩ : ∃ rest, us = t :: rest := by
        have := h.head?
        exact List.head?_eq_some_iff.mp this.symm
      rw [core_cons_of_solid hblank, core_cons_of_solid hblank]
      exact ⟨by simp [lead, hblank], h⟩
    | true =>
      cases h with
      | wall hw => exact absurd hblank (by simp [hw.solid])
      | cons h =>
        rw [depth_of_blank hblank, latest_of_blank hblank] at h
        obtain ⟨hlead, hcore⟩ := ih h
        rw [core_cons_of_blank hblank, core_cons_of_blank hblank]
        refine ⟨?_, hcore⟩
        simp only [lead, List.takeWhile_cons, hblank, if_true]
        exact congrArg (t :: ·) hlead

end InStep

end Token

namespace Cursor

open Token

variable {S : List Token → List Token → Prop} {n : Nat} {c c' : Cursor} {t : Token}
  {rest rest' : List Token}

/-- The last token behind the cursor that is not blank. -/
def behind (c : Cursor) : Option Token :=
  c.before.find? fun t => !t.isWhitespace

/-- What is ahead of two cursors is in step. -/
def InStep (S : List Token → List Token → Prop) (o : Option Nat) (c c' : Cursor) : Prop :=
  Token.InStep S o c.behind c.after c'.after

theorem find?_solid_blanks {blanks before : List Token} (h : ∀ t ∈ blanks, t.isWhitespace) :
    (blanks ++ before).find? (fun t => !t.isWhitespace) =
      before.find? fun t => !t.isWhitespace := by
  rw [List.find?_append, List.find?_eq_none.mpr fun t ht => by simp [h t ht]]
  rfl

@[simp] theorem behind_skip (c : Cursor) : c.skip.behind = c.behind :=
  find?_solid_blanks fun _ ht => List.mem_takeWhile_imp (List.mem_reverse.mp ht)

theorem behind_next (c : Cursor) (t : Token) (rest : List Token) :
    (c.next t rest).behind = t.latest c.behind := by
  rw [behind, next, List.find?_cons, latest]
  cases t.isWhitespace with
  | true => rfl
  | false => rfl

theorem InStep.skip (h : c.InStep S (some n) c') : c.skip.InStep S (some n) c'.skip := by
  rw [InStep, behind_skip]
  exact (Token.InStep.skip h).2

theorem InStep.gap (h : c.InStep S (some n) c') : c.gap = c'.gap :=
  (Token.InStep.skip h).1

theorem InStep.next (h : c.InStep S (some n) c') (hafter : c.after = t :: rest)
    (hafter' : c'.after = t :: rest') (hwall : ¬Wall c.behind t) :
    (c.next t rest).InStep S (t.depth n) (c'.next t rest') := by
  rw [InStep, behind_next]
  rw [InStep, hafter, hafter'] at h
  exact h.tail hwall

/-- Numerals and words are neither walls nor brackets. -/
theorem InStep.next_of_kind (h : c.InStep S (some n) c') (hafter : c.after = t :: rest)
    (hafter' : c'.after = t :: rest') (hother : t.kind ≠ .other) (hstring : t.kind ≠ .string) :
    (c.next t rest).InStep S (some n) (c'.next t rest') := by
  rw [← depth_of_kind hother]
  apply h.next hafter hafter'
  rintro (rfl | ⟨hkind, -⟩)
  · exact hother rfl
  · exact hstring hkind

/-- Of the marks, only a `:` is a wall. -/
theorem InStep.next_mark {m : String} (h : c.InStep S (some n) c')
    (hafter : c.after = mark m :: rest) (hafter' : c'.after = mark m :: rest') (hm : m ≠ ":") :
    (c.next (mark m) rest).InStep S ((mark m).depth n) (c'.next (mark m) rest') := by
  apply h.next hafter hafter'
  rintro (hcolon | ⟨hkind, -⟩)
  · exact hm (congrArg Token.text hcolon)
  · exact TokenKind.noConfusion hkind

/-- Where no blanks were skipped, the step back brings back the token in front of them. -/
theorem unconsume_skip_of_nil {earlier : List Token} (hbefore : c.before = t :: earlier)
    (hgap : c.gap = []) :
    c.skip.unconsume.before = earlier ∧ c.skip.unconsume.after = t :: c.after := by
  have hcore : core c.after = c.after := by
    have := lead_append_core c.after
    rwa [show lead c.after = [] from hgap] at this
  have hskip : c.skip.before = t :: earlier := by
    rw [Cursor.skip, hgap, hbefore]
    rfl
  rw [unconsume, hskip]
  exact ⟨rfl, congrArg (t :: ·) hcore⟩

/-- Otherwise it brings back the last of the blanks. -/
theorem unconsume_skip_of_append {blanks : List Token} (hgap : c.gap = blanks ++ [t]) :
    c.skip.unconsume.before = blanks.reverse ++ c.before ∧
      c.skip.unconsume.after = t :: core c.after := by
  have hskip : c.skip.before = t :: (blanks.reverse ++ c.before) := by
    rw [Cursor.skip, hgap, List.reverse_append]
    rfl
  rw [unconsume, hskip]
  exact ⟨rfl, rfl⟩

/-- Behind a token, blanks and a step back either the token comes next again, or the last blank. -/
theorem stepBack (c : Cursor) (ht : t.isWhitespace = false) (rest : List Token) :
    let back := (c.next t rest).skip.unconsume
    (lead rest).getLast? = none ∧ back.behind = c.behind ∧ back.after = t :: rest ∨
      ∃ blank, (lead rest).getLast? = some blank ∧ blank.isWhitespace ∧ back.behind = some t ∧
        back.after = blank :: core rest := by
  cases hgap : lead rest using List.reverseRecOn with
  | nil =>
    obtain ⟨hbefore, hback⟩ := unconsume_skip_of_nil (c := c.next t rest) rfl hgap
    exact .inl ⟨rfl, by rw [behind, hbefore, behind], hback⟩
  | append_singleton blanks blank =>
    have hblanks : ∀ u ∈ blanks ++ [blank], u.isWhitespace := fun u hu =>
      List.mem_takeWhile_imp (hgap ▸ hu)
    obtain ⟨hbefore, hback⟩ := unconsume_skip_of_append (c := c.next t rest) hgap
    refine .inr ⟨blank, List.getLast?_concat, hblanks blank (by simp), ?_, hback⟩
    rw [behind, hbefore, find?_solid_blanks fun u hu => hblanks u (by simp [List.mem_reverse.mp hu])]
    exact (behind_next c t rest).trans (latest_of_solid ht)

/-- The step back behind a minus leads to the same token in both runs. -/
theorem InStep.minus (h : c.InStep S (some n) c') (hafter : c.after = mark "-" :: rest)
    (hafter' : c'.after = mark "-" :: rest') :
    (c.next (mark "-") rest).skip.unconsume.InStep S (some n)
      (c'.next (mark "-") rest').skip.unconsume := by
  have hnext : (c.next (mark "-") rest).InStep S (some n) (c'.next (mark "-") rest') :=
    h.next_mark hafter hafter' (by decide)
  have hlead : lead rest = lead rest' := hnext.gap
  have hminus : (mark "-").isWhitespace = false := rfl
  rw [InStep]
  rcases stepBack c hminus rest with ⟨hlast, hbehind, hback⟩ | ⟨blank, hlast, hblank, hbehind, hback⟩
  · rcases stepBack c' hminus rest' with ⟨-, -, hback'⟩ | ⟨_, hlast', -⟩
    · rw [hbehind, hback, hback']
      rw [InStep, hafter, hafter'] at h
      exact h
    · simp [← hlead, hlast] at hlast'
  · rcases stepBack c' hminus rest' with ⟨hlast', -⟩ | ⟨_, hlast', -, -, hback'⟩
    · simp [← hlead, hlast] at hlast'
    · obtain rfl := Option.some.inj ((hlead ▸ hlast).symm.trans hlast')
      rw [hbehind, hback, hback']
      apply Token.InStep.blank hblank
      exact (Token.InStep.skip hnext).2

end Cursor

end WebIdl

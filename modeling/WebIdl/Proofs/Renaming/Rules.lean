import WebIdl.Grammar.Definitions
import WebIdl.Proofs.Answers.Rules
import WebIdl.Proofs.Renaming.Tokens

/-!
# Runs over renamed tokens

A production is run from two cursors whose tokens are renamed. For each type of answers it is said
how far the answers agree, which is as far as the productions behind them look at them: flags,
suffixes and primitives are the same, names are renamed, a type is a sequence type in both runs or
in neither, and of what only goes into the tree nothing is said. Two runs are parallel if they come
to answers that agree, at renamed cursors, or fail alike.
-/

namespace WebIdl

variable {ρ : Renaming} {α β γ : Type}

/-- How far the answers of two runs agree. -/
class Compared (α : Type) where
  agree : Renaming → α → α → Prop
  refl (ρ : Renaming) (a : α) : agree ρ a a

/-- The answers are the same. -/
class Compared.Exact (α : Type) [Compared α] : Prop where
  eq {ρ : Renaming} {a a' : α} : Compared.agree ρ a a' → a = a'

/-- Nothing is asked of the answers. -/
class Compared.Free (α : Type) [Compared α] : Prop where
  agree (ρ : Renaming) (a a' : α) : Compared.agree ρ a a'

/-- Two answers that agree. -/
class Akin [Compared α] (ρ : Renaming) (a a' : α) : Prop where
  agree : Compared.agree ρ a a'

/-- The answers of two runs, which agree. -/
structure Agreeing (ρ : Renaming) (α : Type) [Compared α] where
  left : α
  right : α
  agree : Compared.agree ρ left right

namespace Compared

@[reducible] def exact (α : Type) : Compared α :=
  ⟨fun _ a a' => a = a', fun _ _ => rfl⟩

@[reducible] def free (α : Type) : Compared α :=
  ⟨fun _ _ _ => True, fun _ _ => trivial⟩

instance exact_exact (α : Type) : @Exact α (exact α) :=
  @Exact.mk α (exact α) fun h => h

instance free_free (α : Type) : @Free α (free α) :=
  @Free.mk α (free α) fun _ _ _ => trivial

/-- Most of what is read only goes into the tree. -/
instance (priority := low) instTree : Compared α := free α

instance instUnit : Compared Unit := exact Unit

instance instBool : Compared Bool := exact Bool

instance instPrimitive : Compared Primitive := exact Primitive

instance instSuffix : Compared Suffix := exact Suffix

instance instSpecial : Compared Special := exact Special

instance instSpecials : Compared Specials := exact Specials

instance instIterableKind : Compared IterableKind := exact IterableKind

instance instTrivia : Compared Trivia := exact Trivia

instance instString : Compared String :=
  ⟨Renaming.Name, fun _ => .same⟩

instance instReason : Compared Reason :=
  ⟨Reason.Renamed, fun _ => .same⟩

/-- What has been read of a token is its text, without the escape mark. -/
instance instToken : Compared Token :=
  ⟨fun ρ t t' => ρ.Name t.text t'.text, fun _ t => .same t.text⟩

/-- Of a type the grammar asks only whether it is a sequence type. -/
instance instIdlType : Compared IdlType :=
  ⟨fun _ t t' => t.isSequence = t'.isSequence, fun _ _ => rfl⟩

instance instOption [Compared α] : Compared (Option α) where
  agree ρ := Option.Rel (agree ρ)
  refl ρ o := by
    cases o with
    | none => exact .none
    | some a => exact .some (refl ρ a)

instance instList [Compared α] : Compared (List α) where
  agree ρ := List.Forall₂ (agree ρ)
  refl ρ _ := List.forall₂_same.mpr fun a _ => refl ρ a

instance instSum [Compared α] [Compared β] : Compared (α ⊕ β) where
  agree ρ := Sum.LiftRel (agree ρ) (agree ρ)
  refl ρ s := by
    cases s with
    | inl a => exact .inl (refl ρ a)
    | inr b => exact .inr (refl ρ b)

instance instProd [Compared α] [Compared β] : Compared (α × β) where
  agree ρ p p' := agree ρ p.1 p'.1 ∧ agree ρ p.2 p'.2
  refl ρ p := ⟨refl ρ p.1, refl ρ p.2⟩

end Compared

open Compared

instance exact_list [Compared α] [Exact α] : Exact (List α) := by
  refine ⟨fun h => ?_⟩
  induction h with
  | nil => rfl
  | cons ha _ ih => rw [Exact.eq ha, ih]

section Akin

variable [Compared α] [Compared β]

instance akin_refl (a : α) : Akin ρ a a :=
  ⟨Compared.refl ρ a⟩

instance akin_of_agreeing (a : Agreeing ρ α) : Akin ρ a.left a.right :=
  ⟨a.agree⟩

instance akin_free [Free α] (a a' : α) : Akin ρ a a' :=
  ⟨Free.agree ρ a a'⟩

instance akin_some {a a' : α} [h : Akin ρ a a'] : Akin ρ (some a) (some a') :=
  ⟨.some h.agree⟩

instance akin_cons {a a' : α} {as as' : List α} [h : Akin ρ a a'] [hs : Akin ρ as as'] :
    Akin ρ (a :: as) (a' :: as') :=
  ⟨.cons h.agree hs.agree⟩

instance akin_append {as as' bs bs' : List α} [h : Akin ρ as as'] [hs : Akin ρ bs bs'] :
    Akin ρ (as ++ bs) (as' ++ bs') :=
  ⟨List.rel_append h.agree hs.agree⟩

instance akin_pair {a a' : α} {b b' : β} [h : Akin ρ a a'] [hb : Akin ρ b b'] :
    Akin ρ (a, b) (a', b') :=
  ⟨h.agree, hb.agree⟩

instance akin_inl {a a' : α} [h : Akin ρ a a'] : Akin ρ (.inl a : α ⊕ β) (.inl a') :=
  ⟨.inl h.agree⟩

instance akin_map {f f' : α → β} {o o' : Option α} [h : Akin ρ o o']
    [hf : ∀ a : Agreeing ρ α, Akin ρ (f a.left) (f' a.right)] : Akin ρ (o.map f) (o'.map f') := by
  cases h.agree with
  | none => exact akin_refl none
  | some ha => exact ⟨.some (hf ⟨_, _, ha⟩).agree⟩

instance akin_toList {o o' : Option α} [h : Akin ρ o o'] : Akin ρ o.toList o'.toList := by
  cases h.agree with
  | none => exact akin_refl []
  | some ha => exact ⟨.cons ha .nil⟩

instance akin_getD {o o' : Option α} {a a' : α} [h : Akin ρ o o'] [ha : Akin ρ a a'] :
    Akin ρ (o.getD a) (o'.getD a') := by
  cases h.agree with
  | none => exact ha
  | some hb => exact ⟨hb⟩

instance akin_isSome {o o' : Option α} [h : Akin ρ o o'] : Akin ρ o.isSome o'.isSome := by
  cases h.agree with
  | none => exact akin_refl false
  | some => exact akin_refl true

instance akin_isNone {o o' : Option α} [h : Akin ρ o o'] : Akin ρ o.isNone o'.isNone := by
  cases h.agree with
  | none => exact akin_refl true
  | some => exact akin_refl false

instance akin_isEmpty {as as' : List α} [h : Akin ρ as as'] : Akin ρ as.isEmpty as'.isEmpty := by
  cases h.agree with
  | nil => exact akin_refl true
  | cons => exact akin_refl false

instance akin_and {b b' d d' : Bool} [h : Akin ρ b b'] [hd : Akin ρ d d'] :
    Akin ρ (b && d) (b' && d') := by
  rw [Exact.eq h.agree, Exact.eq hd.agree]
  exact akin_refl _

instance akin_text {t t' : Token} [h : Akin ρ t t'] : Akin ρ t.text t'.text :=
  ⟨h.agree⟩

instance akin_isSequence {t t' : IdlType} [h : Akin ρ t t'] :
    Akin ρ t.isSequence t'.isSequence :=
  ⟨h.agree⟩

instance akin_named (n n' : String) (s s' : Suffix) :
    Akin ρ (IdlType.named n s) (.named n' s') :=
  ⟨rfl⟩

instance akin_union (ts ts' : List IdlType) (s s' : Suffix) :
    Akin ρ (IdlType.union ts s) (.union ts' s') :=
  ⟨rfl⟩

/-- A sequence type is told by its name. -/
instance akin_generic {n n' : String} (t t' : IdlType) (s s' : Suffix) [h : Akin ρ n n'] :
    Akin ρ (IdlType.generic n t s) (.generic n' t' s') := by
  have hiff : n = "sequence" ↔ n' = "sequence" := h.agree.eq_iff (by decide)
  refine ⟨Bool.eq_iff_iff.mpr ?_⟩
  simpa [IdlType.isSequence, IdlType.genericName?] using hiff

instance akin_genericArgument {n n' : String} [h : Akin ρ n n'] :
    Akin ρ (Reason.genericArgument n) (.genericArgument n') :=
  ⟨.genericArgument h.agree⟩

instance akin_unclosedGeneric {n n' : String} [h : Akin ρ n n'] :
    Akin ρ (Reason.unclosedGeneric n) (.unclosedGeneric n') :=
  ⟨.unclosedGeneric h.agree⟩

end Akin

namespace Grammar

open Token

/-- The ends of two runs: answers that agree, at renamed cursors, or the same failure. -/
inductive Alike (ρ : Renaming) [Compared α] :
    Except ParseError (α × Cursor) → Except ParseError (α × Cursor) → Prop
  | ok {a a' : α} {c c' : Cursor} (ha : agree ρ a a') (hc : c.Renamed ρ c') :
    Alike ρ (.ok (a, c)) (.ok (a', c'))
  | error {e e' : ParseError} (he : e.Renamed ρ e') : Alike ρ (.error e) (.error e')

/-- From renamed cursors both runs come to the same end. -/
class Parallel [Compared α] (ρ : Renaming) (r r' : Reader α) : Prop where
  alike : ∀ c c', c.Renamed ρ c' → Alike ρ (r c) (r' c')

/-- A production that does not look at the names behind escape marks. -/
abbrev Blind [Compared α] (ρ : Renaming) (r : Reader α) : Prop :=
  Parallel ρ r r

section Steps

variable [Compared α] [Compared β] [Compared γ]

instance parallel_pure {a a' : α} [h : Akin ρ a a'] : Parallel ρ (pure a) (pure a') :=
  ⟨fun _ _ hc => .ok h.agree hc⟩

theorem alike_bind {r r' : Reader α} {f f' : α → Reader β} {c c' : Cursor}
    (h : Alike ρ (r c) (r' c'))
    (hf : ∀ a a' c1 c1', agree ρ a a' → c1.Renamed ρ c1' → Alike ρ (f a c1) (f' a' c1')) :
    Alike ρ ((r >>= f) c) ((r' >>= f') c') := by
  show Alike ρ (r c >>= fun p => f p.1 p.2) (r' c' >>= fun p => f' p.1 p.2)
  revert h
  generalize r c = x
  generalize r' c' = x'
  rintro (⟨ha, hc⟩ | he)
  · exact hf _ _ _ _ ha hc
  · exact .error he

instance parallel_bind {r r' : Reader α} {f f' : α → Reader β} [h : Parallel ρ r r']
    [hf : ∀ a : Agreeing ρ α, Parallel ρ (f a.left) (f' a.right)] :
    Parallel ρ (r >>= f) (r' >>= f') :=
  ⟨fun c c' hc => alike_bind (h.alike c c' hc) fun a a' c1 c1' ha => (hf ⟨a, a', ha⟩).alike c1 c1'⟩

/-- Both runs go on with the same answer. -/
instance (priority := high) parallel_bind_exact [Exact α] {r r' : Reader α} {f f' : α → Reader β}
    [h : Parallel ρ r r'] [hf : ∀ a, Parallel ρ (f a) (f' a)] :
    Parallel ρ (r >>= f) (r' >>= f') := by
  refine ⟨fun c c' hc => alike_bind (h.alike c c' hc) fun a a' c1 c1' ha => ?_⟩
  obtain rfl := Exact.eq ha
  exact (hf a).alike c1 c1'

/-- Either there is an answer to go on with in both runs or there is none. -/
instance (priority := high) parallel_bind_option {p p' : Reader (Option α)}
    {f f' : Option α → Reader β} [h : Parallel ρ p p']
    [hsome : ∀ a : Agreeing ρ α, Parallel ρ (f (some a.left)) (f' (some a.right))]
    [hnone : Parallel ρ (f none) (f' none)] : Parallel ρ (p >>= f) (p' >>= f') := by
  refine ⟨fun c c' hc => alike_bind (h.alike c c' hc) fun o o' c1 c1' ho => ?_⟩
  cases ho with
  | none => exact hnone.alike c1 c1'
  | some ha => exact (hsome ⟨_, _, ha⟩).alike c1 c1'

instance (priority := high) parallel_bind_option_exact [Exact α] {p p' : Reader (Option α)}
    {f f' : Option α → Reader β} [h : Parallel ρ p p']
    [hsome : ∀ a, Parallel ρ (f (some a)) (f' (some a))]
    [hnone : Parallel ρ (f none) (f' none)] : Parallel ρ (p >>= f) (p' >>= f') := by
  refine ⟨fun c c' hc => alike_bind (h.alike c c' hc) fun o o' c1 c1' ho => ?_⟩
  cases ho with
  | none => exact hnone.alike c1 c1'
  | @some a a' ha =>
    obtain rfl := Exact.eq ha
    exact (hsome a).alike c1 c1'

instance (priority := high) parallel_bind_pair {r r' : Reader (α × β)} {f f' : α × β → Reader γ}
    [h : Parallel ρ r r']
    [hf : ∀ (a : Agreeing ρ α) (b : Agreeing ρ β),
      Parallel ρ (f (a.left, b.left)) (f' (a.right, b.right))] :
    Parallel ρ (r >>= f) (r' >>= f') :=
  ⟨fun c c' hc => alike_bind (h.alike c c' hc) fun a a' c1 c1' ha =>
    (hf ⟨a.1, a'.1, ha.1⟩ ⟨a.2, a'.2, ha.2⟩).alike c1 c1'⟩

instance parallel_ite {b : Prop} [Decidable b] {r r' s s' : Reader α} [hr : Parallel ρ r r']
    [hs : Parallel ρ s s'] : Parallel ρ (if b then r else s) (if b then r' else s') := by
  split
  · exact hr
  · exact hs

instance parallel_cond {b b' : Bool} {r r' s s' : Reader α} [hb : Akin ρ b b']
    [hr : Parallel ρ r r'] [hs : Parallel ρ s s'] :
    Parallel ρ (if b then r else s) (if b' then r' else s') := by
  rw [Exact.eq hb.agree]
  exact parallel_ite

theorem parallel_ite_of_iff {b b' : Prop} [Decidable b] [Decidable b'] {r r' s s' : Reader α}
    (h : b ↔ b') (hr : Parallel ρ r r') (hs : Parallel ρ s s') :
    Parallel ρ (if b then r else s) (if b' then r' else s') := by
  by_cases hb : b
  · rw [if_pos hb, if_pos (h.mp hb)]
    exact hr
  · rw [if_neg hb, if_neg fun hb' => hb (h.mpr hb')]
    exact hs

instance parallel_fail {reason reason' : Reason} [h : Akin ρ reason reason'] :
    Parallel ρ (fail reason : Reader α) (fail reason') :=
  ⟨fun _ _ hc => .error (hc.fail h.agree)⟩

end Steps

section Tokens

instance blind_skip : Blind ρ (skip : Reader Unit) :=
  ⟨fun _ _ hc => .ok rfl hc.skip⟩

/-- Whitespace is not renamed. -/
instance blind_trivia (d : Dialect) : Blind ρ (trivia d : Reader (List Trivia)) := by
  refine ⟨fun c c' hc => ?_⟩
  rw [trivia_apply, trivia_apply, ← hc.gap]
  exact .ok (Compared.refl ρ _) hc.skip

/-- The token is found in both runs or in neither, if renamed tokens are the one that is asked for
at the same time. -/
theorem blind_token {kind : TokenKind} {text : Option String}
    (hfound : ∀ {t t' : Token}, t.Renamed ρ t' → t.kind = kind →
      (text.all (· = t.text) ↔ text.all (· = t'.text))) :
    Blind ρ (token kind text : Reader (Option Token)) := by
  refine ⟨fun c c' hc => ?_⟩
  rw [token_apply, token_apply]
  obtain ⟨before, after, line⟩ := c
  obtain ⟨before', after', line'⟩ := c'
  cases hc.after with
  | nil => exact .ok .none hc
  | @cons t t' rest rest' ht hrest =>
    have hiff : t.kind = kind ∧ text.all (· = t.text) ↔
        t'.kind = kind ∧ text.all (· = t'.text) := by
      rw [← ht.kind]
      exact and_congr_right (hfound ht)
    by_cases hread : t.kind = kind ∧ text.all (· = t.text)
    · simp only [Cursor.consume?, if_pos hread, if_pos (hiff.mp hread)]
      exact .ok (.some ht.unescape_text) ⟨.cons ht hc.before, hrest, hc.line⟩
    · simp only [Cursor.consume?, if_neg hread, if_neg fun h => hread (hiff.mpr h)]
      exact .ok .none hc

instance blind_tokenOf (kind : TokenKind) : Blind ρ (token kind none : Reader (Option Token)) :=
  blind_token fun _ _ => Iff.rfl

instance blind_mark (m : String) : Blind ρ (token .other (some m) : Reader (Option Token)) := by
  refine blind_token fun ht hkind => ?_
  obtain rfl := ht.eq_of_kind (by rw [hkind]; decide)
  rfl

/-- Words are asked for without a mark. -/
theorem blind_word {w : String} (hw : Unmarked w) :
    Blind ρ (token .identifier (some w) : Reader (Option Token)) :=
  blind_token fun ht _ => by simpa using ht.text_iff hw

end Tokens

section Choices

variable [Compared α] [Compared β]

instance parallel_expect {p p' : Reader (Option α)} {reason reason' : Reason}
    [Parallel ρ p p'] [Akin ρ reason reason'] :
    Parallel ρ (expect reason p) (expect reason' p') := by
  unfold expect
  infer_instance

/-- Where the production does not match, both runs are back at their starts. -/
instance parallel_attempt {p p' : Reader (Option α)} [hp : Parallel ρ p p'] :
    Parallel ρ (attempt p) (attempt p') := by
  refine ⟨fun c c' hc => ?_⟩
  rw [attempt_apply, attempt_apply]
  refine alike_bind (hp.alike c c' hc) fun o o' c1 c1' ho hc1 => ?_
  cases ho with
  | none => exact .ok .none hc
  | some ha => exact .ok (.some ha) hc1

instance parallel_firstOf_nil : Parallel ρ (firstOf [] : Reader (Option α)) (firstOf []) :=
  parallel_pure

instance parallel_firstOf {p p' : Reader (Option α)} {ps ps' : List (Reader (Option α))}
    [Parallel ρ p p'] [Parallel ρ (firstOf ps) (firstOf ps')] :
    Parallel ρ (firstOf (p :: ps)) (firstOf (p' :: ps')) := by
  rw [firstOf, firstOf]
  infer_instance

theorem blind_firstOf_map {σ : Type} {f : σ → Reader (Option α)} (xs : List σ)
    [hf : ∀ x, Blind ρ (f x)] : Blind ρ (firstOf (xs.map f)) := by
  induction xs with
  | nil => exact parallel_firstOf_nil
  | cons x xs ih => exact parallel_firstOf

instance parallel_mapped {f f' : α → β} {p p' : Reader (Option α)} [Parallel ρ p p']
    [∀ a : Agreeing ρ α, Akin ρ (f a.left) (f' a.right)] :
    Parallel ρ (mapped f p) (mapped f' p') := by
  unfold mapped
  infer_instance

end Choices

section Loops

variable [Compared α] [Compared β]

/-- As many tokens are left in both runs. -/
instance parallel_bounded {p p' : Nat → Reader α} [hp : ∀ n, Parallel ρ (p n) (p' n)] :
    Parallel ρ (bounded p) (bounded p') := by
  refine ⟨fun c c' hc => ?_⟩
  show Alike ρ (p (c.remaining + 1) c) (p' (c'.remaining + 1) c')
  rw [hc.remaining]
  exact (hp _).alike c c' hc

instance parallel_untilWithin {step step' : Reader (α ⊕ β)} [hstep : Parallel ρ step step']
    (n : Nat) : Parallel ρ (untilWithin step n) (untilWithin step' n) := by
  induction n with
  | zero => exact parallel_fail
  | succ n ih =>
    refine ⟨fun c c' hc => alike_bind (hstep.alike c c' hc) fun r r' c1 c1' hr hc1 => ?_⟩
    cases hr with
    | inl ha =>
      exact alike_bind (ih.alike c1 c1' hc1) fun q q' c2 c2' hq hc2 => .ok ⟨.cons ha hq.1, hq.2⟩ hc2
    | inr hb => exact .ok ⟨.nil, hb⟩ hc1

instance parallel_untilDone {step step' : Reader (α ⊕ β)} [Parallel ρ step step'] :
    Parallel ρ (untilDone step) (untilDone step') := by
  unfold untilDone
  infer_instance

instance parallel_many {step step' : Reader (Option α)} [Parallel ρ step step'] :
    Parallel ρ (many step) (many step') := by
  unfold many
  infer_instance

instance blind_iterate {σ : Type} [Compared σ] [Exact σ] {step : σ → Reader (Option σ)} {s : σ}
    [hstep : ∀ s, Blind ρ (step s)] : Blind ρ (iterate step s) := by
  have hrounds (n : Nat) : Blind ρ (iterateWithin step n s) := by
    induction n generalizing s with
    | zero => exact parallel_pure
    | succ n ih =>
      unfold iterateWithin
      infer_instance
  unfold iterate
  infer_instance

end Loops

end Grammar

end WebIdl

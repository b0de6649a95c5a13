import WebIdl.Proofs.Progress.Forward

/-!
# Bounds do not matter

A loop may run as many rounds as there are tokens left, and a type or an attribute may nest as
deep. Every round and every layer reads a token that is not blank, so all bounds beyond the number
of those tokens lead to the same answers and the same errors.
-/

namespace WebIdl.Grammar

open Cursor

variable {α β σ : Type} {start c : Cursor} {k : Nat}

/-- Behind the start, the readers do the same where fewer than `k` tokens are ahead. -/
def Agree (start : Cursor) (k : Nat) (r r' : Reader α) : Prop :=
  ∀ c : Cursor, Reaches start c → c.ahead.length < k → r c = r' c

/-- All bounds that exceed the number of tokens ahead do the same. -/
def Stable (p : Nat → Reader α) : Prop :=
  ∀ start m n k, k ≤ m → k ≤ n → Agree start k (p m) (p n)

theorem agree_refl (r : Reader α) : Agree start k r r :=
  fun _ _ _ => rfl

/-- If a round keeps what the rounds inside it agree on, with one token more ahead, then the bound
on the rounds does not matter. -/
theorem stable_of_rounds {p : σ → Nat → Reader α}
    (hround : ∀ start m n k, (∀ s, Agree start k (p s m) (p s n)) →
      ∀ s, Agree start (k + 1) (p s (m + 1)) (p s (n + 1))) (s : σ) : Stable (p s) := by
  intro start m n k hm hn
  induction k generalizing m n s with
  | zero => exact fun c _ hc => absurd hc (Nat.not_lt_zero _)
  | succ k ih =>
    obtain ⟨m, rfl⟩ := Nat.exists_eq_add_of_le' (Nat.lt_of_lt_of_le (Nat.succ_pos k) hm)
    obtain ⟨n, rfl⟩ := Nat.exists_eq_add_of_le' (Nat.lt_of_lt_of_le (Nat.succ_pos k) hn)
    have hinner := fun s => ih s m n (Nat.le_of_succ_le_succ hm) (Nat.le_of_succ_le_succ hn)
    exact hround start m n k hinner s

theorem stable_of_layers {p : Nat → Reader α}
    (hlayer : ∀ start m n k, Agree start k (p m) (p n) → Agree start (k + 1) (p (m + 1)) (p (n + 1))) :
    Stable p :=
  stable_of_rounds (fun start m n k h _ => hlayer start m n k (h ())) ()

theorem run_bind_congr {r : Reader α} {f g : α → Reader β}
    (h : Answers c r fun a c' => f a c' = g a c') : (r >>= f) c = (r >>= g) c := by
  show (r c >>= fun p => f p.1 p.2) = (r c >>= fun p => g p.1 p.2)
  cases hr : r c with
  | error e => rfl
  | ok p => exact h p.1 p.2 hr

/-- The same continuation behind readers that agree. -/
theorem agree_head {r r' : Reader α} {f : α → Reader β} (hr : Agree start k r r') :
    Agree start k (r >>= f) (r' >>= f) := by
  intro c hstart hc
  show (r c >>= fun p => f p.1 p.2) = (r' c >>= fun p => f p.1 p.2)
  rw [hr c hstart hc]

theorem agree_bind {r r' : Reader α} {f g : α → Reader β} [hforward : Forward r]
    (hr : Agree start k r r') (hf : ∀ a, Agree start k (f a) (g a)) : Agree start k (r >>= f) (r' >>= g) := by
  refine fun c hstart hc => Eq.trans (run_bind_congr ?_) (@agree_head _ _ _ _ _ _ g hr c hstart hc)
  exact (hforward.answers c).mono fun a c1 h1 =>
    hf a c1 (hstart.trans h1.1) (Nat.lt_of_le_of_lt h1.1.length_le hc)

theorem agree_seq {r : Reader α} {f g : α → Reader β} [Forward r]
    (hf : ∀ a, Agree start k (f a) (g a)) : Agree start k (r >>= f) (r >>= g) :=
  agree_bind (agree_refl r) hf

/-- Behind a token that has been read there is one token less ahead. -/
theorem agree_gains {P : α → Prop} {r : Reader α} {f g : α → Reader β} (hr : Gains P r)
    (hyes : ∀ a, P a → Agree start k (f a) (g a)) (hno : ∀ a, ¬P a → Agree start (k + 1) (f a) (g a)) :
    Agree start (k + 1) (r >>= f) (r >>= g) := by
  refine fun c hstart hc => run_bind_congr ((hr.answers c).mono fun a c1 h1 => ?_)
  by_cases ha : P a
  · exact hyes a ha c1 (hstart.trans h1.1) (by have := (h1.2 ha).length_lt; omega)
  · exact hno a ha c1 (hstart.trans h1.1) (Nat.lt_of_le_of_lt h1.1.length_le hc)

theorem agree_expect {p p' : Reader (Option α)} {reason : Reason} (h : Agree start k p p') :
    Agree start k (expect reason p) (expect reason p') :=
  agree_head h

theorem agree_attempt {p p' : Reader (Option α)} (h : Agree start k p p') :
    Agree start k (attempt p) (attempt p') := by
  intro c hstart hc
  rw [attempt_apply, attempt_apply]
  exact agree_head h c hstart hc

theorem agree_firstOf_cons {p p' : Reader (Option α)} {ps ps' : List (Reader (Option α))}
    [Forward p] (hp : Agree start k p p') (hps : Agree start k (firstOf ps) (firstOf ps')) :
    Agree start k (firstOf (p :: ps)) (firstOf (p' :: ps')) := by
  refine agree_bind hp fun o => ?_
  cases o with
  | none => exact hps
  | some a => exact agree_refl _

theorem agree_mapped {f : α → β} {p p' : Reader (Option α)} (h : Agree start k p p') :
    Agree start k (mapped f p) (mapped f p') :=
  agree_head h

theorem agree_bounded {p p' : Nat → Reader α} (h : ∀ n, Agree start k (p n) (p' n)) :
    Agree start k (bounded p) (bounded p') :=
  fun c hstart hc => h _ c hstart hc

theorem agree_untilWithin {step step' : Reader (α ⊕ β)} [Forward step]
    (h : Agree start k step step') (n : Nat) :
    Agree start k (untilWithin step n) (untilWithin step' n) := by
  induction n with
  | zero => exact agree_refl _
  | succ n ih =>
    refine agree_bind h fun r => ?_
    cases r with
    | inl a => exact agree_head ih
    | inr b => exact agree_refl _

theorem agree_many {step step' : Reader (Option α)} [Forward step] (h : Agree start k step step') :
    Agree start k (many step) (many step') := by
  refine agree_head (agree_bounded fun n => ?_)
  have := @forward_round _ step
  exact agree_untilWithin (agree_head h) n

theorem agree_afterCommas {item item' : Reader α} [Forward item] (h : Agree start k item item') :
    Agree start k (afterCommas item) (afterCommas item') := by
  refine agree_many (agree_seq fun comma => ?_)
  cases comma with
  | false => exact agree_refl _
  | true => exact agree_head h

theorem agree_commaSeparated {first first' : Reader (Option α)} {next next' : Reader α}
    [Forward first] [Forward next] (hfirst : Agree start k first first') (hnext : Agree start k next next') :
    Agree start k (commaSeparated first next) (commaSeparated first' next') := by
  refine agree_bind hfirst fun o => ?_
  cases o with
  | none => exact agree_refl _
  | some a => exact agree_head (agree_afterCommas hnext)

theorem agree_namedType {inner inner' : Reader (Option IdlType)} [Productive inner]
    (h : Agree start k inner inner') (name : String) :
    Agree start k (namedType inner name) (namedType inner' name) := by
  refine agree_seq fun generic => ?_
  cases generic with
  | false => exact agree_refl _
  | true => exact agree_head (agree_expect h)

theorem agree_singleType {inner inner' : Reader (Option IdlType)} [Productive inner]
    (h : Agree start k inner inner') : Agree start (k + 1) (singleType inner) (singleType inner') := by
  refine agree_seq fun primitive => ?_
  cases primitive with
  | some p => exact agree_refl _
  | none =>
    refine agree_gains productive_identifier (fun o _ => ?_) fun o ho => ?_
    · cases o with
      | none => exact agree_refl _
      | some name => exact agree_head (agree_namedType h name)
    · cases o with
      | none => exact agree_refl _
      | some name => exact absurd rfl ho

theorem agree_unionType {inner inner' : Reader (Option IdlType)} [Productive inner]
    (h : Agree start k inner inner') : Agree start (k + 1) (unionType inner) (unionType inner') := by
  refine agree_gains (gains_symbol "(") (fun opened hopened => ?_) fun opened hopened => ?_
  · subst hopened
    refine agree_bind (agree_expect h) fun first => agree_head (agree_many ?_)
    refine agree_seq fun more => ?_
    cases more with
    | false => exact agree_refl _
    | true => exact agree_head (agree_expect h)
  · simpa [hopened] using agree_refl _

theorem agree_idlTypeWith {inner inner' : Reader (Option IdlType)} [Productive inner]
    (h : Agree start k inner inner') : Agree start (k + 1) (idlTypeWith inner) (idlTypeWith inner') := by
  refine agree_firstOf_cons (agree_singleType h) ?_
  exact agree_firstOf_cons (agree_unionType h) (agree_refl _)

theorem stable_idlTypeWithin : Stable idlTypeWithin :=
  stable_of_layers fun _ _ _ _ hinner => agree_idlTypeWith hinner

theorem agree_argument {d : Dialect} {attributes attributes' : Reader (List ExtendedAttribute)}
    [Forward attributes] (h : Agree start k attributes attributes') :
    Agree start k (argument d attributes) (argument d attributes') :=
  agree_attempt (agree_seq fun _ => agree_head h)

theorem agree_argumentsWith {argument argument' : Reader (Option Argument)} [Productive argument]
    (h : Agree start k argument argument') : Agree start k (argumentsWith argument) (argumentsWith argument') :=
  agree_commaSeparated h (agree_expect h)

theorem agree_attributeParameters {argument argument' : Reader (Option Argument)}
    [Productive argument] (h : Agree start k argument argument') :
    Agree start k (attributeParameters argument) (attributeParameters argument') := by
  refine agree_seq fun opened => ?_
  cases opened with
  | false => exact agree_refl (pure AttributeParameters.absent)
  | true =>
    refine agree_head (agree_firstOf_cons ?_ (agree_refl _))
    exact agree_mapped (agree_argumentsWith h)

theorem agree_extendedAttribute {argument argument' : Reader (Option Argument)}
    [Productive argument] (h : Agree start k argument argument') :
    Agree start k (extendedAttribute argument) (extendedAttribute argument') := by
  refine agree_seq fun name => ?_
  cases name with
  | none => exact agree_refl _
  | some name => exact agree_seq fun value => agree_head (agree_attributeParameters h)

theorem agree_extendedAttributesWith {argument argument' : Reader (Option Argument)}
    [Productive argument] (h : Agree start k argument argument') :
    Agree start (k + 1) (extendedAttributesWith argument) (extendedAttributesWith argument') := by
  refine agree_gains (gains_symbol "[") (fun opened hopened => ?_) fun opened hopened => ?_
  · subst hopened
    have hattribute := agree_extendedAttribute h
    refine agree_bind (agree_expect hattribute) fun first => ?_
    exact agree_head (agree_afterCommas (agree_expect hattribute))
  · simpa [hopened] using agree_refl _

theorem stable_extendedAttributesWithin (d : Dialect) : Stable (extendedAttributesWithin d) :=
  stable_of_layers fun _ _ _ _ hinner => agree_extendedAttributesWith (agree_argument hinner)

theorem stable_untilWithin {step : Reader (α ⊕ β)} (hstep : Gains (fun r => r.isLeft) step) :
    Stable (untilWithin step) := by
  refine stable_of_layers fun start m n k hrest => agree_gains hstep (fun r _ => ?_) fun r hr => ?_
  · cases r with
    | inl a => exact agree_head hrest
    | inr b => exact agree_refl _
  · cases r with
    | inl a => exact absurd rfl hr
    | inr b => exact agree_refl _

theorem stable_iterateWithin {step : σ → Reader (Option σ)} (hstep : ∀ s, Productive (step s))
    (s : σ) : Stable fun n => iterateWithin step n s := by
  let rounds (s : σ) (n : Nat) := iterateWithin step n s
  refine stable_of_rounds (p := rounds) (fun start m n k hrest s => ?_) s
  refine agree_gains (hstep s) (fun o _ => ?_) fun o ho => ?_
  · cases o with
    | none => exact agree_refl _
    | some t => exact hrest t
  · cases o with
    | none => exact agree_refl _
    | some t => exact absurd rfl ho

theorem gains_round {step : Reader (Option α)} [hstep : Productive step] :
    Gains (fun r => r.isLeft) (step >>= fun o => match o with
      | some a => pure (.inl a)
      | none => pure (.inr ()) : Reader (α ⊕ Unit)) := by
  refine gains_bind hstep (fun o _ => ?_) fun o ho => ?_
  · cases o with
    | none => exact forward_pure _
    | some a => exact forward_pure _
  · cases o with
    | none => exact gains_pure (by simp)
    | some a => exact absurd rfl ho

/-- One round of a body. -/
def bodyRound (d : Dialect) (entry : List Trivia → Reader α) : Reader (α ⊕ List Trivia) := do
  let leading ← trivia d
  if ← symbol "\x7d" then
    return .inr leading
  else
    return .inl (← entry leading)

theorem gains_bodyRound {d : Dialect} {entry : List Trivia → Reader α}
    [hentry : ∀ leading, Consuming (entry leading)] :
    Gains (fun r => r.isLeft) (bodyRound d entry) := by
  refine gains_bind (forward_trivia d) (fun _ => False.elim) fun leading _ => ?_
  refine gains_bind (forward_symbol _) (fun _ => False.elim) fun closed _ => ?_
  cases closed with
  | true => exact gains_pure (by simp)
  | false => exact gains_bind (hentry leading) (fun _ _ => forward_pure _) fun _ h => absurd trivial h

/-- A bounded reader is the one under any bound that exceeds the number of tokens ahead. -/
theorem bounded_eq {p : Nat → Reader α} (hp : Stable p) {n : Nat} (hn : c.ahead.length < n) :
    bounded p c = p n c := by
  have hremaining : c.ahead.length < c.remaining + 1 :=
    Nat.lt_succ_of_le (List.length_filter_le ..)
  exact hp c _ _ (c.ahead.length + 1) hremaining hn c (reaches_refl c) (Nat.lt_succ_self _)

/-- Two bounded readers have a bound in common. -/
theorem exists_common_bound {p : Nat → Reader α} {p' : Nat → Reader β} (hp : Stable p)
    (hp' : Stable p') (c c' : Cursor) : ∃ n, bounded p c = p n c ∧ bounded p' c' = p' n c' :=
  ⟨max c.ahead.length c'.ahead.length + 1, bounded_eq hp (by omega), bounded_eq hp' (by omega)⟩

/-- A loop is one round of it, and the loop again behind a round that goes on. -/
theorem untilDone_eq {step : Reader (α ⊕ β)} (hstep : Gains (fun r => r.isLeft) step) :
    untilDone step = step >>= fun r => match r with
      | .inl a => untilDone step >>= fun rest => pure (a :: rest.1, rest.2)
      | .inr b => pure ([], b) := by
  have hstable := stable_untilWithin hstep
  funext c
  rw [untilDone, bounded_eq hstable (Nat.lt_succ_self c.ahead.length)]
  refine run_bind_congr ((hstep.answers c).mono fun r c1 h1 => ?_)
  cases r with
  | inr b => rfl
  | inl a =>
    show (untilWithin step c.ahead.length c1 >>= fun p => pure _) =
      (untilDone step c1 >>= fun p => pure _)
    rw [untilDone, bounded_eq hstable (h1.2 rfl).length_lt]

end WebIdl.Grammar

import WebIdl.Proofs.Renaming.Productions
import WebIdl.Proofs.Synonyms.InStep

/-!
# Two runs over lists in step

A reader follows another one if it answers the same wherever that one answers at all; of runs that
fail nothing is said. Over lists in step a reader of a statement is followed by itself. It either
stays in front of the stop, or it takes the stop as its last token; and a production that may not
match takes the stop where it does and stays in front of it where it does not.

Nothing is known of the lists behind the stop but that they are related. Where they never are, two
runs that have taken the stop cannot have been in step: so a reader that takes the stop fails in
front of a wall.
-/

namespace WebIdl.Grammar

open Token Cursor

variable {α β γ σ : Type} {pre : Cursor → Cursor → Prop} {c c' : Cursor}

theorem run_bind_of_ok {r : Reader α} {g : α → Reader β} {a : α} (h : r c = .ok (a, c')) :
    (r >>= g) c = g a c' := by
  show (r c >>= fun p => g p.1 p.2) = _
  rw [h]
  rfl

/-- What the first reader answers, the second one answers too. -/
def Follows (pre : Cursor → Cursor → Prop) (post : α → Cursor → Cursor → Prop)
    (r r' : Reader α) : Prop :=
  ∀ c c', pre c c' → Answers c r fun a c1 => ∃ c1', r' c' = .ok (a, c1') ∧ post a c1 c1'

section Follows

variable {post post' : α → Cursor → Cursor → Prop} {r r' : Reader α}

theorem Follows.mono (h : Follows pre post r r') (hpost : ∀ a c c', post a c c' → post' a c c') :
    Follows pre post' r r' := by
  intro c c' hc a c1 hrun
  obtain ⟨c1', hrun', h1⟩ := h c c' hc a c1 hrun
  exact ⟨c1', hrun', hpost a c1 c1' h1⟩

theorem follows_pure {a : α} (h : ∀ c c', pre c c' → post a c c') :
    Follows pre post (pure a) (pure a) :=
  fun c c' hc => answers_pure ⟨c', rfl, h c c' hc⟩

theorem follows_fail {reason : Reason} : Follows pre post (fail reason) r' :=
  fun _ _ _ => answers_fail

theorem follows_bind {post : β → Cursor → Cursor → Prop} {R : α → Cursor → Cursor → Prop}
    {f f' : α → Reader β} (hr : Follows pre R r r') (hf : ∀ a, Follows (R a) post (f a) (f' a)) :
    Follows pre post (r >>= f) (r' >>= f') := by
  intro c c' hc
  apply answers_bind
  intro a c1 hrun b c2 hrest
  obtain ⟨c1', hrun', h1⟩ := hr c c' hc a c1 hrun
  obtain ⟨c2', hrest', h2⟩ := hf a c1 c1' h1 b c2 hrest
  exact ⟨c2', (run_bind_of_ok hrun').trans hrest', h2⟩

theorem follows_skip (h : ∀ c c', pre c c' → pre c.skip c'.skip) :
    Follows pre (fun _ => pre) skip skip :=
  fun c c' hc => answers_skip ⟨c'.skip, rfl, h c c' hc⟩

/-- Both readers find the same token. -/
theorem follows_token {kind : TokenKind} {text : Option String}
    {post : Option Token → Cursor → Cursor → Prop}
    (hhead : ∀ c c', pre c c' → c.after.head? = c'.after.head?)
    (hsome : ∀ c c' t rest rest', pre c c' → c.after = t :: rest → c'.after = t :: rest' →
      t.kind = kind → text.all (· = t.text) →
        post (some t.unescape) (c.next t rest) (c'.next t rest'))
    (hnone : ∀ c c', pre c c' → post none c c') :
    Follows pre post (token kind text) (token kind text) := by
  intro c c' hc
  have hrun := hhead c c' hc
  cases hafter : c.after with
  | nil =>
    have hafter' : c'.after = [] := by simpa [hafter] using hrun.symm
    rintro a c1 h
    rw [token_of_nil hafter] at h
    cases h
    exact ⟨c', token_of_nil hafter', hnone c c' hc⟩
  | cons t rest =>
    obtain ⟨rest', hafter'⟩ : ∃ rest', c'.after = t :: rest' := by
      rw [hafter] at hrun
      exact List.head?_eq_some_iff.mp hrun.symm
    rintro a c1 h
    rw [token_of_cons hafter] at h
    rw [token_of_cons hafter']
    split at h
    · next ht =>
      cases h
      exact ⟨_, if_pos ht, hsome c c' t rest rest' hc hafter hafter' ht.1 ht.2⟩
    · next ht =>
      cases h
      exact ⟨_, if_neg ht, hnone c c' hc⟩

/-- The cursors are related whether or not the production matches. -/
theorem follows_option {p p' : Reader (Option α)} {R : Cursor → Cursor → Prop} :
    Follows pre (fun o => o.elim R fun _ => R) p p' ↔ Follows pre (fun _ => R) p p' := by
  constructor
  · intro h
    apply h.mono
    intro o c c' hc
    cases o with
    | none => exact hc
    | some a => exact hc
  · intro h
    apply h.mono
    intro o c c' hc
    cases o with
    | none => exact hc
    | some a => exact hc

theorem follows_attempt {p p' : Reader (Option α)} {B R : Cursor → Cursor → Prop}
    (h : Follows pre (fun o => o.elim B fun _ => R) p p') :
    Follows pre (fun o => o.elim pre fun _ => R) (attempt p) (attempt p') := by
  intro c c' hc
  have hattempt : Follows pre (fun o => o.elim pre fun _ => R)
      (p >>= rewind c) (p' >>= rewind c') := by
    apply follows_bind h
    intro o
    cases o with
    | some a => exact follows_pure fun _ _ h => h
    | none =>
      rintro _ _ _ _ _ ⟨⟩
      exact ⟨c', rfl, hc⟩
  exact hattempt c c' hc

/-- What holds in front of the first production holds in front of each that is tried. -/
theorem follows_firstOf {R : Cursor → Cursor → Prop} {ps : List (Reader (Option α))}
    (h : ∀ p ∈ ps, Follows pre (fun o => o.elim pre fun _ => R) p p) :
    Follows pre (fun o => o.elim pre fun _ => R) (firstOf ps) (firstOf ps) := by
  induction ps with
  | nil => exact follows_pure fun _ _ h => h
  | cons p ps ih =>
    apply follows_bind (h p List.mem_cons_self)
    intro o
    cases o with
    | none => exact ih fun q hq => h q (List.mem_cons_of_mem p hq)
    | some a => exact follows_pure fun _ _ h => h

/-- Both runs may use the same bound, since larger ones change nothing. -/
theorem follows_bounded {p p' : Nat → Reader α} (hp : Stable p) (hp' : Stable p')
    (h : ∀ n, Follows pre post (p n) (p' n)) : Follows pre post (bounded p) (bounded p') := by
  intro c c' hc
  obtain ⟨n, hrun, hrun'⟩ := exists_common_bound hp hp' c c'
  rw [Answers, hrun, hrun']
  exact h n c c' hc

end Follows

variable {S : List Token → List Token → Prop} {f : Nat → Option Nat}

/-- The reader is followed by itself, and leads from `n` open brackets to `f n` of them. -/
class Moves (S : List Token → List Token → Prop) (f : Nat → Option Nat) (r : Reader α) : Prop where
  follows : ∀ n, Follows (Cursor.InStep S (some n)) (fun _ => Cursor.InStep S (f n)) r r

/-- The reader stays in front of the stop, and opens as many brackets as it closes. -/
abbrev Keeps (S : List Token → List Token → Prop) (r : Reader α) : Prop :=
  Moves S some r

/-- The reader closes a bracket that was opened in front of it. -/
abbrev Shuts (S : List Token → List Token → Prop) (r : Reader α) : Prop :=
  Moves S Nat.ppred r

/-- The reader ends with a `;`. -/
abbrev Closes (S : List Token → List Token → Prop) (r : Reader α) : Prop :=
  Moves S (fun _ => none) r

/-- The production ends with a `;` where it matches, and else stays in front of the stop. -/
class Tries (S : List Token → List Token → Prop) (p : Reader (Option α)) : Prop where
  follows : ∀ n, Follows (Cursor.InStep S (some n))
    (fun o => o.elim (Cursor.InStep S (some n)) fun _ => Cursor.InStep S none) p p

/-- The reader only answers. -/
class Still (r : Reader α) : Prop where
  eq_pure : ∃ a, r = pure a

/-- The production only answers, and it has found something. -/
class Found (p : Reader (Option α)) : Prop where
  eq_pure : ∃ a, p = pure (some a)

section Steps

instance still_pure (a : α) : Still (pure a : Reader α) :=
  ⟨a, rfl⟩

instance found_pure (a : α) : Found (pure (some a) : Reader (Option α)) :=
  ⟨a, rfl⟩

instance keeps_pure (a : α) : Keeps S (pure a : Reader α) :=
  ⟨fun _ => follows_pure fun _ _ h => h⟩

instance moves_fail (reason : Reason) : Moves S f (fail reason : Reader α) :=
  ⟨fun _ => follows_fail⟩

instance moves_bind {r : Reader α} {g : α → Reader β} [hr : Keeps S r] [hg : ∀ a, Moves S f (g a)] :
    Moves S f (r >>= g) :=
  ⟨fun n => follows_bind (hr.follows n) fun a => (hg a).follows n⟩

instance (priority := high) moves_bind_option {p : Reader (Option α)} {g : Option α → Reader β}
    [hp : Keeps S p] [hsome : ∀ a, Moves S f (g (some a))] [hnone : Moves S f (g none)] :
    Moves S f (p >>= g) := by
  constructor
  intro n
  apply follows_bind (hp.follows n)
  intro o
  cases o with
  | none => exact hnone.follows n
  | some a => exact (hsome a).follows n

/-- Nothing is read behind the stop. -/
instance (priority := low) moves_bind_still {r : Reader α} {g : α → Reader β} [hr : Moves S f r]
    [hg : ∀ a, Still (g a)] : Moves S f (r >>= g) := by
  constructor
  intro n
  apply follows_bind (hr.follows n)
  intro a
  obtain ⟨b, hb⟩ := (hg a).eq_pure
  rw [hb]
  exact follows_pure fun _ _ h => h

instance (priority := low) moves_bind_still_pair {r : Reader (α × β)} {g : α × β → Reader γ}
    [Moves S f r] [hg : ∀ a b, Still (g (a, b))] : Moves S f (r >>= g) := by
  have hstill (p : α × β) : Still (g p) := hg p.1 p.2
  infer_instance

instance moves_ite {b : Prop} [Decidable b] {r s : Reader α} [hr : Moves S f r]
    [hs : Moves S f s] : Moves S f (if b then r else s) := by
  split
  · exact hr
  · exact hs

instance tries_none : Tries S (pure none : Reader (Option α)) :=
  ⟨fun _ => follows_pure fun _ _ h => h⟩

instance tries_fail (reason : Reason) : Tries S (fail reason : Reader (Option α)) :=
  ⟨fun _ => follows_fail⟩

instance tries_bind {r : Reader α} {g : α → Reader (Option β)} [hr : Keeps S r]
    [hg : ∀ a, Tries S (g a)] : Tries S (r >>= g) :=
  ⟨fun n => follows_bind (hr.follows n) fun a => (hg a).follows n⟩

instance (priority := high) tries_bind_option {p : Reader (Option α)}
    {g : Option α → Reader (Option β)} [hp : Keeps S p] [hsome : ∀ a, Tries S (g (some a))]
    [hnone : Tries S (g none)] : Tries S (p >>= g) := by
  constructor
  intro n
  apply follows_bind (hp.follows n)
  intro o
  cases o with
  | none => exact hnone.follows n
  | some a => exact (hsome a).follows n

/-- What ends with a `;` has been matched. -/
instance (priority := low) tries_bind_found {r : Reader α} {g : α → Reader (Option β)}
    [hr : Closes S r] [hg : ∀ a, Found (g a)] : Tries S (r >>= g) := by
  constructor
  intro n
  apply follows_bind (hr.follows n)
  intro a
  obtain ⟨b, hb⟩ := (hg a).eq_pure
  rw [hb]
  exact follows_pure fun _ _ h => h

instance (priority := low) tries_bind_found_pair {r : Reader (α × β)}
    {g : α × β → Reader (Option γ)} [Closes S r] [hg : ∀ a b, Found (g (a, b))] :
    Tries S (r >>= g) := by
  have hfound (p : α × β) : Found (g p) := hg p.1 p.2
  infer_instance

instance tries_ite {b : Prop} [Decidable b] {p q : Reader (Option α)} [hp : Tries S p]
    [hq : Tries S q] : Tries S (if b then p else q) := by
  split
  · exact hp
  · exact hq

end Steps

section Tokens

instance keeps_skip : Keeps S (skip : Reader Unit) :=
  ⟨fun _ => follows_skip fun _ _ h => h.skip⟩

/-- The blanks in front of the stop are the same. -/
instance keeps_trivia (d : Dialect) : Keeps S (trivia d : Reader (List Trivia)) := by
  constructor
  intro n c c' hc
  rw [Answers, trivia_apply, trivia_apply, hc.gap]
  exact answers_pure ⟨c'.skip, rfl, hc.skip⟩

theorem keeps_token {kind : TokenKind} {text : Option String} (hother : kind ≠ .other)
    (hstring : kind ≠ .string) : Keeps S (token kind text : Reader (Option Token)) := by
  constructor
  intro n
  apply follows_token
  · exact fun c c' hc => hc.head?
  · intro c c' t rest rest' hc hafter hafter' ht _
    exact hc.next_of_kind hafter hafter' (ht ▸ hother) (ht ▸ hstring)
  · exact fun c c' hc => hc

/-- The mark `m` has been read in both runs. -/
inductive Read (S : List Token → List Token → Prop) (n : Nat) (m : String) :
    Cursor → Cursor → Prop
  | mk {c c' : Cursor} {rest rest' : List Token} (h : c.InStep S (some n) c')
    (hafter : c.after = mark m :: rest) (hafter' : c'.after = mark m :: rest') :
    Read S n m (c.next (mark m) rest) (c'.next (mark m) rest')

theorem Read.inStep {n : Nat} {m : String} (h : Read S n m c c') (hm : m ≠ ":") :
    c.InStep S ((mark m).depth n) c' := by
  obtain ⟨h, hafter, hafter'⟩ := h
  exact h.next_mark hafter hafter' hm

theorem follows_mark (m : String) (n : Nat) :
    Follows (Cursor.InStep S (some n)) (fun o => o.elim (Cursor.InStep S (some n)) fun _ => Read S n m)
      (token .other (some m)) (token .other (some m)) := by
  apply follows_token
  · exact fun c c' hc => hc.head?
  · intro c c' t rest rest' hc hafter hafter' ht htext
    obtain rfl : t = mark m := eq_of_asked ht htext
    exact .mk hc hafter hafter'
  · exact fun c c' hc => hc

theorem follows_symbol (m : String) (n : Nat) :
    Follows (Cursor.InStep S (some n)) (fun b => cond b (Read S n m) (Cursor.InStep S (some n)))
      (symbol m) (symbol m) := by
  apply follows_bind (keeps_skip.follows n)
  intro
  apply follows_bind (follows_mark m n)
  intro o
  cases o with
  | none => exact follows_pure fun _ _ h => h
  | some t => exact follows_pure fun _ _ h => h

/-- A choice that is made by a mark. -/
theorem follows_ifSymbol {m : String} (hm : m ≠ ":") {n : Nat} {post : α → Cursor → Cursor → Prop}
    {r s : Reader α} (hr : Follows (Cursor.InStep S ((mark m).depth n)) post r r)
    (hs : Follows (Cursor.InStep S (some n)) post s s) :
    Follows (Cursor.InStep S (some n)) post (symbol m >>= fun found => if found then r else s)
      (symbol m >>= fun found => if found then r else s) := by
  apply follows_bind (follows_symbol m n)
  intro found
  cases found with
  | false => exact hs
  | true => exact fun c c' hc => hr c c' (hc.inStep hm)

/-- The marks that may stand anywhere inside a statement. -/
abbrev innerMarks : List String :=
  ["(", ")", "<", ">", "\x7b", "\x7d", ",", "=", "?", "-", "."]

theorem depth_mark_of_mem {m : String} (hm : m ∈ innerMarks) (n : Nat) :
    (mark m).depth n = some n := by
  have hne : m ≠ ";" ∧ m ≠ "[" ∧ m ≠ "]" :=
    (show ∀ m ∈ innerMarks, m ≠ ";" ∧ m ≠ "[" ∧ m ≠ "]" by decide) m hm
  simp [depth, mark, hne]

theorem ne_colon_of_mem {m : String} (hm : m ∈ innerMarks) : m ≠ ":" :=
  (show ∀ m ∈ innerMarks, m ≠ ":" by decide) m hm

instance keeps_mark (m : String) [hm : Among m innerMarks] :
    Keeps S (token .other (some m) : Reader (Option Token)) := by
  constructor
  intro n
  apply (follows_mark m n).mono
  intro o c c' h
  cases o with
  | none => exact h
  | some t => exact depth_mark_of_mem hm.mem n ▸ h.inStep (ne_colon_of_mem hm.mem)

instance keeps_symbol (m : String) [hm : Among m innerMarks] : Keeps S (symbol m : Reader Bool) := by
  unfold symbol
  infer_instance

instance keeps_keyword (w : String) : Keeps S (keyword w : Reader Bool) := by
  have := @keeps_token S .identifier (some w) (by decide) (by decide)
  unfold keyword
  infer_instance

instance keeps_identifier : Keeps S (identifier : Reader (Option String)) := by
  have := @keeps_token S .identifier none (by decide) (by decide)
  unfold identifier
  infer_instance

/-- Behind an opening bracket it is closed again. -/
instance keeps_bracket {r s : Reader α} [hr : Shuts S r] [hs : Keeps S s] :
    Keeps S (symbol "[" >>= fun opened => if opened then r else s) :=
  ⟨fun n => follows_ifSymbol (by decide) (hr.follows (n + 1)) (hs.follows n)⟩

/-- Behind a `;` nothing is read. -/
instance closes_semicolon {r s : Reader α} [hr : Still r] [hs : Closes S s] :
    Closes S (symbol ";" >>= fun closed => if closed then r else s) := by
  obtain ⟨a, rfl⟩ := hr.eq_pure
  exact ⟨fun n => follows_ifSymbol (by decide) (follows_pure fun _ _ h => h) (hs.follows n)⟩

instance tries_semicolon {p q : Reader (Option α)} [hp : Found p] [hq : Tries S q] :
    Tries S (symbol ";" >>= fun closed => if closed then p else q) := by
  obtain ⟨a, rfl⟩ := hp.eq_pure
  exact ⟨fun n => follows_ifSymbol (by decide) (follows_pure fun _ _ h => h) (hq.follows n)⟩

instance keeps_expectSymbol (m : String) [Among m innerMarks] (reason : Reason) :
    Keeps S (expectSymbol m reason : Reader Unit) := by
  unfold expectSymbol
  infer_instance

instance closes_expectSymbol (reason : Reason) :
    Closes S (expectSymbol ";" reason : Reader Unit) := by
  unfold expectSymbol
  infer_instance

instance shuts_expectSymbol (reason : Reason) :
    Shuts S (expectSymbol "]" reason : Reader Unit) :=
  ⟨fun _ => follows_ifSymbol (by decide) (follows_pure fun _ _ h => h) follows_fail⟩

end Tokens

section Choices

instance keeps_expect {p : Reader (Option α)} {reason : Reason} [Keeps S p] :
    Keeps S (expect reason p) := by
  unfold expect
  infer_instance

/-- The production matches, so it has come to its `;`. -/
instance closes_bind_tries {p : Reader (Option α)} {g : Option α → Reader β} [hp : Tries S p]
    [hsome : ∀ a, Still (g (some a))] [hnone : Closes S (g none)] : Closes S (p >>= g) := by
  constructor
  intro n
  apply follows_bind (hp.follows n)
  intro o
  cases o with
  | none => exact hnone.follows n
  | some a =>
    obtain ⟨b, hb⟩ := (hsome a).eq_pure
    rw [hb]
    exact follows_pure fun _ _ h => h

instance closes_expect {p : Reader (Option α)} {reason : Reason} [Tries S p] :
    Closes S (expect reason p) := by
  unfold expect
  infer_instance

instance keeps_expectIdentifier (reason : Reason) :
    Keeps S (expectIdentifier reason : Reader String) :=
  keeps_expect

/-- Where the production does not match, both runs are back where they started. -/
instance keeps_attempt {p : Reader (Option α)} [hp : Keeps S p] : Keeps S (attempt p) :=
  ⟨fun n => follows_option.mp (follows_attempt (follows_option.mpr (hp.follows n)))⟩

instance tries_attempt {p : Reader (Option α)} [hp : Tries S p] : Tries S (attempt p) :=
  ⟨fun n => follows_attempt (hp.follows n)⟩

instance keeps_firstOf_nil : Keeps S (firstOf [] : Reader (Option α)) :=
  keeps_pure none

instance keeps_firstOf {p : Reader (Option α)} {ps : List (Reader (Option α))} [Keeps S p]
    [Keeps S (firstOf ps)] : Keeps S (firstOf (p :: ps)) := by
  rw [firstOf]
  infer_instance

theorem keeps_firstOf_map {g : σ → Reader (Option α)} (xs : List σ) [hg : ∀ x, Keeps S (g x)] :
    Keeps S (firstOf (xs.map g)) := by
  induction xs with
  | nil => exact keeps_firstOf_nil
  | cons x xs ih => exact keeps_firstOf

instance tries_firstOf_nil : Tries S (firstOf [] : Reader (Option α)) :=
  tries_none

instance tries_firstOf {p : Reader (Option α)} {ps : List (Reader (Option α))} [hp : Tries S p]
    [hps : Tries S (firstOf ps)] : Tries S (firstOf (p :: ps)) := by
  constructor
  intro n
  apply follows_bind (hp.follows n)
  intro o
  cases o with
  | none => exact hps.follows n
  | some a => exact follows_pure fun _ _ h => h

instance keeps_mapped {g : α → β} {p : Reader (Option α)} [Keeps S p] : Keeps S (mapped g p) := by
  unfold mapped
  infer_instance

instance tries_mapped {g : α → β} {p : Reader (Option α)} [hp : Tries S p] :
    Tries S (mapped g p) := by
  constructor
  intro n
  apply follows_bind (hp.follows n)
  intro o
  cases o with
  | none => exact follows_pure fun _ _ h => h
  | some a => exact follows_pure fun _ _ h => h

end Choices

section Loops

theorem moves_bounded {p : Nat → Reader α} (hp : Stable p) [h : ∀ n, Moves S f (p n)] :
    Moves S f (bounded p) :=
  ⟨fun n => follows_bounded hp hp fun k => (h k).follows n⟩

instance keeps_iterate {step : σ → Reader (Option σ)} [∀ s, Productive (step s)]
    [∀ s, Keeps S (step s)] (s : σ) : Keeps S (iterate step s) := by
  have hrounds (n : Nat) : Keeps S (iterateWithin step n s) := by
    induction n generalizing s with
    | zero => exact keeps_pure s
    | succ n ih =>
      unfold iterateWithin
      infer_instance
  exact moves_bounded (stable_iterateWithin inferInstance s)

instance keeps_untilWithin {step : Reader (α ⊕ β)} [hstep : Keeps S step] (n : Nat) :
    Keeps S (untilWithin step n) := by
  induction n with
  | zero => exact moves_fail _
  | succ n ih =>
    constructor
    intro k
    apply follows_bind (hstep.follows k)
    intro r
    cases r with
    | inl a => exact follows_bind (ih.follows k) fun q => follows_pure fun _ _ h => h
    | inr b => exact follows_pure fun _ _ h => h

instance keeps_many {step : Reader (Option α)} [Productive step] [Keeps S step] :
    Keeps S (many step) := by
  have := @moves_bounded _ S some _ (stable_untilWithin (@gains_round _ step _)) _
  unfold many untilDone
  infer_instance

instance keeps_afterCommas {item : Reader α} [Forward item] [Keeps S item] :
    Keeps S (afterCommas item) := by
  unfold afterCommas
  infer_instance

instance keeps_commaSeparated {first : Reader (Option α)} {next : Reader α} [Forward next]
    [Keeps S first] [Keeps S next] : Keeps S (commaSeparated first next) := by
  unfold commaSeparated
  infer_instance

end Loops

end WebIdl.Grammar

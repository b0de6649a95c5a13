import WebIdl.Proofs.Erasure
import WebIdl.Proofs.Progress.Bounds
import WebIdl.Proofs.Reading.Readers

/-!
# Two runs side by side

A pairing relates the cursors of two runs so that both find the same tokens, whatever blanks lie
between them. Readers are twins under it if the second run answers what the first one answers, less
its trivia, and the cursors behind the answers are paired again. The second run keeps no trivia.

Some pairings tell only of runs that succeed, and only as long as a `;` is ahead: behind the last
one the second run may find tokens where the first has come to its end.
-/

namespace WebIdl

open Token

/-- The dialect without its trivia. -/
def Dialect.plain (d : Dialect) : Dialect :=
  { d with keepTrivia := false }

namespace Cursor

/-- The cursor behind the next token. -/
def next (c : Cursor) (t : Token) (rest : List Token) : Cursor :=
  ⟨t :: c.before, rest, c.line⟩

/-- Neither a bracket nor a string comes next. -/
def Refused (c : Cursor) : Prop :=
  ∀ t ∈ c.ahead.head?, t ≠ mark "[" ∧ t.kind ≠ .string

end Cursor

open Cursor

/-- How the cursors of two runs belong together. -/
structure Pairing where
  rel : Cursor → Cursor → Prop
  /-- Behind a `;`. -/
  past : Cursor → Cursor → Prop
  /-- Whether the second run fails where the first one does. -/
  strict : Prop
  err : ParseError → ParseError → Prop
  skip {c c' : Cursor} : rel c c' → rel c.skip c'.skip
  head {c c' : Cursor} : rel c c' → c.skip.after.head? = c'.skip.after.head?
  next {c c' : Cursor} {t : Token} {rest rest' : List Token} : rel c c' → c.after = t :: rest →
    c'.after = t :: rest' → t.isWhitespace = false → t ≠ mark ";" →
      rel (c.next t rest) (c'.next t rest')
  semicolon {c c' : Cursor} {rest rest' : List Token} : rel c c' → c.after = mark ";" :: rest →
    c'.after = mark ";" :: rest' → past (c.next (mark ";") rest) (c'.next (mark ";") rest')
  forget {c c' : Cursor} : rel c c' → past c c'
  /-- Without another `;` the first run does not come to a good end. -/
  revive {c c' : Cursor} : past c c' → rel c c' ∨ ¬strict ∧ mark ";" ∉ c.ahead
  fail {c c' : Cursor} : rel c c' → ∀ reason, err (c.fail reason) (c'.fail reason)
  /-- Two dots stand together in both runs or in neither. -/
  dots {c c' : Cursor} {rest rest' : List Token} : rel c c' → c.after = mark "." :: rest →
    c'.after = mark "." :: rest' →
      (rest.head? = some (mark ".") ↔ rest'.head? = some (mark "."))
  /-- The step back behind a minus leads to paired cursors, or to where nothing can be read. -/
  minus {c c' : Cursor} {rest rest' : List Token} : rel c c' → c.after = mark "-" :: rest →
    c'.after = mark "-" :: rest' →
      rel (c.next (mark "-") rest).skip.unconsume (c'.next (mark "-") rest').skip.unconsume ∨
        Refused (c.next (mark "-") rest).skip.unconsume ∧
          Refused (c'.next (mark "-") rest').skip.unconsume ∧
          ∀ u u', Refused u → Refused u' → ∀ reason, err (u.fail reason) (u'.fail reason)

namespace Pairing

/-- Nothing that a default may be comes next in either run. -/
structure Refusing (K : Pairing) (c c' : Cursor) : Prop where
  left : Refused c
  right : Refused c'
  fail : ∀ u u', Refused u → Refused u' → ∀ reason, K.err (u.fail reason) (u'.fail reason)

/-- Behind a minus that stands before something else. -/
def Stuck (K : Pairing) (c c' : Cursor) : Prop :=
  K.rel c c' ∨ K.Refusing c c'

/-- Paired cursors in front of the same token, or at the end. -/
structure Settled (K : Pairing) (c c' : Cursor) : Prop where
  rel : K.rel c c'
  left : Cursor.Settled c
  right : Cursor.Settled c'

theorem Settled.head? {K : Pairing} {c c' : Cursor} (h : K.Settled c c') :
    c.after.head? = c'.after.head? := by
  have hskip {c : Cursor} (hc : Cursor.Settled c) : c.skip.after = c.after := hc
  rw [← hskip h.left, ← hskip h.right]
  exact K.head h.rel

end Pairing

namespace Grammar

variable {α β γ δ : Type} {K : Pairing} {c c' : Cursor}

/-- The second outcome is that of the first one. -/
structure Outcomes (K : Pairing) (post : α → Cursor → Cursor → Prop) (e : α → β)
    (x : Except ParseError (α × Cursor)) (x' : Except ParseError (β × Cursor)) : Prop where
  ok : ∀ a c, x = .ok (a, c) → ∃ c', x' = .ok (e a, c') ∧ post a c c'
  error : K.strict → ∀ y, x = .error y → ∃ y', x' = .error y' ∧ K.err y y'

/-- From cursors of which `pre` holds, both readers come to the same end. -/
def Twins (K : Pairing) (pre : Cursor → Cursor → Prop) (post : α → Cursor → Cursor → Prop)
    (e : α → β) (r : Reader α) (r' : Reader β) : Prop :=
  ∀ c c', pre c c' → Outcomes K post e (r c) (r' c')

/-- The readers lead from paired cursors to paired cursors. -/
abbrev Steady (K : Pairing) (e : α → β) (r : Reader α) (r' : Reader β) : Prop :=
  Twins K K.rel (fun _ => K.rel) e r r'

/-- The readers end with a `;`. -/
abbrev Sealed (K : Pairing) (e : α → β) (r : Reader α) (r' : Reader β) : Prop :=
  Twins K K.rel (fun _ => K.past) e r r'

/-- The productions match alike, and `post` holds of the cursors behind what they have matched. -/
abbrev Offer (K : Pairing) (post : Cursor → Cursor → Prop) (e : α → β) (p : Reader (Option α))
    (p' : Reader (Option β)) : Prop :=
  Twins K K.rel (fun o => o.elim K.rel fun _ => post) (Option.map e) p p'

variable {pre pre' mid : Cursor → Cursor → Prop} {post post' : α → Cursor → Cursor → Prop}
  {e : α → β}

theorem Twins.mono {r : Reader α} {r' : Reader β} (h : Twins K pre post e r r')
    (hpre : ∀ c c', pre' c c' → pre c c') (hpost : ∀ a c c', post a c c' → post' a c c') :
    Twins K pre' post' e r r' := by
  refine fun c c' hc => ⟨fun a c1 ha => ?_, (h c c' (hpre c c' hc)).error⟩
  obtain ⟨c1', ha', h1⟩ := (h c c' (hpre c c' hc)).ok a c1 ha
  exact ⟨c1', ha', hpost a c1 c1' h1⟩

theorem twins_pure {a : α} {b : β} (hb : b = e a) (h : ∀ c c', pre c c' → post a c c') :
    Twins K pre post e (pure a) (pure b) := by
  refine fun c c' hc => ⟨?_, ?_⟩
  · rintro _ _ ⟨⟩
    exact ⟨c', by rw [hb]; rfl, h c c' hc⟩
  · rintro - _ ⟨⟩

theorem steady_pure {a : α} {b : β} (hb : b = e a) : Steady K e (pure a) (pure b) :=
  twins_pure hb fun _ _ h => h

theorem twins_fail {reason : Reason} : Twins K K.rel post e (fail reason) (fail reason) := by
  refine fun c c' hc => ⟨?_, ?_⟩
  · rintro _ _ ⟨⟩
  · rintro - _ ⟨⟩
    exact ⟨_, rfl, K.fail hc reason⟩

theorem twins_fail_of_stuck {reason : Reason} :
    Twins K K.Stuck post e (fail reason) (fail reason) := by
  refine fun c c' hc => ⟨?_, ?_⟩
  · rintro _ _ ⟨⟩
  · rintro - _ ⟨⟩
    refine ⟨_, rfl, ?_⟩
    rcases hc with hc | hc
    · exact K.fail hc reason
    · exact hc.fail c c' hc.left hc.right reason

theorem twins_bind {mid : α → Cursor → Cursor → Prop} {post : γ → Cursor → Cursor → Prop}
    {e' : γ → δ} {r : Reader α} {r' : Reader β} {f : α → Reader γ} {f' : β → Reader δ}
    (hr : Twins K pre mid e r r') (hf : ∀ a, Twins K (mid a) post e' (f a) (f' (e a))) :
    Twins K pre post e' (r >>= f) (r' >>= f') := by
  intro c c' hc
  show Outcomes K post e' (r c >>= fun p => f p.1 p.2) (r' c' >>= fun p => f' p.1 p.2)
  have hfirst := hr c c' hc
  cases hrun : r c with
  | error y =>
    refine ⟨fun b c2 hb => (by cases hb), ?_⟩
    rintro hstrict _ ⟨⟩
    obtain ⟨y', hy', herr⟩ := hfirst.error hstrict y hrun
    exact ⟨y', by rw [hy']; rfl, herr⟩
  | ok p =>
    obtain ⟨c1', hp', h1⟩ := hfirst.ok p.1 p.2 hrun
    rw [hp']
    exact hf p.1 p.2 c1' h1

/-- Behind a reader that keeps the cursors paired. -/
theorem twins_seq {post : γ → Cursor → Cursor → Prop} {e' : γ → δ} {r : Reader α} {r' : Reader β}
    {f : α → Reader γ} {f' : β → Reader δ} (hr : Steady K e r r')
    (hf : ∀ a, Twins K K.rel post e' (f a) (f' (e a))) :
    Twins K K.rel post e' (r >>= f) (r' >>= f') :=
  twins_bind hr hf

theorem twins_option {post : γ → Cursor → Cursor → Prop} {e' : γ → δ} {p : Reader (Option α)}
    {p' : Reader (Option β)} {f : Option α → Reader γ} {f' : Option β → Reader δ}
    (hp : Offer K mid e p p')
    (hsome : ∀ a, Twins K mid post e' (f (some a)) (f' (some (e a))))
    (hnone : Twins K K.rel post e' (f none) (f' none)) :
    Twins K K.rel post e' (p >>= f) (p' >>= f') := by
  refine twins_bind hp fun o => ?_
  cases o with
  | none => exact hnone
  | some a => exact hsome a

theorem twins_ite {c : Prop} [Decidable c] {r s : Reader α} {r' s' : Reader β}
    (h : Twins K pre post e r r') (h' : Twins K pre post e s s') :
    Twins K pre post e (if c then r else s) (if c then r' else s') := by
  split
  · exact h
  · exact h'

/-- A choice between two readers with one reader behind them. -/
theorem twins_choice {b : Bool} {post : γ → Cursor → Cursor → Prop} {e' : γ → δ}
    {r s : Reader α} {r' s' : Reader β} {f : α → Reader γ} {f' : β → Reader δ}
    (h : Steady K e (if b then r else s) (if b then r' else s'))
    (hf : ∀ a, Twins K K.rel post e' (f a) (f' (e a))) :
    Twins K K.rel post e' (if b then r >>= f else s >>= f) (if b then r' >>= f' else s' >>= f') := by
  cases b with
  | true => exact twins_seq h hf
  | false => exact twins_seq h hf

theorem offer_none {post : Cursor → Cursor → Prop} : Offer K post e (pure none) (pure none) :=
  twins_pure rfl fun _ _ h => h

/-- What stands behind a mark or a word that may be missing. -/
theorem offer_ite {c : Prop} [Decidable c] {post : Cursor → Cursor → Prop} {p : Reader (Option α)}
    {p' : Reader (Option β)} (h : Offer K post e p p') :
    Offer K post e (if c then p else pure none) (if c then p' else pure none) :=
  twins_ite h offer_none

theorem offer_some {a : α} {b : β} (hb : b = e a) :
    Offer K K.rel e (pure (some a)) (pure (some b)) :=
  twins_pure (congrArg some hb) fun _ _ h => h

theorem steady_of_offer {p : Reader (Option α)} {p' : Reader (Option β)}
    (h : Offer K K.rel e p p') : Steady K (Option.map e) p p' := by
  refine h.mono (fun _ _ h => h) fun o _ _ h => ?_
  cases o with
  | none => exact h
  | some a => exact h

/-- The reader behind what has already matched. -/
theorem offer_of_twins {post : Cursor → Cursor → Prop} {r : Reader α} {r' : Reader β}
    (h : Twins K K.rel (fun _ => post) e r r') :
    Offer K post e (r >>= fun a => pure (some a)) (r' >>= fun b => pure (some b)) :=
  twins_bind h fun _ => twins_pure rfl fun _ _ h => h

section Tokens

theorem token_of_nil {kind : TokenKind} {text : Option String} (h : c.after = []) :
    (token kind text : Reader _) c = .ok (none, c) := by
  rw [token_apply, show c.consume? kind text = none by simp only [Cursor.consume?, h]]
  rfl

theorem token_of_cons {kind : TokenKind} {text : Option String} {t : Token} {rest : List Token}
    (h : c.after = t :: rest) :
    (token kind text : Reader _) c = if t.kind = kind ∧ text.all (· = t.text) then
      .ok (some t.unescape, c.next t rest) else .ok (none, c) := by
  simp only [token_apply, Cursor.consume?, h]
  split <;> rfl

/-- From paired cursors both runs read the token or neither does. -/
theorem twins_token {kind : TokenKind} {text : Option String}
    {post : Option Token → Cursor → Cursor → Prop} (hpre : ∀ {c c'}, pre c c' → K.Settled c c')
    (hsome : ∀ {c c' t rest rest'}, pre c c' → c.after = t :: rest → c'.after = t :: rest' →
      t.kind = kind → text.all (· = t.text) →
        post (some t.unescape) (c.next t rest) (c'.next t rest'))
    (hnone : ∀ {c c'}, pre c c' → post none c c') :
    Twins K pre post (Option.map id) (token kind text) (token kind text) := by
  intro c c' hc
  have hhead := (hpre hc).head?
  cases hafter : c.after with
  | nil =>
    have hafter' : c'.after = [] := by simpa [hafter] using hhead.symm
    rw [token_of_nil hafter, token_of_nil hafter']
    exact twins_pure rfl (fun _ _ => hnone) c c' hc
  | cons t rest =>
    obtain ⟨rest', hafter'⟩ : ∃ rest', c'.after = t :: rest' := by
      rw [hafter] at hhead
      exact List.head?_eq_some_iff.mp hhead.symm
    rw [token_of_cons hafter, token_of_cons hafter']
    by_cases ht : t.kind = kind ∧ text.all (· = t.text)
    · rw [if_pos ht, if_pos ht]
      exact twins_pure rfl (fun _ _ h => h) (c.next t rest) (c'.next t rest')
        (hsome hc hafter hafter' ht.1 ht.2)
    · rw [if_neg ht, if_neg ht]
      exact twins_pure rfl (fun _ _ => hnone) c c' hc

theorem twins_lexeme {kind : TokenKind} {text : Option String} (hkind : kind ≠ .whitespace)
    (hsemicolon : kind = .other → text.all (· = ";") = false) :
    Twins K K.Settled (fun o => o.elim K.Settled fun _ => K.rel) (Option.map id) (token kind text)
      (token kind text) := by
  refine twins_token (fun h => h) (fun h hafter hafter' ht htext => ?_) fun h => h
  refine K.next h.rel hafter hafter' (by simpa [isWhitespace, ht] using hkind) ?_
  rintro rfl
  exact Bool.false_ne_true ((hsemicolon ht.symm).symm.trans htext)

/-- Both runs skip to the same token. -/
theorem twins_skip : Twins K K.rel (fun _ => K.Settled) id skip skip := by
  refine fun c c' hc => ⟨?_, ?_⟩
  · rintro _ _ ⟨⟩
    exact ⟨c'.skip, rfl, K.skip hc, settled_skip c, settled_skip c'⟩
  · rintro - _ ⟨⟩

/-- The trivia that the first run keeps is left out by the second one. -/
theorem twins_trivia (d : Dialect) :
    Twins K K.rel (fun _ => K.Settled) (fun _ => []) (trivia d) (trivia d.plain) := by
  refine fun c c' hc => ⟨?_, ?_⟩
  · rintro _ _ ⟨⟩
    exact ⟨c'.skip, rfl, K.skip hc, settled_skip c, settled_skip c'⟩
  · rintro - _ ⟨⟩

/-- The token that is asked for comes next in both runs, or both stand in front of another one. -/
theorem twins_asked {kind : TokenKind} {w : String} (hkind : kind ≠ .whitespace)
    (hsemicolon : kind = .other → w ≠ ";") :
    Twins K K.rel (fun b => cond b K.rel K.Settled) id
      (do skip; return (← token kind (some w)).isSome)
      (do skip; return (← token kind (some w)).isSome) := by
  have hlexeme : Twins K K.Settled (fun o => o.elim K.Settled fun _ => K.rel) (Option.map id)
      (token kind (some w)) (token kind (some w)) :=
    twins_lexeme hkind fun h => by simpa using hsemicolon h
  refine twins_bind twins_skip fun _ => twins_bind hlexeme fun o => ?_
  cases o with
  | none => exact twins_pure rfl fun _ _ h => h
  | some t => exact twins_pure rfl fun _ _ h => h

theorem twins_keyword (w : String) :
    Twins K K.rel (fun b => cond b K.rel K.Settled) id (keyword w) (keyword w) :=
  twins_asked (by decide) (by simp)

theorem twins_symbol {m : String} (hm : m ≠ ";") :
    Twins K K.rel (fun b => cond b K.rel K.Settled) id (symbol m) (symbol m) :=
  twins_asked (by decide) fun _ => hm

theorem twins_identifier :
    Twins K K.rel (fun o => o.elim K.Settled fun _ => K.rel) (Option.map id) identifier
      identifier := by
  refine twins_bind twins_skip fun _ => twins_bind (twins_lexeme (by decide) (by simp)) fun o => ?_
  cases o with
  | none => exact twins_pure rfl fun _ _ h => h
  | some t => exact twins_pure rfl fun _ _ h => h

theorem steady_trivia (d : Dialect) : Steady K (fun _ => []) (trivia d) (trivia d.plain) :=
  (twins_trivia d).mono (fun _ _ h => h) fun _ _ _ h => h.rel

theorem steady_of_asked {r r' : Reader Bool}
    (h : Twins K K.rel (fun b => cond b K.rel K.Settled) id r r') : Steady K id r r' := by
  refine h.mono (fun _ _ h => h) fun b _ _ h => ?_
  cases b with
  | true => exact h
  | false => exact h.rel

theorem steady_keyword (w : String) : Steady K id (keyword w) (keyword w) :=
  steady_of_asked (twins_keyword w)

theorem steady_symbol {m : String} (hm : m ≠ ";") : Steady K id (symbol m) (symbol m) :=
  steady_of_asked (twins_symbol hm)

theorem offer_identifier : Offer K K.rel id identifier identifier := by
  refine twins_identifier.mono (fun _ _ h => h) fun o _ _ h => ?_
  cases o with
  | none => exact h.rel
  | some s => exact h

/-- A `;` is read in both runs or in neither. -/
theorem twins_semicolon :
    Twins K K.rel (fun b => cond b K.past K.rel) id (symbol ";") (symbol ";") := by
  have htoken : Twins K K.Settled (fun o => o.elim K.rel fun _ => K.past) (Option.map id)
      (token .other (some ";")) (token .other (some ";")) := by
    refine twins_token (fun h => h) (fun {c c' t rest rest'} h hafter hafter' ht htext => ?_)
      fun h => h.rel
    obtain rfl : t = mark ";" := eq_of_asked ht htext
    exact K.semicolon h.rel hafter hafter'
  refine twins_bind twins_skip fun _ => twins_bind htoken fun o => ?_
  cases o with
  | none => exact twins_pure rfl fun _ _ h => h
  | some t => exact twins_pure rfl fun _ _ h => h

end Tokens

section Choices

theorem twins_expect {p : Reader (Option α)} {p' : Reader (Option β)} {reason : Reason}
    (h : Offer K mid e p p') :
    Twins K K.rel (fun _ => mid) e (expect reason p) (expect reason p') :=
  twins_option h (fun _ => twins_pure rfl fun _ _ h => h) twins_fail

theorem steady_expectSymbol {m : String} (hm : m ≠ ";") {reason : Reason} :
    Steady K id (expectSymbol m reason) (expectSymbol m reason) := by
  refine twins_seq (steady_symbol hm) fun found => ?_
  cases found with
  | true => exact steady_pure rfl
  | false => exact twins_fail

theorem sealed_semicolon {reason : Reason} :
    Sealed K id (expectSymbol ";" reason) (expectSymbol ";" reason) := by
  refine twins_bind twins_semicolon fun found => ?_
  cases found with
  | true => exact twins_pure rfl fun _ _ h => h
  | false => exact twins_fail

/-- The answer of a reader that ends with its `;`. -/
theorem twins_closed {reason : Reason} {a : α} {b : β} (hb : b = e a)
    (h : ∀ c c', K.past c c' → post a c c') :
    Twins K K.rel post e (expectSymbol ";" reason >>= fun _ => pure a)
      (expectSymbol ";" reason >>= fun _ => pure b) :=
  twins_bind sealed_semicolon fun _ => twins_pure hb h

theorem steady_expectIdentifier {reason : Reason} :
    Steady K id (expectIdentifier reason) (expectIdentifier reason) :=
  twins_expect offer_identifier

/-- Where the production does not match, both runs are back where they started. -/
theorem twins_attempt {p : Reader (Option α)} {p' : Reader (Option β)} {reset : Cursor → Cursor → Prop}
    (h : Twins K pre (fun o => o.elim reset fun _ => mid) (Option.map e) p p') :
    Twins K pre (fun o => o.elim pre fun _ => mid) (Option.map e) (attempt p) (attempt p') := by
  intro c c' hc
  have hattempt : Twins K pre (fun o => o.elim pre fun _ => mid) (Option.map e)
      (p >>= rewind c) (p' >>= rewind c') := by
    refine twins_bind h fun o => ?_
    cases o with
    | some a => exact twins_pure rfl fun _ _ h => h
    | none =>
      refine fun _ _ _ => ⟨?_, ?_⟩
      · rintro _ _ ⟨⟩
        exact ⟨c', rfl, hc⟩
      · rintro - _ ⟨⟩
  exact hattempt c c' hc

theorem offer_attempt {p : Reader (Option α)} {p' : Reader (Option β)}
    (h : Offer K mid e p p') : Offer K mid e (attempt p) (attempt p') :=
  twins_attempt h

theorem twins_firstOf_cons {p : Reader (Option α)} {p' : Reader (Option β)}
    {ps : List (Reader (Option α))} {ps' : List (Reader (Option β))}
    {post : Option α → Cursor → Cursor → Prop} (hp : Offer K mid e p p')
    (hmid : ∀ a c c', mid c c' → post (some a) c c')
    (hps : Twins K K.rel post (Option.map e) (firstOf ps) (firstOf ps')) :
    Twins K K.rel post (Option.map e) (firstOf (p :: ps)) (firstOf (p' :: ps')) :=
  twins_option hp (fun a => twins_pure rfl (hmid a)) hps

theorem offer_firstOf_nil : Offer K mid e (firstOf []) (firstOf []) :=
  offer_none

theorem offer_firstOf_cons {p : Reader (Option α)} {p' : Reader (Option β)}
    {ps : List (Reader (Option α))} {ps' : List (Reader (Option β))} (hp : Offer K mid e p p')
    (hps : Offer K mid e (firstOf ps) (firstOf ps')) :
    Offer K mid e (firstOf (p :: ps)) (firstOf (p' :: ps')) :=
  twins_firstOf_cons hp (fun _ _ _ h => h) hps

theorem offer_mapped {p : Reader (Option α)} {p' : Reader (Option β)} {f : α → γ} {f' : β → δ}
    {e' : γ → δ} (hp : Offer K mid e p p') (hf : ∀ a, f' (e a) = e' (f a)) :
    Offer K mid e' (mapped f p) (mapped f' p') := by
  refine twins_bind hp fun o => ?_
  cases o with
  | none => exact twins_pure rfl fun _ _ h => h
  | some a => exact twins_pure (congrArg some (hf a)) fun _ _ h => h

end Choices

section Loops

/-- Both runs may use the same bound, since larger ones change nothing. -/
theorem twins_bounded {p : Nat → Reader α} {p' : Nat → Reader β} (hp : Stable p)
    (hp' : Stable p') (h : ∀ n, Twins K pre post e (p n) (p' n)) :
    Twins K pre post e (bounded p) (bounded p') := by
  intro c c' hc
  obtain ⟨n, hrun, hrun'⟩ := exists_common_bound hp hp' c c'
  rw [hrun, hrun']
  exact h n c c' hc

theorem steady_iterate {σ : Type} {step : σ → Reader (Option σ)} [hstep : ∀ s, Productive (step s)]
    (h : ∀ s, Offer K K.rel id (step s) (step s)) (s : σ) :
    Steady K id (iterate step s) (iterate step s) := by
  refine twins_bounded (stable_iterateWithin hstep s) (stable_iterateWithin hstep s) fun n => ?_
  induction n generalizing s with
  | zero => exact steady_pure rfl
  | succ n ih => exact twins_option (h s) (fun t => ih t) (steady_pure rfl)

theorem steady_many {step : Reader (Option α)} {step' : Reader (Option β)} [Productive step]
    [Productive step'] (h : Offer K K.rel e step step') :
    Steady K (List.map e) (many step) (many step') := by
  refine twins_seq (?_ : Steady K (fun r : List α × Unit => (r.1.map e, ())) _ _)
    fun r => steady_pure rfl
  refine twins_bounded (stable_untilWithin gains_round) (stable_untilWithin gains_round) fun n => ?_
  induction n with
  | zero => exact twins_fail
  | succ n ih =>
    refine twins_seq (?_ : Steady K (Sum.map e id) _ _) fun r => ?_
    · exact twins_option h (fun a => steady_pure rfl) (steady_pure rfl)
    cases r with
    | inl a => exact twins_seq ih fun r => steady_pure rfl
    | inr b => exact steady_pure rfl

theorem steady_afterCommas {item : Reader α} {item' : Reader β} [Forward item] [Forward item']
    (h : Steady K e item item') : Steady K (List.map e) (afterCommas item) (afterCommas item') := by
  refine steady_many (twins_seq (steady_symbol (by decide)) fun comma => offer_ite ?_)
  exact offer_of_twins h

theorem offer_commaSeparated {first : Reader (Option α)} {first' : Reader (Option β)}
    {next : Reader α} {next' : Reader β} [Forward next] [Forward next']
    (hfirst : Offer K K.rel e first first') (hnext : Steady K e next next') :
    Offer K K.rel (List.map e) (commaSeparated first next) (commaSeparated first' next') := by
  refine twins_option hfirst (fun a => ?_) offer_none
  exact twins_seq (steady_afterCommas hnext) fun as => offer_some rfl

/-- Without a `;` ahead, what ends with one does not come to a good end. -/
theorem answers_semicolon_of_not_mem {reason : Reason} {f : Unit → Reader α}
    (h : mark ";" ∉ c.ahead) :
    Answers c (expectSymbol ";" reason >>= f) fun _ _ => False := by
  refine answers_bind (answers_bind (answers_bind (answers_skip (answers_bind ?_))))
  refine answers_token (fun t rest hafter ht htext => absurd ?_ h) fun _ => ?_
  · obtain rfl : t = mark ";" := eq_of_asked ht htext
    refine List.mem_of_mem_head? ?_
    rw [← head?_after_skip, hafter]
    rfl
  · exact answers_pure answers_fail

theorem outcomes_of_answers {r : Reader α} {x' : Except ParseError (β × Cursor)}
    (h : Answers c r fun _ _ => False) (hstrict : ¬K.strict) : Outcomes K post e (r c) x' :=
  ⟨fun a c1 hrun => (h a c1 hrun).elim, fun hs => absurd hs hstrict⟩

theorem bounded_bind {p : Nat → Reader α} {f : α → Reader β} :
    bounded p >>= f = bounded fun n => p n >>= f :=
  bind_assoc ..

theorem untilWithin_succ_bind {step : Reader (α ⊕ β)} {n : Nat} {f : List α × β → Reader γ} :
    untilWithin step (n + 1) >>= f = step >>= fun r => match r with
      | .inl a => untilWithin step n >>= fun p => f (a :: p.1, p.2)
      | .inr b => f ([], b) := by
  rw [untilWithin, bind_assoc]
  congr 1
  funext r
  cases r with
  | inl a => simp only [bind_assoc, pure_bind]
  | inr b => rw [pure_bind]

/-- A body with what stands behind it up to a `;`. Each entry ends behind a `;` of its own, and if
there is no other one ahead then the body is never closed. -/
theorem twins_body {d : Dialect} {entry : List Trivia → Reader α} {entry' : List Trivia → Reader β}
    {f : List α × List Trivia → Reader γ} {f' : List β × List Trivia → Reader δ} {e' : γ → δ}
    {post : γ → Cursor → Cursor → Prop} [∀ leading, Consuming (entry leading)]
    [∀ leading, Consuming (entry' leading)]
    (hentry : ∀ leading, Twins K K.Settled (fun _ => K.past) e (entry leading) (entry' []))
    (hf : ∀ r, Twins K K.rel post e' (f r) (f' (r.1.map e, [])))
    (hend : ∀ r c, mark ";" ∉ c.ahead → Answers c (f r) fun _ _ => False) :
    Twins K K.rel post e' (body d entry >>= f) (body d.plain entry' >>= f') := by
  have hround : Twins K K.rel (fun r => r.elim (fun _ => K.past) fun _ => K.rel)
      (Sum.map e fun _ => []) (bodyRound d entry) (bodyRound d.plain entry') := by
    refine twins_seq (steady_trivia d) fun leading => ?_
    refine twins_bind (twins_symbol (by decide)) fun closed => ?_
    cases closed with
    | true => exact twins_pure rfl fun _ _ h => h
    | false => exact twins_bind (hentry leading) fun a => twins_pure rfl fun _ _ h => h
  have hrounds (n : Nat) : Twins K K.past post e' (untilWithin (bodyRound d entry) n >>= f)
      (untilWithin (bodyRound d.plain entry') n >>= f') := by
    induction n generalizing f f' with
    | zero =>
      intro c c' hc
      rcases K.revive hc with hrel | ⟨hstrict, hspent⟩
      · exact twins_bind (@twins_fail _ _ _ (fun _ _ _ => False) (fun r => (r.1.map e, [])) _)
          (fun _ _ _ h => h.elim) c c' hrel
      · exact outcomes_of_answers (answers_bind answers_fail) hstrict
    | succ n ih =>
      intro c c' hc
      rcases K.revive hc with hrel | ⟨hstrict, hspent⟩
      · rw [untilWithin_succ_bind, untilWithin_succ_bind]
        refine twins_bind hround (fun r => ?_) c c' hrel
        cases r with
        | inl a => exact ih (fun r => hf (a :: r.1, r.2)) fun r => hend (a :: r.1, r.2)
        | inr closing => exact hf ([], closing)
      · refine outcomes_of_answers (answers_bind ?_) hstrict
        have hround := @gains_bodyRound _ d entry _
        have hforward := @forward_untilWithin _ _ _ hround.forward
        refine ((hforward (n + 1)).answers c).mono fun r c1 h1 => hend r c1 fun hmem => hspent ?_
        exact (h1.1.suffix.sublist.filter _).subset hmem
  have hstable {α γ : Type} {d : Dialect} {entry : List Trivia → Reader α}
      [∀ leading, Consuming (entry leading)] (f : List α × List Trivia → Reader γ) :
      Stable fun n => untilWithin (bodyRound d entry) n >>= f :=
    fun start m n k hm hn => agree_head (stable_untilWithin gains_bodyRound start m n k hm hn)
  show Twins K K.rel post e' (bounded (untilWithin (bodyRound d entry)) >>= f)
    (bounded (untilWithin (bodyRound d.plain entry')) >>= f')
  rw [bounded_bind, bounded_bind]
  exact twins_bounded (hstable f) (hstable f') fun n =>
    (hrounds n).mono (fun _ _ => K.forget) fun _ _ _ h => h

end Loops

end Grammar

end WebIdl

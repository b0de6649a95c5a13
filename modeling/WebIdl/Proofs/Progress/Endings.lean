import WebIdl.Proofs.Progress.Forward

/-!
# Where definitions begin and end

A definition ends with its `;`, and where none begins the blanks in front are all that is read. So
the entries of a program are the stretches of its text up to each such `;`.
-/

namespace WebIdl.Grammar

open Token Cursor

variable {α β : Type} {P : α → Prop} {Q : β → Prop}

/-- If `P` holds of the answer, the token read last is a `;`. -/
class Ends (P : α → Prop) (r : Reader α) : Prop where
  answers : ∀ c, Answers c r fun a c' => P a → c'.before.head? = some (mark ";")

/-- The production ends with a `;` where it matches. -/
abbrev Closing (p : Reader (Option α)) : Prop :=
  Ends (fun o => o.isSome) p

/-- If `P` holds of the answer, nothing but blanks has been read. -/
class Idle (P : α → Prop) (r : Reader α) : Prop where
  answers : ∀ c, Answers c r fun a c' => P a → c'.ahead = c.ahead

/-- The production reads nothing but blanks where it does not match. -/
abbrev Shy (p : Reader (Option α)) : Prop :=
  Idle (fun o => o = none) p

/-- The production matches, or it is an error. -/
class Committed (p : Reader (Option α)) : Prop where
  answers : ∀ c, Answers c p fun o _ => o.isSome

section Ends

instance ends_fail (reason : Reason) : Ends P (fail reason) :=
  ⟨fun _ => answers_fail⟩

instance closing_none : Closing (pure (none : Option α)) :=
  ⟨fun _ => answers_pure (by simp)⟩

instance ends_bind {r : Reader α} {f : α → Reader β} [hf : ∀ a, Ends Q (f a)] :
    Ends Q (r >>= f) :=
  ⟨fun _ => answers_bind fun a c1 _ => (hf a).answers c1⟩

/-- Nothing is read behind the `;`. -/
instance ends_bind_pure {r : Reader α} {f : α → β} [hr : Ends (fun _ => True) r] :
    Ends Q (r >>= fun a => pure (f a)) :=
  ⟨fun c => answers_bind ((hr.answers c).mono fun _ _ h => answers_pure fun _ => h trivial)⟩

instance ends_ite {b : Prop} [Decidable b] {r r' : Reader α} [hr : Ends P r] [hr' : Ends P r'] :
    Ends P (if b then r else r') := by
  split
  · exact hr
  · exact hr'

instance ends_semicolon {reason : Reason} : Ends (fun _ => True) (expectSymbol ";" reason) := by
  refine ⟨fun c => answers_bind (answers_bind (answers_skip (answers_bind ?_)))⟩
  refine answers_token (fun t rest _ ht htext => answers_pure (answers_pure fun _ => ?_)) fun _ =>
    answers_pure answers_fail
  cases t
  simp_all [mark]

instance ends_expect {p : Reader (Option α)} {reason : Reason} [hp : Closing p] :
    Ends (fun _ => True) (expect reason p) := by
  refine ⟨fun c => answers_bind ((hp.answers c).mono fun o c1 h1 => ?_)⟩
  cases o with
  | none => exact answers_fail
  | some a => exact answers_pure fun _ => h1 rfl

instance closing_attempt {p : Reader (Option α)} [hp : Closing p] : Closing (attempt p) := by
  refine ⟨fun c => answers_attempt ((hp.answers c).mono fun o c1 h1 => ⟨?_, ?_⟩)⟩
  · rintro a rfl
    exact h1
  · exact fun _ h => absurd h (by simp)

instance closing_mapped {f : α → β} {p : Reader (Option α)} [hp : Closing p] :
    Closing (mapped f p) :=
  ⟨fun c => answers_bind ((hp.answers c).mono fun _ _ h1 => answers_pure fun hsome =>
    h1 (by simpa using hsome))⟩

instance closing_firstOf_nil : Closing (firstOf ([] : List (Reader (Option α)))) :=
  closing_none

instance closing_firstOf {p : Reader (Option α)} {ps : List (Reader (Option α))}
    [hp : Closing p] [hps : Closing (firstOf ps)] : Closing (firstOf (p :: ps)) := by
  refine ⟨fun c => answers_bind ((hp.answers c).mono fun o c1 h1 => ?_)⟩
  cases o with
  | none => exact hps.answers c1
  | some a => exact answers_pure h1

instance closing_typedef (d : Dialect) : Closing (typedef d) := by
  rw [typedef]
  infer_instance

instance ends_interfaceRest (d : Dialect) (isPartial : Bool) :
    Ends (fun _ => True) (interfaceRest d isPartial) := by
  rw [interfaceRest]
  infer_instance

instance closing_interface (d : Dialect) (isPartial : Bool) : Closing (interface d isPartial) := by
  rw [interface]
  infer_instance

instance ends_callbackRest (d : Dialect) : Ends (fun _ => True) (callbackRest d) := by
  rw [callbackRest]
  infer_instance

instance closing_callback (d : Dialect) : Closing (callback d) := by
  rw [callback]
  infer_instance

instance closing_dictionary (d : Dialect) (isPartial : Bool) :
    Closing (dictionary d isPartial) := by
  rw [dictionary]
  infer_instance

instance closing_partialDefinition (d : Dialect) : Closing (partialDefinition d) := by
  rw [partialDefinition]
  infer_instance

instance closing_exception (d : Dialect) : Closing (exception d) := by
  rw [exception]
  infer_instance

instance closing_enum (d : Dialect) : Closing (enum d) := by
  rw [enum]
  infer_instance

instance closing_implements : Closing implements := by
  have hstatement (o : Option String) : Closing (match o with
      | none => pure none
      | some target => do
        if ← keyword "implements" then
          let mixin ← expectIdentifier .incompleteImplements
          expectSymbol ";" .unfinishedImplements
          return some (.implements { target, mixin })
        else
          return none : Reader (Option DefinitionKind)) := by
    cases o with
    | none => exact closing_none
    | some target => infer_instance
  rw [implements]
  infer_instance

instance closing_definitionKind (d : Dialect) : Closing (definitionKind d) := by
  rw [definitionKind]
  infer_instance

end Ends

section Committed

instance committed_some {a : α} : Committed (pure (some a)) :=
  ⟨fun _ => answers_pure rfl⟩

instance committed_fail (reason : Reason) : Committed (fail reason : Reader (Option α)) :=
  ⟨fun _ => answers_fail⟩

instance committed_bind {r : Reader α} {f : α → Reader (Option β)} [hf : ∀ a, Committed (f a)] :
    Committed (r >>= f) :=
  ⟨fun _ => answers_bind fun a c1 _ => (hf a).answers c1⟩

instance committed_ite {b : Prop} [Decidable b] {p p' : Reader (Option α)} [hp : Committed p]
    [hp' : Committed p'] : Committed (if b then p else p') := by
  split
  · exact hp
  · exact hp'

end Committed

section Idle

instance idle_pure (a : α) : Idle P (pure a) :=
  ⟨fun _ => answers_pure fun _ => rfl⟩

instance idle_fail (reason : Reason) : Idle P (fail reason) :=
  ⟨fun _ => answers_fail⟩

instance idle_skip : Idle (fun _ => True) skip :=
  ⟨fun c => answers_skip fun _ => ahead_skip c⟩

instance shy_committed {p : Reader (Option α)} [hp : Committed p] : Shy p :=
  ⟨fun c => (hp.answers c).mono fun o _ h hnone => absurd (hnone ▸ h) (by simp)⟩

instance shy_token {kind : TokenKind} {text : Option String} : Shy (token kind text) :=
  ⟨fun _ => answers_token (fun _ _ _ _ _ h => absurd h (by simp)) fun _ _ => rfl⟩

theorem idle_bind {r : Reader α} {f : α → Reader β} (hr : Idle P r)
    (hidle : ∀ a, P a → Idle Q (f a)) (hno : ∀ a c, ¬P a → Answers c (f a) fun b _ => ¬Q b) :
    Idle Q (r >>= f) := by
  refine ⟨fun c => answers_bind ((hr.answers c).mono fun a c1 h1 => ?_)⟩
  by_cases ha : P a
  · exact ((hidle a ha).answers c1).mono fun _ _ h2 hb => (h2 hb).trans (h1 ha)
  · exact (hno a c1 ha).mono fun _ _ h2 hb => absurd hb h2

theorem idle_behind {r : Reader α} {f : α → Reader β} (hr : Idle (fun _ => True) r)
    (hf : ∀ a, Idle Q (f a)) : Idle Q (r >>= f) :=
  idle_bind hr (fun a _ => hf a) fun _ _ h => absurd trivial h

/-- Nothing but blanks is read if the token that is asked for does not come next. -/
theorem idle_asked {kind : TokenKind} {text : Option String} :
    Idle (fun b => b = false)
      (skip >>= fun _ => token kind text >>= fun o => pure o.isSome) := by
  refine idle_behind idle_skip fun _ => ?_
  refine idle_bind shy_token (fun _ _ => idle_pure _) fun o c ho => ?_
  exact answers_pure (by simpa [Option.isSome_iff_ne_none] using ho)

instance idle_keyword (w : String) : Idle (fun b => b = false) (keyword w) :=
  idle_asked

instance idle_symbol (m : String) : Idle (fun b => b = false) (symbol m) :=
  idle_asked

instance idle_ite {b : Prop} [Decidable b] {r r' : Reader α} [hr : Idle P r] [hr' : Idle P r'] :
    Idle P (if b then r else r') := by
  split
  · exact hr
  · exact hr'

instance shy_if {r : Reader Bool} {f g : Bool → Reader (Option α)}
    [hr : Idle (fun b => b = false) r] [hf : ∀ b, Committed (f b)] [hg : ∀ b, Shy (g b)] :
    Shy (r >>= fun b => if b then f b else g b) := by
  refine idle_bind hr ?_ fun b c hb => ?_
  · rintro _ rfl
    exact hg false
  · obtain rfl : b = true := by simpa using hb
    exact ((hf true).answers c).mono fun o _ h hnone => absurd (hnone ▸ h) (by simp)

instance shy_attempt {p : Reader (Option α)} : Shy (attempt p) := by
  refine ⟨fun c => answers_attempt fun o c1 _ => ⟨?_, fun _ _ => rfl⟩⟩
  rintro a rfl
  simp

instance shy_mapped {f : α → β} {p : Reader (Option α)} [hp : Shy p] : Shy (mapped f p) :=
  idle_bind hp (fun _ _ => idle_pure _) fun o _ ho => answers_pure (by simpa using ho)

instance shy_firstOf_nil : Shy (firstOf ([] : List (Reader (Option α)))) :=
  idle_pure none

instance shy_firstOf {p : Reader (Option α)} {ps : List (Reader (Option α))} [hp : Shy p]
    [hps : Shy (firstOf ps)] : Shy (firstOf (p :: ps)) := by
  refine idle_bind hp ?_ fun o c ho => ?_
  · rintro _ rfl
    exact hps
  · cases o with
    | none => exact absurd rfl ho
    | some a => exact answers_pure (by simp)

instance shy_typedef (d : Dialect) : Shy (typedef d) := by
  rw [typedef]
  infer_instance

instance idle_classKeyword (d : Dialect) : Idle (fun b => b = false) (classKeyword d) := by
  rw [classKeyword]
  infer_instance

instance shy_interface (d : Dialect) (isPartial : Bool) : Shy (interface d isPartial) := by
  rw [interface]
  infer_instance

instance shy_callback (d : Dialect) : Shy (callback d) := by
  rw [callback]
  infer_instance

instance shy_dictionary (d : Dialect) (isPartial : Bool) : Shy (dictionary d isPartial) := by
  rw [dictionary]
  infer_instance

instance shy_partialDefinition (d : Dialect) : Shy (partialDefinition d) := by
  rw [partialDefinition]
  infer_instance

instance shy_exception (d : Dialect) : Shy (exception d) := by
  rw [exception]
  infer_instance

instance shy_enum (d : Dialect) : Shy (enum d) := by
  rw [enum]
  infer_instance

instance shy_implements : Shy implements :=
  shy_attempt

instance shy_definitionKind (d : Dialect) : Shy (definitionKind d) := by
  rw [definitionKind]
  infer_instance

instance idle_trivia (d : Dialect) : Idle (fun _ => True) (trivia d) :=
  ⟨fun c => answers_bind (answers_get (answers_bind (answers_skip (answers_pure fun _ =>
    ahead_skip c))))⟩

/-- A list of attributes is not empty once it has begun. -/
theorem idle_extendedAttributes (d : Dialect) :
    Idle (fun es => es = []) (extendedAttributes d) := by
  have hlist (argument : Reader (Option Argument)) :
      Idle (fun es => es = []) (extendedAttributesWith argument) := by
    refine idle_bind (idle_symbol "[") ?_ fun opened c hopened => ?_
    · rintro _ rfl
      exact idle_pure []
    · obtain rfl : opened = true := by simpa using hopened
      refine answers_bind fun e _ _ => answers_bind fun es _ _ => answers_bind fun _ _ _ => ?_
      exact answers_pure (by simp)
  exact ⟨fun c => answers_bounded fun n => by
    cases n with
    | zero => exact (@idle_pure (List ExtendedAttribute) _ []).answers c
    | succ n => exact (hlist _).answers c⟩

end Idle

/-- A definition ends with a `;`, and an entry that is none is blank. -/
theorem answers_programEntry_end (d : Dialect) (c : Cursor) :
    Answers c (programEntry d) fun r c' =>
      r.elim (fun _ => c'.before.head? = some (mark ";")) fun _ => c'.ahead = c.ahead := by
  refine answers_bind (((idle_trivia d).answers c).mono fun leading c1 h1 => answers_bind ?_)
  refine ((idle_extendedAttributes d).answers c1).mono fun es c2 h2 => answers_bind ?_
  refine ((idle_trivia d).answers c2).mono fun _ c3 h3 => answers_bind fun o c4 hrun => ?_
  cases o with
  | some kind => exact answers_pure ((closing_definitionKind d).answers c3 _ _ hrun rfl)
  | none =>
    cases es with
    | cons e es => exact answers_fail
    | nil =>
      have hkind := (shy_definitionKind d).answers c3 _ _ hrun rfl
      exact answers_pure (hkind.trans ((h3 trivial).trans ((h2 rfl).trans (h1 trivial))))

theorem answers_program_end (d : Dialect) (c : Cursor) :
    Answers c (program d) fun _ c' => c'.after = [] := by
  refine answers_bind fun r c1 _ => answers_bind (answers_get ?_)
  split
  · next hend => exact answers_pure (List.isEmpty_iff.mp hend)
  · exact answers_fail

end WebIdl.Grammar

namespace WebIdl

/-- A token list that parses has no marks but those of the grammar. -/
theorem known_of_parse {d : Dialect} {ts : List Token} {p : Program} (h : parse d ts = .ok p) :
    ∀ t ∈ ts, t.Known := by
  obtain ⟨c, hrun⟩ := parse_eq_ok_iff.mp h
  have hend := Grammar.answers_program_end d _ _ _ hrun
  obtain ⟨⟨read, hafter, -, -, hknown⟩, -⟩ :=
    (Grammar.forward_program d).answers (Cursor.ofTokens ts) _ _ hrun
  rw [hend, List.append_nil] at hafter
  rwa [show ts = read from hafter]

end WebIdl

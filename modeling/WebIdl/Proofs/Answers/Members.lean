import WebIdl.Grammar.Members
import WebIdl.Proofs.Answers.Attributes
import WebIdl.Proofs.Reading.Members

/-!
# Members that are read

A production either reads a well-formed member or leaves the tokens alone, and then it tells which
words do not come first. That is how a member that is tried later is known to be no other one.
-/

namespace WebIdl.Grammar

open Token Cursor Spelling

variable {α β : Type} {c : Cursor} {d : Dialect}

/-- No list of words among these comes first. -/
def Shuns (c : Cursor) (wss : List (List String)) : Prop :=
  ∀ ws ∈ wss, ¬ws.map word <+: c.ahead

/-- The production reads something that `R` holds of, or the words are not there. -/
def Commits (wss : List (List String)) (R : α → Prop) (p : Reader (Option α)) : Prop :=
  ∀ c, Cut c → Answers c p fun o c' =>
    (∀ a, o = some a → Past c c' ∧ R a) ∧
      (o = none → Cut c' ∧ c'.ahead = c.ahead ∧ Shuns c wss)

theorem shuns_singleton {w : String} : Shuns c [[w]] ↔ c.ahead.head? ≠ some (word w) := by
  simp only [Shuns, List.mem_singleton, forall_eq, List.map_cons, List.map_nil]
  cases c.ahead with
  | nil => simp
  | cons t ts => simp [List.cons_prefix_cons, eq_comm]

theorem Shuns.of_ahead_eq {wss : List (List String)} {c' : Cursor} (h : Shuns c' wss)
    (heq : c'.ahead = c.ahead) : Shuns c wss := by
  rw [Shuns, ← heq]
  exact h

theorem Shuns.append {wss vss : List (List String)} (h : Shuns c wss) (h' : Shuns c vss) :
    Shuns c (wss ++ vss) := by
  intro ws hws
  rcases List.mem_append.mp hws with hws | hws
  · exact h ws hws
  · exact h' ws hws

/-- Words behind a word that comes first. -/
theorem Shuns.tail {wss : List (List String)} {w : String} {c' : Cursor}
    (h : Shuns c (wss.map (w :: ·))) (heq : c.ahead = word w :: c'.ahead) : Shuns c' wss := by
  intro ws hws hprefix
  refine h (w :: ws) (List.mem_map_of_mem hws) ?_
  rw [heq, List.map_cons, List.cons_prefix_cons]
  exact ⟨rfl, hprefix⟩

theorem commits_mapped {wss : List (List String)} {R : β → Prop} {f : α → β}
    {p : Reader (Option α)} (h : Commits wss (fun a => R (f a)) p) :
    Commits wss R (mapped f p) := by
  refine fun c hc => answers_mapped ((h c hc).mono ?_)
  rintro (_ | a) c' ⟨hsome, hnone⟩
  · exact ⟨by simp, fun _ => hnone rfl⟩
  · refine ⟨?_, by simp⟩
    rintro _ ⟨⟩
    exact hsome a rfl

theorem commits_attempt {wss : List (List String)} {R : α → Prop} {p : Reader (Option α)}
    (h : ∀ c, Cut c → Answers c p fun o c' =>
      (∀ a, o = some a → Past c c' ∧ R a) ∧ (o = none → Shuns c wss)) :
    Commits wss R (attempt p) := by
  refine fun c hc => answers_attempt ((h c hc).mono fun o c' ho => ⟨?_, fun hnone => ?_⟩)
  · rintro a rfl
    exact ⟨ho.1, by simp⟩
  · exact ⟨by simp, fun _ => ⟨hc, rfl, ho.2 hnone⟩⟩

/-- Where none of the first alternatives matches, all their words are not there. -/
theorem answers_firstOf_commits {l : List (Reader (Option α) × List (List String))}
    {q : List (Reader (Option α))} {R : α → Prop} {Q : Option α → Cursor → Prop}
    (hl : ∀ p ∈ l, Commits p.2 R p.1) (hc : Cut c)
    (hsome : ∀ a c', Past c c' → R a → Q (some a) c')
    (hnone : ∀ c', Cut c' → c'.ahead = c.ahead → Shuns c (l.flatMap Prod.snd) →
      Answers c' (firstOf q) Q) : Answers c (firstOf (l.map Prod.fst ++ q)) Q := by
  induction l generalizing c with
  | nil => exact hnone c hc rfl (by simp [Shuns])
  | cons p l ih =>
    refine answers_firstOf ((hl p List.mem_cons_self c hc).mono fun o c1 h1 => ⟨?_, ?_⟩)
    · rintro a rfl
      exact hsome a c1 (h1.1 a rfl).1 (h1.1 a rfl).2
    · intro ho
      obtain ⟨hc1, hahead, hshuns⟩ := h1.2 ho
      refine ih (fun r hr => hl r (List.mem_cons_of_mem p hr)) hc1 ?_ ?_
      · exact fun a c' h ha => hsome a c' ((onward_of_ahead_eq hc1 hahead).past h) ha
      · exact fun c' hc' h hs =>
          hnone c' hc' (h.trans hahead) (hshuns.append (hs.of_ahead_eq hahead))

/-- A production that its first word commits. -/
theorem commits_keyword {w : String} {R : α → Prop} {p : Reader (Option α)}
    (h : ∀ c, Cut c → Answers c p fun o c' => ∃ a, o = some a ∧ Onward c c' ∧ R a) :
    Commits [[w]] R (do if ← keyword w then p else return none) := by
  refine fun c hc => answers_bind (answers_keyword hc (fun c1 hc1 h1 => ?_)
    fun c1 hc1 _ h1 hnot => answers_pure ⟨by simp, fun _ => ⟨hc1, h1, shuns_singleton.mpr hnot⟩⟩)
  refine (h c1 hc1).mono ?_
  rintro _ c2 ⟨a, rfl, hon, ha⟩
  refine ⟨?_, by simp⟩
  rintro _ ⟨⟩
  exact ⟨(past_of_ahead_cons hc1 h1).trans hon, ha⟩

theorem commits_typedef : Commits [["typedef"]] (fun t => t.WellFormed d) (typedef d) := by
  refine commits_keyword fun c hc => ?_
  refine answers_annotation (answers_extendedAttributes hc) fun es items c1 h1 hannotated => ?_
  refine answers_bind (answers_expectType h1.cut fun type c2 h2 => answers_bind ?_)
  refine answers_expectIdentifier h2.cut fun name c3 hc3 hname h3 => answers_bind ?_
  refine answers_expectSymbol hc3 fun c4 hc4 h4 => answers_pure ⟨_, rfl, ?_, ?_⟩
  · exact ((h1.trans h2.onward).trans (onward_of_ahead_cons hc3 h3)).trans
      (onward_of_ahead_cons hc4 h4)
  · have hpast := h2.onward.past (past_of_ahead_cons hc3 h3)
    exact ⟨hannotated hpast.pos, h2.wellFormed, hname, h2.apart_of_ahead h3⟩

theorem answers_constType {Q : IdlType → Cursor → Prop} (hc : Cut c)
    (h : ∀ t c', Onward c c' → t.IsConst →
      (∀ unsigned, t = .primitive (.integer unsigned .long) {} → Refuses c' ["long"]) → Q t c') :
    Answers c constType Q := by
  refine answers_bind (answers_primitiveType hc (fun p c1 hc1 h1 hlong => ?_)
    fun c1 hc1 h1 hkeywords => ?_)
  · have hon1 : Onward c c1 := ⟨hc1, by rw [h1, List.length_append]; exact Nat.le_add_left _ _⟩
    refine answers_bind (answers_symbol hc1 (fun c2 hc2 h2 => answers_pure ?_)
      fun c2 hc2 _ h2 _ => answers_pure ?_)
    · exact h _ c2 (hon1.trans (onward_of_ahead_cons hc2 h2)) (.primitive p true) (by simp)
    · refine h _ c2 (hon1.trans (onward_of_ahead_eq hc2 h2)) (.primitive p false) ?_
      intro unsigned heq
      obtain rfl : p = .integer unsigned .long := by simpa using heq
      exact (hlong unsigned rfl).of_ahead_eq h2
  · refine answers_bind (answers_expectIdentifier hc1 fun name c2 hc2 hname h2 => ?_)
    have htype : IsTypeName name := by
      refine ⟨hname, fun hmem => hkeywords name hmem ?_⟩
      rw [← h1, h2]
      rfl
    have hon2 := (onward_of_ahead_eq hc1 h1).trans (onward_of_ahead_cons hc2 h2)
    refine answers_bind (answers_symbol hc2 (fun c3 hc3 h3 => answers_pure ?_)
      fun c3 hc3 _ h3 _ => answers_pure ?_)
    · exact h _ c3 (hon2.trans (onward_of_ahead_cons hc3 h3)) (.named true htype) (by simp)
    · exact h _ c3 (hon2.trans (onward_of_ahead_eq hc3 h3)) (.named false htype) (by simp)

theorem commits_const : Commits [["const"]] Const.WellFormed const := by
  refine commits_keyword fun c hc => answers_bind ?_
  refine answers_constType hc fun type c1 h1 htype hlong => answers_bind ?_
  refine answers_expectIdentifier h1.cut fun name c2 hc2 hname h2 => answers_bind ?_
  refine answers_expectSymbol hc2 fun c3 hc3 h3 => answers_bind ?_
  refine (gives_expect gives_constValue hc3).mono fun value c4 h4 => answers_bind ?_
  refine answers_expectSymbol h4.1.cut fun c5 hc5 h5 => answers_pure ⟨_, rfl, ?_, ?_⟩
  · exact (((h1.trans (onward_of_ahead_cons hc2 h2)).trans (onward_of_ahead_cons hc3 h3)).trans
      h4.1).trans (onward_of_ahead_cons hc5 h5)
  · refine ⟨htype, hname, ?_, h4.2.1, h4.2.2⟩
    rintro unsigned rfl rfl
    exact hlong unsigned rfl "long" (by simp) (by rw [h2]; rfl)

/-- The words in front of `attribute`, each of which was looked for in its place. -/
theorem shuns_attribute {isStatic stringifier inherits readonly : Bool} {ts : List Token}
    (h : c.ahead = flagged isStatic "static" ++ (flagged stringifier "stringifier" ++
      (flagged inherits "inherit" ++ (flagged readonly "readonly" ++ ts))))
    (hstatic : isStatic = false → c.ahead.head? ≠ some (word "static"))
    (hstringifier : isStatic = false → stringifier = false →
      c.ahead.head? ≠ some (word "stringifier"))
    (hinherit : inherits = false →
      (flagged readonly "readonly" ++ ts).head? ≠ some (word "inherit"))
    (hreadonly : readonly = false → ts.head? ≠ some (word "readonly"))
    (hattribute : ts.head? ≠ some (word "attribute"))
    (hlone : inherits → isStatic = false ∧ stringifier = false)
    (hone : isStatic → stringifier = false) : Shuns c attributeMemberStarts := by
  have hstatic := fun hx => (hstatic hx).symm
  have hstringifier := fun hx hy => (hstringifier hx hy).symm
  have hinherit := fun hx => (hinherit hx).symm
  have hreadonly := fun hx => (hreadonly hx).symm
  have hattribute := hattribute.symm
  cases ts <;> cases isStatic <;> cases stringifier <;> cases inherits <;> cases readonly <;>
    simp_all [Shuns, attributeMemberStarts, attributeStarts, flagged]

/-- What is said once the words in front of `readonly` are read. -/
theorem answers_attributeRest {isStatic stringifier inherits : Bool} {c3 : Cursor} (hc3 : Cut c3)
    (h3 : c.ahead = flagged isStatic "static" ++ (flagged stringifier "stringifier" ++
      (flagged inherits "inherit" ++ c3.ahead)))
    (hstatic : isStatic = false → c.ahead.head? ≠ some (word "static"))
    (hstringifier : isStatic = false → stringifier = false →
      c.ahead.head? ≠ some (word "stringifier"))
    (hinherit : inherits = false → c3.ahead.head? ≠ some (word "inherit"))
    (hlone : inherits → isStatic = false ∧ stringifier = false)
    (hone : isStatic → stringifier = false) :
    Answers c3 (attributeRest isStatic stringifier inherits) fun o c' =>
      (∀ a, o = some a → Past c c' ∧ a.WellFormed) ∧ (o = none → Shuns c attributeMemberStarts) := by
  refine answers_bind (answers_flag hc3 fun readonly c4 hc4 h4 hreadonly => ?_)
  have hon4 : Onward c c4 := by
    refine ⟨hc4, ?_⟩
    simp only [h3, h4, List.length_append]
    omega
  refine answers_bind (answers_keyword hc4 (fun c5 hc5 h5 => ?_) fun c5 hc5 _ h5 hno => ?_)
  · refine answers_bind (answers_expectType hc5 fun type c6 h6 => ?_)
    split
    · exact answers_fail
    · next hsequence =>
      refine answers_bind (answers_expectIdentifier h6.cut fun name c7 hc7 hname h7 => ?_)
      refine answers_bind (answers_expectSymbol hc7 fun c8 hc8 h8 => answers_pure ⟨?_, by simp⟩)
      rintro _ ⟨⟩
      refine ⟨?_, ?_⟩
      · exact (hon4.past (past_of_ahead_cons hc5 h5)).trans
          ((h6.onward.trans (onward_of_ahead_cons hc7 h7)).trans (onward_of_ahead_cons hc8 h8))
      · exact ⟨h6.wellFormed, by simpa using hsequence, hname, h6.apart_of_ahead h7, hone, hlone⟩
  · refine answers_pure ⟨by simp, fun _ => ?_⟩
    have hreadonly : readonly = false → c4.ahead.head? ≠ some (word "readonly") := by
      rintro rfl
      simpa [h4, flagged] using hreadonly rfl
    rw [h4] at h3 hinherit
    exact shuns_attribute h3 hstatic hstringifier hinherit hreadonly hno hlone hone

theorem commits_attributeMember :
    Commits attributeMemberStarts Attribute.WellFormed attributeMember := by
  rw [attributeMember_eq]
  refine commits_attempt fun c hc => ?_
  refine answers_bind (answers_keyword hc (fun c1 hc1 h1 => ?_) fun c1 hc1 _ h1 hstatic => ?_)
  · refine answers_bind (answers_pure (answers_bind ?_))
    refine answers_flag hc1 fun inherits c3 hc3 h3 hinherit => ?_
    cases inherits with
    | true => exact answers_fail
    | false =>
      have hahead : c1.ahead = c3.ahead := h3
      exact answers_attributeRest hc3 (by rw [h1, hahead]; rfl) (by simp) (by simp)
        (fun _ => hahead ▸ hinherit rfl) (by simp) (by simp)
  · refine answers_bind (answers_flag hc1 fun stringifier c2 hc2 h2 hstringifier => ?_)
    refine answers_bind (answers_flag hc2 fun inherits c3 hc3 h3 hinherit => ?_)
    rw [h1] at h2 hstringifier
    cases inherits with
    | true =>
      cases stringifier with
      | true => exact answers_fail
      | false =>
        exact answers_attributeRest hc3 (by rw [h2, h3]; rfl) (fun _ => hstatic)
          (fun _ => hstringifier) (by simp) (by simp) (by simp)
    | false =>
      have hahead : c2.ahead = c3.ahead := h3
      exact answers_attributeRest hc3 (by rw [h2, hahead]; rfl) (fun _ => hstatic)
        (fun _ => hstringifier) (fun _ => hahead ▸ hinherit rfl) (by simp) (by simp)

theorem commits_iterableKeyword (k : IterableKind) :
    Commits [[k.keyword]] (· = k) (iterableKeyword k) := by
  refine fun c hc => answers_bind (answers_keyword hc (fun c1 hc1 h1 => answers_pure ⟨?_, by simp⟩)
    fun c1 hc1 _ h1 hnot => answers_pure ⟨by simp, fun _ => ⟨hc1, h1, shuns_singleton.mpr hnot⟩⟩)
  rintro _ ⟨⟩
  exact ⟨past_of_ahead_cons hc1 h1, rfl⟩

theorem answers_iterableKind {readonly : Bool} {Q : Option IterableKind → Cursor → Prop}
    (hc : Cut c)
    (hsome : ∀ k c', Past c c' → (readonly → k = .maplike ∨ k = .setlike) → Q (some k) c')
    (hnone : ∀ c', (∀ k : IterableKind, readonly = false ∨ k = .maplike ∨ k = .setlike →
      c.ahead.head? ≠ some (word k.keyword)) → Q none c') : Answers c (iterableKind readonly) Q := by
  have hkinds : ∀ kinds : List IterableKind,
      (kinds.map iterableKeyword : List (Reader (Option IterableKind))) =
        (kinds.map fun k => (iterableKeyword k, [[k.keyword]])).map Prod.fst ++ [] := by simp
  rw [iterableKind, hkinds]
  refine answers_firstOf_commits (R := fun k => readonly → k = .maplike ∨ k = .setlike) ?_ hc hsome
    fun c' hc' _ hshuns => answers_firstOf_nil (hnone c' fun k hk => ?_)
  · intro p hp
    obtain ⟨k, hk, rfl⟩ := List.mem_map.mp hp
    refine fun c hc => (commits_iterableKeyword k c hc).mono fun o c' ho => ⟨?_, ho.2⟩
    rintro k' rfl
    obtain ⟨hpast, rfl⟩ := ho.1 k' rfl
    refine ⟨hpast, ?_⟩
    rintro rfl
    simpa using hk
  · refine shuns_singleton.mp fun ws hws => hshuns ws ?_
    rw [List.flatMap_map, List.mem_flatMap]
    exact ⟨k, by cases readonly <;> cases k <;> simp_all, hws⟩

theorem answers_secondType {kind : IterableKind} (hc : Cut c) :
    Answers c (secondType kind) fun ts c' => Onward c c' ∧ (∀ t ∈ ts, t.WellFormed) ∧
      ((ts.length = 0 ∧ kind.requiresSecond = false) ∨ (ts.length = 1 ∧ kind.allowsSecond)) := by
  rw [secondType]
  split
  · next hallows =>
    have hrest : ∀ (second : Option IdlType) (c1 : Cursor), Onward c c1 →
        (∀ t ∈ second, t.WellFormed) → Answers c1 (do
          if second.isNone && kind.requiresSecond then
            fail (.noSecondType kind)
          else
            return second.toList) fun ts c' => Onward c c' ∧ (∀ t ∈ ts, t.WellFormed) ∧
          ((ts.length = 0 ∧ kind.requiresSecond = false) ∨
            (ts.length = 1 ∧ kind.allowsSecond)) := by
      intro second c1 h1 hsecond
      split
      · exact answers_fail
      · next hnot =>
        refine answers_pure ⟨h1, by simpa using hsecond, ?_⟩
        cases second with
        | none => exact Or.inl ⟨rfl, by simpa using hnot⟩
        | some t => exact Or.inr ⟨rfl, hallows⟩
    refine answers_bind (answers_symbol hc (fun c1 hc1 h1 => ?_) fun c1 hc1 _ h1 _ => ?_)
    · have hon1 := onward_of_ahead_cons hc1 h1
      refine answers_bind (answers_idlType hc1 (fun t c2 h2 => ?_) fun c2 hc2 h2 => ?_)
      · exact hrest (some t) c2 (hon1.trans h2.onward) (by simpa using h2.wellFormed)
      · exact hrest none c2 (hon1.trans (onward_of_ahead_eq hc2 h2)) (by simp)
    · exact answers_bind (answers_pure (hrest none c1 (onward_of_ahead_eq hc1 h1) (by simp)))
  · next hallows =>
    refine answers_pure ⟨hc.onward, by simp, Or.inl ⟨rfl, ?_⟩⟩
    cases kind <;> simp_all [IterableKind.allowsSecond, IterableKind.requiresSecond]

theorem answers_iterableRest {readonly : Bool} {kind : IterableKind} (hc : Cut c)
    (hreadonly : readonly → kind = .maplike ∨ kind = .setlike) :
    Answers c (iterableRest readonly kind) fun i c' => Past c c' ∧ i.WellFormed := by
  refine answers_bind (answers_expectSymbol hc fun c1 hc1 h1 => answers_bind ?_)
  refine answers_expectType hc1 fun first c2 h2 => answers_bind ?_
  refine (answers_secondType h2.cut).mono fun second c3 h3 => answers_bind ?_
  refine answers_expectSymbol h3.1.cut fun c4 hc4 h4 => answers_bind ?_
  refine answers_expectSymbol hc4 fun c5 hc5 h5 => answers_pure ⟨?_, ?_, ?_, hreadonly⟩
  · exact (past_of_ahead_cons hc1 h1).trans (((h2.onward.trans h3.1).trans
      (onward_of_ahead_cons hc4 h4)).trans (onward_of_ahead_cons hc5 h5))
  · simpa using ⟨h2.wellFormed, h3.2.1⟩
  · simpa using h3.2.2

theorem commits_iterable : Commits iterableStarts Iterable.WellFormed iterable := by
  refine commits_attempt fun c hc => answers_bind (answers_flag hc ?_)
  intro readonly c1 hc1 h1 hreadonly
  have hon1 : Onward c c1 := ⟨hc1, by simp only [h1, List.length_append]; omega⟩
  refine answers_bind (answers_iterableKind hc1 (fun k c2 h2 hk => ?_) fun c2 hno => ?_)
  · refine answers_bind ((answers_iterableRest h2.cut hk).mono fun i c3 h3 => ?_)
    refine answers_pure ⟨?_, by simp⟩
    rintro _ ⟨⟩
    exact ⟨(hon1.past h2).trans h3.1.onward, h3.2⟩
  · refine answers_pure ⟨by simp, fun _ => ?_⟩
    have hno := fun k hk => (hno k hk).symm
    have hreadonly := fun hx => (hreadonly hx).symm
    have hmaplike := hno .maplike (by simp)
    have hsetlike := hno .setlike (by simp)
    have hiterable := hno .iterable
    have hlegacy := hno .legacyIterable
    cases hahead : c1.ahead <;> cases readonly <;>
      simp_all [Shuns, iterableStarts, flagged, IterableKind.keyword]

/-- The rest of an operation behind its type, and the words it began with. -/
theorem answers_operationRest {type : IdlType} {c1 : Cursor} (htype : TypeRead c type c1) :
    Answers c1 (operationRest d) fun r c' => Past c1 c' ∧ Signature d type r.1 r.2 ∧
      (∀ ws, Begins ws (opening type r.1) → ws.map word <+: c.ahead) ∧
        ∀ n ∈ r.1, c1.ahead.head? = some (word n) := by
  have hrest : ∀ (name : Option String) (c2 : Cursor), Onward c1 c2 →
      (∀ n ∈ name, IsName n ∧ ∃ rest, c1.ahead = word n :: rest) → Answers c2 (do
        expectSymbol "(" .invalidOperation
        let arguments ← argumentList d
        expectSymbol ")" .unfinishedOperation
        expectSymbol ";" .unfinishedOperation
        return (name, arguments)) fun r c' => Past c1 c' ∧ Signature d type r.1 r.2 ∧
          (∀ ws, Begins ws (opening type r.1) → ws.map word <+: c.ahead) ∧
            ∀ n ∈ r.1, c1.ahead.head? = some (word n) := by
    intro name c2 h2 hname
    refine answers_bind (answers_expectSymbol h2.cut fun c3 hc3 h3 => answers_bind ?_)
    refine (answers_argumentList hc3).mono fun args c4 h4 => answers_bind ?_
    refine answers_expectSymbol h4.1.cut fun c5 hc5 h5 => answers_bind ?_
    refine answers_expectSymbol hc5 fun c6 hc6 h6 => answers_pure ⟨?_, ?_, ?_, ?_⟩
    · exact (h2.past (past_of_ahead_cons hc3 h3)).trans ((h4.1.trans
        (onward_of_ahead_cons hc5 h5)).trans (onward_of_ahead_cons hc6 h6))
    · refine ⟨htype.wellFormed, fun n hn => ?_, h4.2 (past_of_ahead_cons hc5 h5).pos⟩
      obtain ⟨hname, rest, hrest⟩ := hname n hn
      exact ⟨hname, htype.apart_of_ahead hrest⟩
    · intro ws hws
      refine hws.trans ?_
      rw [htype.ahead]
      cases name with
      | none => simp [opening]
      | some n =>
        obtain ⟨-, rest, hrest⟩ := hname n rfl
        rw [hrest]
        exact ⟨rest, by simp [opening]⟩
    · intro n hn
      obtain ⟨-, rest, hrest⟩ := hname n hn
      rw [hrest]
      rfl
  refine answers_bind (answers_identifier htype.cut (fun n c2 hc2 hname h2 => ?_)
    fun c2 hc2 _ h2 => ?_)
  · exact hrest (some n) c2 (onward_of_ahead_cons hc2 h2) (by simpa using ⟨hname, _, h2⟩)
  · exact hrest none c2 (onward_of_ahead_eq hc2 h2) (by simp)

theorem answers_markedOperation {marks : Specials} {isStatic stringifier : Bool}
    {Q : MemberKind → Cursor → Prop} (hc : Cut c)
    (h : ∀ type name args c', Past c c' → Signature d type name args →
      (∀ ws, Begins ws (opening type name) → ws.map word <+: c.ahead) →
      Q (.operation ⟨marks, isStatic, stringifier, some type, name, args⟩) c') :
    Answers c (markedOperation d marks isStatic stringifier) Q := by
  refine answers_bind (answers_expectType hc fun type c1 h1 => answers_bind ?_)
  refine (answers_operationRest h1).mono fun r c2 ⟨hpast, hsignature, hbegins, _⟩ => ?_
  exact answers_pure (h type r.1 r.2 c2 (h1.onward.past hpast) hsignature hbegins)

theorem contains_insert (m : Specials) (s t : Special) :
    (m.insert s).contains t = (m.contains t || s == t) := by
  cases s <;> cases t <;> simp [Specials.insert, Specials.contains]

theorem contains_foldl_insert (ss : List Special) (m : Specials) (t : Special) :
    (ss.foldl Specials.insert m).contains t = (m.contains t || ss.contains t) := by
  induction ss generalizing m with
  | nil => simp
  | cons s ss ih =>
    rw [List.foldl_cons, ih, contains_insert, List.contains_cons, Bool.or_assoc,
      show (s == t) = (t == s) from BEq.comm]

theorem commits_special (s : Special) : Commits [[s.keyword]] (fun _ => True) (special s) := by
  refine fun c hc => answers_bind (answers_keyword hc (fun c1 hc1 h1 => answers_pure ⟨?_, by simp⟩)
    fun c1 hc1 _ h1 hnot => answers_pure ⟨by simp, fun _ => ⟨hc1, h1, shuns_singleton.mpr hnot⟩⟩)
  exact fun _ _ => ⟨past_of_ahead_cons hc1 h1, trivial⟩

/-- First words that are special keywords. -/
def specialStarts : List (List String) :=
  Special.all.map fun s => [s.keyword]

theorem answers_specials (hc : Cut c) :
    Answers c specials fun marks c' => Onward c c' ∧ Shuns c' specialStarts ∧
      (marks.isEmpty → c'.ahead = c.ahead) := by
  refine answers_bind ((answers_many
    (I := fun ss c' => Onward c c' ∧ (ss = [] → c'.ahead = c.ahead))
    (Q := fun ss c' => Onward c c' ∧ (ss = [] → c'.ahead = c.ahead) ∧ Shuns c' specialStarts)
    ⟨hc.onward, fun _ => rfl⟩ ?_).mono ?_)
  · rintro ss c1 ⟨h1, hnil⟩
    have hspecials : (Special.all.map special : List (Reader (Option Special))) =
        (Special.all.map fun s => (special s, [[s.keyword]])).map Prod.fst ++ [] := by simp
    rw [hspecials]
    refine answers_firstOf_commits (R := fun _ => True) ?_ h1.cut (fun s c2 h2 _ => ⟨?_, by simp⟩)
      fun c2 hc2 h2 hshuns => answers_firstOf_nil ⟨by simp, fun _ => ?_⟩
    · intro p hp
      obtain ⟨s, -, rfl⟩ := List.mem_map.mp hp
      exact commits_special s
    · exact fun _ _ => ⟨h1.trans h2.onward, by simp⟩
    · refine ⟨h1.trans (onward_of_ahead_eq hc2 h2), fun h => h2.trans (hnil h), ?_⟩
      exact Shuns.of_ahead_eq hshuns h2.symm
  · rintro ss c1 ⟨h1, hnil, hshuns⟩
    refine answers_pure ⟨h1, hshuns, fun hempty => hnil ?_⟩
    cases ss with
    | nil => rfl
    | cons s ss =>
      have hcontains := contains_foldl_insert (s :: ss) {} s
      have hmem : s ∈ ((s :: ss).foldl Specials.insert {}).toList := by
        refine List.mem_filter.mpr ⟨by cases s <;> simp [Special.all], ?_⟩
        rw [hcontains]
        simp
      rw [Specials.isEmpty, List.isEmpty_iff] at hempty
      rw [hempty] at hmem
      cases hmem

theorem answers_callAhead {Q : Bool → Cursor → Prop} (h : ∀ b, Q b c) : Answers c callAhead Q := by
  have hset : ∀ {β : Type} (p : Reader β) (r : β → Reader Bool) (c1 : Cursor),
      (∀ b c2, Answers c2 (r b) Q) → Answers c1 (p >>= r) Q := by
    intro β p r c1 hr
    exact answers_bind fun b c2 _ => hr b c2
  refine answers_bind (answers_get (hset _ _ _ fun _ c1 => hset _ _ _ fun b c2 => ?_))
  exact answers_bind (answers_set (answers_pure (h b)))

theorem answers_iteratorObject (hc : Cut c) :
    Answers c iteratorObject fun o c' => Onward c c' ∧ ∀ n, o = .named n → IsName n := by
  refine answers_bind (answers_keyword hc (fun c1 hc1 h1 => ?_) fun c1 hc1 _ h1 _ => ?_)
  · exact answers_pure ⟨onward_of_ahead_cons hc1 h1, by simp⟩
  · have hon1 := onward_of_ahead_eq hc1 h1
    refine answers_bind (answers_symbol hc1 (fun c2 hc2 h2 => ?_) fun c2 hc2 _ h2 _ => ?_)
    · refine answers_bind (answers_expectIdentifier hc2 fun n c3 hc3 hn h3 => answers_pure ⟨?_, ?_⟩)
      · exact (hon1.trans (onward_of_ahead_cons hc2 h2)).trans (onward_of_ahead_cons hc3 h3)
      · rintro _ ⟨⟩
        exact hn
    · exact answers_pure ⟨hon1.trans (onward_of_ahead_eq hc2 h2), by simp⟩

theorem answers_plainOperation (hc : Cut c) (hs : Shuns c (memberStarts d)) :
    Answers c (plainOperation d) fun o c' => ∀ k, o = some k → Past c c' ∧ k.InInterface d := by
  have hnone : ∀ k c', (none : Option MemberKind) = some k → Past c c' ∧ k.InInterface d := by simp
  refine answers_attempt ?_
  refine answers_bind (answers_idlType hc (fun type c1 h1 => ?_) fun c1 _ _ =>
    answers_pure ⟨by simp, fun _ => fun k => hnone k c⟩)
  refine answers_bind (answers_keyword h1.cut (fun c2 hc2 h2 => ?_) fun c2 hc2 _ h2 hiterator => ?_)
  · refine answers_bind (answers_bind ((answers_iteratorObject hc2).mono fun o c3 h3 => ?_))
    refine answers_bind (answers_expectSymbol h3.1.cut fun c4 hc4 h4 => answers_pure ?_)
    refine answers_pure ⟨?_, by simp⟩
    rintro _ ⟨⟩ _ ⟨⟩
    refine ⟨?_, h1.wellFormed, h3.2, fun ws hws hbegins => hs ws hws (hbegins.trans ?_)⟩
    · exact (h1.onward.past (past_of_ahead_cons hc2 h2)).trans
        (h3.1.trans (onward_of_ahead_cons hc4 h4))
    · rw [h1.ahead, h2]
      exact ⟨c2.ahead, by simp [opening]⟩
  · have hread : TypeRead c type c2 :=
      ⟨hc2, h1.wellFormed, by rw [h1.ahead, h2], fun u hu => (h1.apart u hu).of_ahead_eq h2⟩
    refine answers_bind (answers_callAhead fun isCall => ?_)
    cases isCall with
    | false => exact answers_pure ⟨by simp, fun _ => fun k => hnone k c⟩
    | true =>
      refine answers_bind ((answers_operationRest hread).mono ?_)
      rintro ⟨name, args⟩ c3 ⟨hpast, hsignature, hbegins, hname⟩
      refine answers_pure ⟨?_, by simp⟩
      rintro _ ⟨⟩ _ ⟨⟩
      refine ⟨hread.onward.past hpast, ?_⟩
      refine .plain hsignature (fun ws hws hb => hs ws hws (hbegins ws hb)) ?_
      rintro rfl
      have hhead := hname "iterator" rfl
      rw [h2] at hhead
      exact hiterator hhead

/-- What has not been taken for another member is read as an operation. -/
theorem answers_operation (hc : Cut c) (hs : Shuns c (declarationStarts d)) :
    Answers c (operation d) fun o c' => ∀ k, o = some k → Past c c' ∧ k.InInterface d := by
  have hattribute : ∀ w, w = "static" ∨ w = "stringifier" →
      Shuns c (attributeStarts.map (w :: ·)) := by
    intro w hw ws hws
    refine hs ws ?_
    rcases hw with rfl | rfl <;> simp_all [declarationStarts, attributeMemberStarts]
  refine answers_bind ((answers_specials hc).mono ?_)
  rintro marks c1 ⟨h1, hspecials, hempty⟩
  split
  · next hmarks =>
    refine answers_bind (answers_markedOperation h1.cut ?_)
    intro type name args c2 hpast hsignature hbegins
    refine answers_pure ?_
    rintro _ ⟨⟩
    refine ⟨h1.past hpast, .marked (by simpa using hmarks) hsignature fun s hb => ?_⟩
    have hmem : [s.keyword] ∈ specialStarts := by
      cases s <;> simp [specialStarts, Special.all, Special.keyword]
    exact hspecials _ hmem (hbegins _ (by rw [opening]; exact hb.append _))
  · next hmarks =>
    have hahead := hempty (by simpa using hmarks)
    refine answers_bind (answers_keyword h1.cut (fun c2 hc2 h2 => ?_) fun c2 hc2 _ h2 hstatic => ?_)
    · rw [hahead] at h2
      refine answers_bind (answers_markedOperation hc2 ?_)
      intro type name args c3 hpast hsignature hbegins
      refine answers_pure ?_
      rintro _ ⟨⟩
      have hshuns := (hattribute "static" (by simp)).tail h2
      exact ⟨(past_of_ahead_cons hc2 h2).trans hpast.onward,
        .static hsignature fun ws hws hb => hshuns ws hws (hbegins ws hb)⟩
    · rw [hahead] at h2 hstatic
      refine answers_bind (answers_keyword hc2 (fun c3 hc3 h3 => ?_)
        fun c3 hc3 _ h3 hstringifier => ?_)
      · rw [h2] at h3
        refine answers_bind (answers_bind (answers_symbol hc3 (fun c4 hc4 h4 => ?_)
          fun c4 hc4 _ h4 _ => ?_))
        · refine answers_pure (answers_pure ?_)
          rintro _ ⟨⟩
          exact ⟨(past_of_ahead_cons hc3 h3).trans (onward_of_ahead_cons hc4 h4), .bare⟩
        · refine answers_markedOperation hc4 ?_
          intro type name args c5 hpast hsignature hbegins
          refine answers_pure ?_
          rintro _ ⟨⟩
          have hshuns := (hattribute "stringifier" (by simp)).tail h3
          refine ⟨(past_of_ahead_cons hc3 h3).trans
            ((onward_of_ahead_eq hc4 h4).trans hpast.onward), ?_⟩
          refine .stringifier hsignature fun ws hws hb => hshuns ws hws ?_
          rw [← h4]
          exact hbegins ws hb
      · rw [h2] at h3 hstringifier
        have hmarks : Shuns c ([["static"]] ++ [["stringifier"]]) :=
          (shuns_singleton.mpr hstatic).append (shuns_singleton.mpr hstringifier)
        have hshuns : Shuns c3 (memberStarts d) :=
          ((hs.append hmarks).append (hspecials.of_ahead_eq hahead)).of_ahead_eq h3.symm
        refine (answers_plainOperation hc3 hshuns).mono fun o c4 h4 k hk => ?_
        exact ⟨(onward_of_ahead_eq hc3 h3).past (h4 k hk).1, (h4 k hk).2⟩

theorem answers_patternNames {inheritMore : Bool} (hc : Cut c) :
    Answers c (patternNames inheritMore) fun ns c' => Onward c c' ∧
      PatternNames (if inheritMore then ["getter"] else ["getter", "inherit"]) ns := by
  refine answers_bind (answers_identifier hc (fun first c1 hc1 hfirst h1 => ?_)
    fun c1 hc1 _ h1 => answers_pure ⟨onward_of_ahead_eq hc1 h1, by simp, by simp⟩)
  have hon1 := onward_of_ahead_cons hc1 h1
  by_cases hmore : first = "getter" ∨ (first = "inherit" ∧ !inheritMore)
  · simp only [if_pos hmore]
    exact answers_pure ⟨hon1, by simpa using hfirst, by simp⟩
  · simp only [if_neg hmore]
    refine answers_bind ((answers_moreNames hc1).mono fun ns c2 h2 => answers_pure ?_)
    refine ⟨hon1.trans h2.1, by simpa using ⟨hfirst, h2.2⟩, ?_⟩
    cases inheritMore <;> simp_all

theorem answers_serializerPattern (hc : Cut c) :
    Answers c serializerPattern fun s c' => Onward c c' ∧ s.WellFormed d := by
  refine answers_bind (answers_symbol hc (fun c1 hc1 h1 => ?_) fun c1 hc1 _ h1 _ => ?_)
  · refine answers_bind ((answers_patternNames hc1).mono fun ns c2 h2 => answers_bind ?_)
    refine answers_expectSymbol h2.1.cut fun c3 hc3 h3 => answers_pure ⟨?_, h2.2⟩
    exact ((onward_of_ahead_cons hc1 h1).trans h2.1).trans (onward_of_ahead_cons hc3 h3)
  · have hon1 := onward_of_ahead_eq hc1 h1
    refine answers_bind (answers_symbol hc1 (fun c2 hc2 h2 => ?_) fun c2 hc2 _ h2 _ => ?_)
    · refine answers_bind ((answers_patternNames hc2).mono fun ns c3 h3 => answers_bind ?_)
      refine answers_expectSymbol h3.1.cut fun c4 hc4 h4 => answers_pure ⟨?_, h3.2⟩
      exact ((hon1.trans (onward_of_ahead_cons hc2 h2)).trans h3.1).trans
        (onward_of_ahead_cons hc4 h4)
    · refine answers_bind (answers_expectIdentifier hc2 fun n c3 hc3 hn h3 => answers_pure ⟨?_, hn⟩)
      exact (hon1.trans (onward_of_ahead_eq hc2 h2)).trans (onward_of_ahead_cons hc3 h3)

theorem commits_serializer : Commits [["serializer"]] (fun s => s.WellFormed d) (serializer d) := by
  refine commits_keyword fun c hc => ?_
  refine answers_bind (answers_symbol hc (fun c1 hc1 h1 => ?_) fun c1 hc1 _ h1 _ => ?_)
  · exact answers_pure ⟨_, rfl, onward_of_ahead_cons hc1 h1, trivial⟩
  · have hon1 := onward_of_ahead_eq hc1 h1
    refine answers_bind (answers_symbol hc1 (fun c2 hc2 h2 => ?_) fun c2 hc2 _ h2 _ => ?_)
    · refine answers_bind ((answers_serializerPattern (d := d) hc2).mono fun s c3 h3 => answers_bind ?_)
      refine answers_expectSymbol h3.1.cut fun c4 hc4 h4 => answers_pure ⟨_, rfl, ?_, h3.2⟩
      exact ((hon1.trans (onward_of_ahead_cons hc2 h2)).trans h3.1).trans
        (onward_of_ahead_cons hc4 h4)
    · refine answers_bind (answers_expectType hc2 fun type c3 h3 => answers_bind ?_)
      refine (answers_operationRest h3).mono fun r c4 ⟨hpast, hsignature, _⟩ => ?_
      refine answers_pure ⟨_, rfl, ?_, hsignature⟩
      exact ((hon1.trans (onward_of_ahead_eq hc2 h2)).trans h3.onward).trans hpast.onward

theorem commits_nestedTypedef :
    Commits (if d.allowNestedTypedefs then [["typedef"]] else [])
      (fun t => d.allowNestedTypedefs ∧ t.WellFormed d) (nestedTypedef d) := by
  rw [nestedTypedef]
  split
  · next h =>
    exact fun c hc => (commits_typedef c hc).mono fun o c' ho =>
      ⟨fun t ht => ⟨(ho.1 t ht).1, h, (ho.1 t ht).2⟩, ho.2⟩
  · exact fun c hc => answers_pure ⟨by simp, fun _ => ⟨hc, rfl, by simp [Shuns]⟩⟩

/-- What is said of the members of a body, each of which has its kind read by the same reader. -/
def ReadsMember (P : MemberKind → Prop) (r : Reader MemberKind) : Prop :=
  ∀ c, Cut c → Answers c r fun k c' => Past c c' ∧ P k

theorem readsMember_inInterface :
    ReadsMember (MemberKind.InInterface d) (interfaceMember d) := by
  refine fun c hc => answers_expect ?_
  refine answers_firstOf_commits (R := MemberKind.InInterface d)
    (l := [(mapped .const const, [["const"]]),
      (mapped .typedef (nestedTypedef d), if d.allowNestedTypedefs then [["typedef"]] else []),
      (mapped .iterable iterable, iterableStarts),
      (mapped .serializer (serializer d), [["serializer"]]),
      (mapped .attribute attributeMember, attributeMemberStarts)])
    (q := [operation d]) ?_ hc ?_ fun c1 hc1 h1 hshuns => answers_firstOf ?_
  · simp only [List.forall_mem_cons, List.not_mem_nil, false_implies, implies_true, and_true]
    exact ⟨commits_mapped commits_const, commits_mapped commits_nestedTypedef,
      commits_mapped commits_iterable, commits_mapped commits_serializer,
      commits_mapped commits_attributeMember⟩
  · rintro k c1 hpast hk _ ⟨⟩
    exact ⟨hpast, hk⟩
  · have hdeclarations : Shuns c1 (declarationStarts d) := by
      intro ws hws
      refine (hshuns.of_ahead_eq h1.symm) ws ?_
      simp only [declarationStarts, List.mem_append] at hws
      simp only [List.flatMap_cons, List.flatMap_nil, List.mem_append]
      grind
    refine (answers_operation hc1 hdeclarations).mono fun o c2 h2 => ⟨?_, ?_⟩
    · rintro k rfl _ ⟨⟩
      exact ⟨(onward_of_ahead_eq hc1 h1).past (h2 k rfl).1, (h2 k rfl).2⟩
    · rintro rfl
      exact answers_firstOf_nil (by simp)

theorem readsMember_inException : ReadsMember MemberKind.InException exceptionMember := by
  refine fun c hc => answers_bind ((commits_const c hc).mono ?_)
  rintro (_ | x) c1 ⟨hsome, hnone⟩
  · obtain ⟨hc1, h1, hshuns⟩ := hnone rfl
    refine answers_bind (answers_idlType hc1 (fun type c2 h2 => ?_) fun c2 hc2 _ => ?_)
    · refine answers_bind (answers_identifier h2.cut (fun name c3 hc3 hname h3 => ?_)
        fun _ _ _ _ => answers_fail)
      refine answers_bind (answers_expectSymbol hc3 fun c4 hc4 h4 => answers_pure ⟨?_, ?_⟩)
      · exact (((onward_of_ahead_eq hc1 h1).trans h2.onward).past
          (past_of_ahead_cons hc3 h3)).trans (onward_of_ahead_cons hc4 h4)
      · refine ⟨h2.wellFormed, hname, h2.apart_of_ahead h3, rfl, rfl, fun hbegins => ?_⟩
        exact hshuns ["const"] (by simp) (h1 ▸ h2.begins hbegins)
    · exact answers_bind (answers_identifier hc2 (fun _ _ _ _ _ => answers_fail)
        fun _ _ _ _ => answers_fail)
  · exact answers_pure (hsome x rfl)

theorem readsMember_inDictionary : ReadsMember MemberKind.InDictionary dictionaryField := by
  refine fun c hc => answers_bind (answers_flag hc fun required c1 hc1 h1 hrequired => ?_)
  have hon1 : Onward c c1 := ⟨hc1, by simp only [h1, List.length_append]; omega⟩
  refine answers_bind (answers_expectType hc1 fun type c2 h2 => answers_bind ?_)
  refine answers_expectIdentifier h2.cut fun name c3 hc3 hname h3 => answers_bind ?_
  refine (answers_defaultValue hc3).mono fun default c4 ⟨h4, hdefault, _⟩ => ?_
  split
  · exact answers_fail
  · next hnot =>
    refine answers_bind (answers_expectSymbol h4.cut fun c5 hc5 h5 => answers_pure ⟨?_, ?_⟩)
    · exact ((hon1.trans h2.onward).past (past_of_ahead_cons hc3 h3)).trans
        (h4.trans (onward_of_ahead_cons hc5 h5))
    · refine ⟨h2.wellFormed, hname, h2.apart_of_ahead h3, hdefault, ?_, ?_⟩
      · rintro (rfl : required = true)
        simpa using hnot
      · rintro (rfl : required = false) hbegins
        have hprefix := h2.begins hbegins
        rw [show c1.ahead = c.ahead from h1.symm] at hprefix
        exact shuns_singleton.mpr (hrequired rfl) ["required"] (by simp) hprefix

/-- A member with what stands in front of it. -/
theorem answers_member {P : MemberKind → Prop} {kind : Reader MemberKind}
    (hkind : ReadsMember P kind) {leading : List Trivia} (hc : Cut c)
    (hleading : 0 < c.ahead.length → d.Keeps leading) :
    Answers c (member d kind leading) fun m c' => Past c c' ∧ m.WellFormed d P := by
  refine answers_annotation (answers_extendedAttributes hc) fun es items c1 h1 hannotated => ?_
  refine answers_bind ((hkind c1 h1.cut).mono fun k c2 h2 => answers_pure ?_)
  have hpast := h1.past h2.1
  exact ⟨hpast, hannotated h2.1.pos, hleading hpast.pos, h2.2⟩

end WebIdl.Grammar

import WebIdl.Grammar.Types
import WebIdl.Proofs.Answers.Rules
import WebIdl.Proofs.Reading.Arguments

/-!
# Types that are read

A type that is read is well-formed, and the tokens that were read for it are those it is written
with. What a production refuses is told by the next token.
-/

namespace WebIdl.Grammar

open Token Cursor Spelling

variable {c : Cursor}

theorem ofSuffix_makeArray (s : Suffix) :
    ofSuffix s.makeArray = ofSuffix s ++ [mark "[", mark "]"] := by
  obtain ⟨nullable, array⟩ := s
  simp [Suffix.makeArray, ofSuffix]

theorem ofSuffix_makeNullable {s : Suffix} (h : s.nullable = false) :
    ofSuffix s.makeNullable = ofSuffix s ++ [mark "?"] := by
  obtain ⟨nullable, array⟩ := s
  obtain rfl : nullable = false := h
  simp [Suffix.makeNullable, ofSuffix]

theorem answers_suffixes {Q : Suffix → Cursor → Prop} (hc : Cut c)
    (h : ∀ s c', Cut c' → c.ahead = ofSuffix s ++ c'.ahead → Q s c') : Answers c suffixes Q := by
  have hstep : ∀ s c1, Cut c1 ∧ c.ahead = ofSuffix s ++ c1.ahead →
      Answers c1 (moreSuffix s) fun o c' =>
        (∀ t, o = some t → Cut c' ∧ c.ahead = ofSuffix t ++ c'.ahead) ∧
          (o = none → Cut c' ∧ c.ahead = ofSuffix s ++ c'.ahead) := by
    rintro s c1 ⟨hc1, h1⟩
    refine answers_bind (answers_symbol hc1 (fun c2 hc2 h2 => ?_) fun c2 hc2 _ h2 _ => ?_)
    · cases hs : s.nullable with
      | true => exact answers_fail
      | false =>
        refine answers_pure ⟨?_, by simp⟩
        rintro _ ⟨⟩
        exact ⟨hc2, by rw [h1, h2, ofSuffix_makeNullable hs]; simp⟩
    · refine answers_bind (answers_symbol hc2 (fun c3 hc3 h3 => ?_) fun c3 hc3 _ h3 _ => ?_)
      · refine answers_bind (answers_expectSymbol hc3 fun c4 hc4 h4 => answers_pure ⟨?_, by simp⟩)
        rintro _ ⟨⟩
        exact ⟨hc4, by rw [h1, ← h2, h3, h4, ofSuffix_makeArray]; simp⟩
      · exact answers_pure ⟨by simp, fun _ => ⟨hc3, by rw [h1, h3, h2]⟩⟩
  rw [suffixes, iterate]
  refine answers_bounded fun n => ?_
  exact answers_iterateWithin (I := fun s c1 => Cut c1 ∧ c.ahead = ofSuffix s ++ c1.ahead)
    (fun s c1 h1 => h s c1 h1.1 h1.2) (fun s c1 hI => (hstep s c1 hI).mono fun o c' ho =>
      ⟨ho.1, fun hnone => h s c' (ho.2 hnone).1 (ho.2 hnone).2⟩) ⟨hc, rfl⟩

/-- The next token is none of these words. -/
def Refuses (c : Cursor) (ws : List String) : Prop :=
  ∀ w ∈ ws, c.ahead.head? ≠ some (word w)

/-- What is said of the primitives that a production reads, and of the words it refuses. -/
def PrimitiveRead (c : Cursor) (ws : List String) (o : Option Primitive) (c' : Cursor) : Prop :=
  Cut c' ∧ match o with
    | some p => c.ahead = p.words.map word ++ c'.ahead ∧
        ∀ unsigned, p = .integer unsigned .long → Refuses c' ["long"]
    | none => c'.ahead = c.ahead ∧ Refuses c ws

theorem answers_integerType (hc : Cut c) :
    Answers c integerType (PrimitiveRead c ["unsigned", "short", "long"]) := by
  have hrest : ∀ (unsigned : Bool) (c1 : Cursor), Cut c1 →
      c.ahead = (if unsigned then [word "unsigned"] else []) ++ c1.ahead →
      (unsigned = false → Refuses c ["unsigned"]) → Answers c1 (do
        if ← keyword "short" then
          return some (.integer unsigned .short)
        else if ← keyword "long" then
          let double ← keyword "long"
          return some (.integer unsigned (if double then .longLong else .long))
        else if unsigned then
          fail .incompleteInteger
        else
          return none) (PrimitiveRead c ["unsigned", "short", "long"]) := by
    intro unsigned c1 hc1 h1 hunsigned
    refine answers_bind (answers_keyword hc1 (fun c2 hc2 h2 => ?_) fun c2 hc2 _ h2 hshort => ?_)
    · refine answers_pure ⟨hc2, ?_, by simp⟩
      rw [h1, h2]
      cases unsigned <;> rfl
    · refine answers_bind (answers_keyword hc2 (fun c3 hc3 h3 => ?_) fun c3 hc3 _ h3 hlong => ?_)
      · refine answers_bind (answers_keyword hc3 (fun c4 hc4 h4 => ?_) fun c4 hc4 _ h4 hdouble => ?_)
        · refine answers_pure ⟨hc4, ?_, by simp⟩
          rw [h1, ← h2, h3, h4]
          cases unsigned <;> rfl
        · refine answers_pure ⟨hc4, ?_, fun _ _ => by simpa [Refuses, h4] using hdouble⟩
          rw [h1, ← h2, h3, h4]
          cases unsigned <;> rfl
      · cases unsigned with
        | true => exact answers_fail
        | false =>
          have hahead : c1.ahead = c.ahead := by rw [h1]; rfl
          refine answers_pure ⟨hc3, by rw [h3, h2, hahead], ?_⟩
          rw [h2, hahead] at hlong
          rw [hahead] at hshort
          simpa [Refuses] using ⟨by simpa [Refuses] using hunsigned rfl, hshort, hlong⟩
  refine answers_bind (answers_keyword hc (fun c1 hc1 h1 => ?_) fun c1 hc1 _ h1 hnot => ?_)
  · exact hrest true c1 hc1 h1 (by simp)
  · exact hrest false c1 hc1 h1.symm fun _ => by simpa [Refuses] using hnot

theorem answers_floatType (hc : Cut c) :
    Answers c floatType (PrimitiveRead c ["unrestricted", "float", "double"]) := by
  have hrest : ∀ (unrestricted : Bool) (c1 : Cursor), Cut c1 →
      c.ahead = (if unrestricted then [word "unrestricted"] else []) ++ c1.ahead →
      (unrestricted = false → Refuses c ["unrestricted"]) → Answers c1 (do
        if ← keyword "float" then
          return some (.float unrestricted)
        else if ← keyword "double" then
          return some (.double unrestricted)
        else if unrestricted then
          fail .incompleteFloat
        else
          return none) (PrimitiveRead c ["unrestricted", "float", "double"]) := by
    intro unrestricted c1 hc1 h1 hunrestricted
    refine answers_bind (answers_keyword hc1 (fun c2 hc2 h2 => ?_) fun c2 hc2 _ h2 hfloat => ?_)
    · refine answers_pure ⟨hc2, ?_, by simp⟩
      rw [h1, h2]
      cases unrestricted <;> rfl
    · refine answers_bind (answers_keyword hc2 (fun c3 hc3 h3 => ?_) fun c3 hc3 _ h3 hdouble => ?_)
      · refine answers_pure ⟨hc3, ?_, by simp⟩
        rw [h1, ← h2, h3]
        cases unrestricted <;> rfl
      · cases unrestricted with
        | true => exact answers_fail
        | false =>
          have hahead : c1.ahead = c.ahead := by rw [h1]; rfl
          refine answers_pure ⟨hc3, by rw [h3, h2, hahead], ?_⟩
          rw [h2, hahead] at hdouble
          rw [hahead] at hfloat
          simpa [Refuses] using ⟨by simpa [Refuses] using hunrestricted rfl, hfloat, hdouble⟩
  refine answers_bind (answers_keyword hc (fun c1 hc1 h1 => ?_) fun c1 hc1 _ h1 hnot => ?_)
  · exact hrest true c1 hc1 h1 (by simp)
  · exact hrest false c1 hc1 h1.symm fun _ => by simpa [Refuses] using hnot

theorem answers_plainType {w : String} {p : Primitive} (hp : p.words = [w])
    (hlong : ∀ unsigned, p ≠ .integer unsigned .long) (hc : Cut c) :
    Answers c (plainType w p) (PrimitiveRead c [w]) := by
  refine answers_bind (answers_keyword hc (fun c1 hc1 h1 => answers_pure ⟨hc1, ?_, ?_⟩)
    fun c1 hc1 _ h1 hnot => answers_pure ⟨hc1, h1, by simpa [Refuses] using hnot⟩)
  · rw [hp, h1]
    rfl
  · exact fun unsigned heq => absurd heq (hlong unsigned)

/-- Alternatives refuse the words that each of them refuses. -/
theorem answers_primitives {l : List (Reader (Option Primitive) × List String)}
    (hps : ∀ p ∈ l, ∀ c, Cut c → Answers c p.1 (PrimitiveRead c p.2)) (hc : Cut c) :
    Answers c (firstOf (l.map Prod.fst)) (PrimitiveRead c (l.flatMap Prod.snd)) := by
  induction l generalizing c with
  | nil => exact answers_firstOf_nil ⟨hc, rfl, by simp [Refuses]⟩
  | cons p ps ih =>
    refine answers_firstOf ((hps p List.mem_cons_self c hc).mono ?_)
    rintro o c1 ⟨hc1, h1⟩
    refine ⟨?_, ?_⟩
    · rintro a rfl
      exact ⟨hc1, h1⟩
    · rintro rfl
      obtain ⟨hahead, hrefuses⟩ := h1
      refine (ih (fun q hq => hps q (List.mem_cons_of_mem p hq)) hc1).mono ?_
      rintro (_ | a) c2 ⟨hc2, h2⟩
      · refine ⟨hc2, h2.1.trans hahead, fun w hw => ?_⟩
        rcases List.mem_append.mp hw with hw | hw
        · exact hrefuses w hw
        · rw [← hahead]
          exact h2.2 w hw
      · exact ⟨hc2, by rw [← hahead]; exact h2.1, h2.2⟩

theorem answers_primitiveType {Q : Option Primitive → Cursor → Prop} (hc : Cut c)
    (hsome : ∀ p c', Cut c' → c.ahead = p.words.map word ++ c'.ahead →
      (∀ unsigned, p = .integer unsigned .long → Refuses c' ["long"]) → Q (some p) c')
    (hnone : ∀ c', Cut c' → c'.ahead = c.ahead → Refuses c Primitive.keywords → Q none c') :
    Answers c primitiveType Q := by
  have hplain : ∀ {w : String} {p : Primitive}, p.words = [w] →
      (∀ unsigned, p ≠ .integer unsigned .long) →
      ∀ c, Cut c → Answers c (plainType w p) (PrimitiveRead c [w]) :=
    fun hp hlong _ hc => answers_plainType hp hlong hc
  have hall := answers_primitives (c := c)
    (l := [(integerType, ["unsigned", "short", "long"]),
      (floatType, ["unrestricted", "float", "double"]), (plainType "boolean" .boolean, ["boolean"]),
      (plainType "byte" .byte, ["byte"]), (plainType "octet" .octet, ["octet"])])
    (by
      simp only [List.forall_mem_cons, List.not_mem_nil, false_implies, implies_true, and_true]
      exact ⟨fun _ => answers_integerType, fun _ => answers_floatType, hplain rfl (by simp),
        hplain rfl (by simp), hplain rfl (by simp)⟩) hc
  refine hall.mono ?_
  rintro (_ | p) c' ⟨hc', h⟩
  · exact hnone c' hc' h.1 h.2
  · exact hsome p c' hc' h.1 h.2

/-- What is said of a type that was read. The name behind it is no part of it. -/
structure TypeRead (c : Cursor) (t : IdlType) (c' : Cursor) : Prop where
  cut : Cut c'
  wellFormed : t.WellFormed
  ahead : c.ahead = solids (ofType t) ++ c'.ahead
  apart : ∀ unsigned, t = .primitive (.integer unsigned .long) {} → Refuses c' ["long"]

def TypesRead (r : Reader (Option IdlType)) : Prop :=
  ∀ c, Cut c → Answers c r fun o c' =>
    (∀ t, o = some t → TypeRead c t c') ∧ (o = none → Cut c' ∧ c'.ahead = c.ahead)

theorem solids_words (ws : List String) : solids (words ws) = ws.map word := by
  cases ws with
  | nil => rfl
  | cons w ws =>
    rw [words, List.map_cons, joined_cons, List.flatMap_map]
    induction ws with
    | nil => rfl
    | cons v ws ih => simpa using ih

theorem Refuses.of_ahead_eq {ws : List String} {c' : Cursor} (h : Refuses c ws)
    (heq : c'.ahead = c.ahead) : Refuses c' ws := by
  rw [Refuses, heq]
  exact h

theorem answers_namedType {inner : Reader (Option IdlType)} (hinner : TypesRead inner)
    {name : String} {c1 : Cursor} (hname : IsTypeName name) (hc : Cut c1)
    (h : c.ahead = word name :: c1.ahead) :
    Answers c1 (namedType inner name) (TypeRead c) := by
  refine answers_bind (answers_symbol hc (fun c2 hc2 h2 => ?_) fun c2 hc2 _ h2 _ => ?_)
  · refine answers_bind (answers_expect ((hinner c2 hc2).mono fun o c3 ho t hsome => ?_))
    obtain ⟨hc3, ht, h3, -⟩ := ho.1 t hsome
    refine answers_bind (answers_expectSymbol hc3 fun c4 hc4 h4 => answers_bind ?_)
    refine answers_suffixes hc4 fun s c5 hc5 h5 => answers_pure ⟨hc5, .generic s hname ht, ?_, ?_⟩
    · rw [h, h2, h3, h4, h5]
      simp [ofType, solids_ofSuffix]
    · simp
  · refine answers_bind (answers_suffixes hc2 fun s c3 hc3 h3 => ?_)
    split
    · exact answers_fail
    · next hany =>
      refine answers_pure ⟨hc3, .named hname hany, ?_, by simp⟩
      rw [h, ← h2, h3]
      simp [ofType, solids_ofSuffix]

theorem answers_singleType {inner : Reader (Option IdlType)} (hinner : TypesRead inner) :
    TypesRead (singleType inner) := by
  intro c hc
  refine answers_bind (answers_primitiveType hc (fun p c1 hc1 h1 hlong => ?_)
    fun c1 hc1 h1 hkeywords => ?_)
  · refine answers_bind (answers_suffixes hc1 fun s c2 hc2 h2 => answers_pure ⟨?_, by simp⟩)
    rintro _ ⟨⟩
    refine ⟨hc2, .primitive p s, ?_, fun unsigned heq => ?_⟩
    · rw [h1, h2]
      simp [ofType, solids_words, solids_ofSuffix]
    · obtain ⟨rfl, rfl⟩ : p = .integer unsigned .long ∧ s = {} := by simpa using heq
      exact (hlong unsigned rfl).of_ahead_eq h2.symm
  · refine answers_bind (answers_identifier hc1 (fun name c2 hc2 hname h2 => ?_)
      fun c2 hc2 _ h2 => answers_pure ⟨by simp, fun _ => ⟨hc2, h2.trans h1⟩⟩)
    have hahead : c.ahead = word name :: c2.ahead := by rw [← h1, h2]
    have htype : IsTypeName name := by
      refine ⟨hname, fun hmem => hkeywords name hmem ?_⟩
      rw [hahead]
      rfl
    refine answers_bind ((answers_namedType hinner htype hc2 hahead).mono fun t c3 ht => ?_)
    refine answers_pure ⟨?_, by simp⟩
    rintro _ ⟨⟩
    exact ht

theorem answers_unionType {inner : Reader (Option IdlType)} (hinner : TypesRead inner) :
    TypesRead (unionType inner) := by
  intro c hc
  refine answers_bind (answers_symbol hc (fun c1 hc1 h1 => ?_) fun c1 hc1 _ h1 _ =>
    answers_pure ⟨by simp, fun _ => ⟨hc1, h1⟩⟩)
  refine answers_bind (answers_expect ((hinner c1 hc1).mono fun o c2 ho t hsome => ?_))
  obtain ⟨hc2, ht, h2, -⟩ := ho.1 t hsome
  refine answers_bind ((answers_many
    (I := fun us c3 => Cut c3 ∧ (∀ u ∈ us, u.WellFormed) ∧
      c2.ahead = solids (us.flatMap alternative) ++ c3.ahead)
    (Q := fun us c3 => Cut c3 ∧ (∀ u ∈ us, u.WellFormed) ∧
      c2.ahead = solids (us.flatMap alternative) ++ c3.ahead)
    ⟨hc2, by simp, rfl⟩ ?_).mono ?_)
  · rintro us c3 ⟨hc3, hus, h3⟩
    refine answers_bind (answers_keyword hc3 (fun c4 hc4 h4 => ?_) fun c4 hc4 _ h4 _ =>
      answers_pure ⟨by simp, fun _ => ⟨hc4, hus, by rw [h3, h4]⟩⟩)
    refine answers_bind (answers_expect ((hinner c4 hc4).mono fun o c5 ho u hsome => ?_))
    obtain ⟨hc5, hu, h5, -⟩ := ho.1 u hsome
    refine answers_pure ⟨?_, by simp⟩
    rintro _ ⟨⟩
    refine ⟨hc5, by simpa [or_imp, forall_and] using ⟨hus, hu⟩, ?_⟩
    rw [h3, h4, h5]
    simp [alternative]
  · rintro us c3 ⟨hc3, hus, h3⟩
    refine answers_bind (answers_expectSymbol hc3 fun c4 hc4 h4 => ?_)
    split
    · exact answers_fail
    · next hne =>
      refine answers_bind (answers_suffixes hc4 fun s c5 hc5 h5 => answers_pure ⟨?_, by simp⟩)
      rintro _ ⟨⟩
      refine ⟨hc5, .union s (by simpa using ⟨ht, hus⟩) ?_, ?_, by simp⟩
      · rw [List.length_cons]
        have := List.length_pos_iff.mpr (by simpa using hne : us ≠ [])
        omega
      · rw [h1, h2, h3, h4, h5]
        simp [ofType, ofMembers_cons, solids_ofSuffix]

theorem answers_idlTypeWithin (n : Nat) : TypesRead (idlTypeWithin n) := by
  induction n with
  | zero => exact fun c hc => answers_pure ⟨by simp, fun _ => ⟨hc, rfl⟩⟩
  | succ n ih =>
    intro c hc
    refine answers_firstOf ((answers_singleType ih c hc).mono fun o c1 h1 => ?_)
    refine ⟨?_, fun hnone => ?_⟩
    · rintro t rfl
      exact ⟨fun _ heq => Option.some.inj heq ▸ h1.1 t rfl, by simp⟩
    · obtain ⟨hc1, hahead⟩ := h1.2 hnone
      refine answers_firstOf ((answers_unionType ih c1 hc1).mono fun o c2 h2 => ⟨?_, ?_⟩)
      · rintro t rfl
        obtain ⟨hc2, ht, h2, hapart⟩ := h2.1 t rfl
        refine ⟨?_, by simp⟩
        rintro _ ⟨⟩
        exact ⟨hc2, ht, by rw [← hahead, h2], hapart⟩
      · intro hnone
        obtain ⟨hc2, h2⟩ := h2.2 hnone
        exact answers_firstOf_nil ⟨by simp, fun _ => ⟨hc2, h2.trans hahead⟩⟩

theorem answers_idlType {Q : Option IdlType → Cursor → Prop} (hc : Cut c)
    (hsome : ∀ t c', TypeRead c t c' → Q (some t) c')
    (hnone : ∀ c', Cut c' → c'.ahead = c.ahead → Q none c') : Answers c idlType Q := by
  refine answers_bounded fun n => (answers_idlTypeWithin n c hc).mono ?_
  rintro (_ | t) c' h
  · exact hnone c' (h.2 rfl).1 (h.2 rfl).2
  · exact hsome t c' (h.1 t rfl)

theorem answers_expectType {reason : Reason} {Q : IdlType → Cursor → Prop} (hc : Cut c)
    (h : ∀ t c', TypeRead c t c' → Q t c') : Answers c (expect reason idlType) Q := by
  refine answers_expect (answers_idlType hc (fun t c' ht => ?_) (by simp))
  rintro _ ⟨⟩
  exact h t c' ht

theorem TypeRead.onward {t : IdlType} {c' : Cursor} (h : TypeRead c t c') : Onward c c' := by
  refine ⟨h.cut, ?_⟩
  rw [h.ahead, List.length_append]
  exact Nat.le_add_left _ _

/-- A name that is read behind a type stands apart from it. -/
theorem TypeRead.apart_of_ahead {t : IdlType} {c' : Cursor} {name : String} {rest : List Token}
    (h : TypeRead c t c') (hname : c'.ahead = word name :: rest) : t.Apart name := by
  rintro unsigned rfl rfl
  exact h.apart unsigned rfl "long" (by simp) (by rw [hname]; rfl)

/-- Words that come first in a type come first where it was read. -/
theorem TypeRead.begins {t : IdlType} {c' : Cursor} {ws : List String} (h : TypeRead c t c')
    (hws : Begins ws (ofType t)) : ws.map word <+: c.ahead := by
  rw [h.ahead]
  exact hws.trans (List.prefix_append _ _)

end WebIdl.Grammar

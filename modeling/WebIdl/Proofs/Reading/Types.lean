import WebIdl.Grammar.Types
import WebIdl.Proofs.Reading.Readers
import WebIdl.Proofs.WellFormed

/-!
# Reading written types

A well-formed type is read back from its tokens, if what stands behind them is no suffix and no
other part of a type.
-/

namespace WebIdl.Grammar

open Token Cursor Spelling

variable {exact : Bool} {c : Cursor} {ts rest : List Token}

@[simp] theorem begins_nil (ts : List Token) : Begins [] ts :=
  List.nil_prefix

/-- A word is the first of those a list begins with, or it is none of them. -/
theorem begins_cons_of_core {w v : String} {ws : List String} (hts : core ts = word v :: rest) :
    Begins (w :: ws) ts ↔ w = v ∧ Begins ws rest := by
  unfold Begins
  rw [← solids_core ts, hts, solids_word, List.map_cons, List.cons_prefix_cons, word_inj]

@[simp] theorem begins_cons_word {w v : String} {ws : List String} :
    Begins (w :: ws) (word v :: ts) ↔ w = v ∧ Begins ws ts :=
  begins_cons_of_core (core_word v ts)

@[simp] theorem begins_cons_mark {w m : String} {ws : List String} :
    ¬Begins (w :: ws) (mark m :: ts) := by
  unfold Begins
  rw [solids_mark, List.map_cons, List.cons_prefix_cons]
  exact fun h => word_ne_mark h.1

@[simp] theorem begins_space {ws : List String} : Begins ws (space :: ts) ↔ Begins ws ts :=
  Iff.rfl

theorem head?_ne_of_not_begins {w : String} (h : ¬Begins [w] ts) :
    (core ts).head? ≠ some (word w) :=
  fun heq => h (begins_singleton.mpr heq)

/-- A type ends here: neither a suffix nor an argument follows. -/
def TypeEnds (rest : List Token) : Prop :=
  ∀ t ∈ (core rest).head?, t ≠ mark "?" ∧ t ≠ mark "[" ∧ t ≠ mark "<"

/-- The tokens that follow do not read as a part of the type. -/
structure Precedes (t : IdlType) (rest : List Token) : Prop where
  ends : TypeEnds rest
  apart : ∀ unsigned, t = .primitive (.integer unsigned .long) {} →
    (core rest).head? ≠ some (word "long")

theorem precedes_word {t : IdlType} {name : String} (h : t.Apart name) (rest : List Token) :
    Precedes t (space :: word name :: rest) := by
  refine ⟨by simp [TypeEnds], fun unsigned ht => ?_⟩
  simpa using h unsigned ht

theorem precedes_mark {t : IdlType} {m : String} (hm : m ≠ "?" ∧ m ≠ "[" ∧ m ≠ "<")
    (rest : List Token) : Precedes t (mark m :: rest) := by
  refine ⟨?_, fun _ _ => by simp⟩
  simpa [TypeEnds] using hm

/-- The tokens of a suffix are those of its arrays and then those of the element type. -/
theorem ofSuffix_cons (nullable b : Bool) (array : List Bool) :
    ofSuffix ⟨nullable, b :: array⟩ =
      (if b then [mark "?"] else []) ++ mark "[" :: mark "]" :: ofSuffix ⟨nullable, array⟩ := by
  simp [ofSuffix]

theorem solids_ofSuffix (s : Suffix) : solids (ofSuffix s) = ofSuffix s := by
  obtain ⟨nullable, array⟩ := s
  induction array with
  | nil => cases nullable <;> rfl
  | cons b array ih => cases b <;> simp [ofSuffix_cons, ih]

theorem reads_moreSuffix_nullable {array : List Bool} {Q : Option Suffix → Cursor → Prop}
    (hc : Near exact c ts) (hts : core ts = mark "?" :: rest)
    (h : ∀ c', At exact c' rest → Q (some ⟨true, array⟩) c') :
    Reads c (moreSuffix ⟨false, array⟩) Q := by
  rw [moreSuffix, reads_bind]
  exact reads_symbol hc hts fun c' hc' => reads_pure.mpr (h c' hc')

theorem reads_moreSuffix_array {s : Suffix} {Q : Option Suffix → Cursor → Prop}
    (hc : Near exact c ts) (hts : core ts = mark "[" :: mark "]" :: rest)
    (h : ∀ c', At exact c' rest → Q (some s.makeArray) c') : Reads c (moreSuffix s) Q := by
  rw [moreSuffix, reads_bind]
  refine reads_symbol_none hc (by simp [hts]) fun c1 hc1 => reads_bind.mpr ?_
  refine reads_symbol hc1.toNear (by rw [core_core, hts]) fun c2 hc2 => reads_bind.mpr ?_
  exact reads_expectSymbol hc2.toNear rfl fun c3 hc3 => reads_pure.mpr (h c3 hc3)

theorem reads_moreSuffix_none {s : Suffix} {Q : Option Suffix → Cursor → Prop}
    (hc : Near exact c rest) (hrest : TypeEnds rest)
    (h : ∀ c', At exact c' (core rest) → Q none c') : Reads c (moreSuffix s) Q := by
  rw [moreSuffix, reads_bind]
  refine reads_symbol_none hc (fun hh => (hrest _ hh).1 rfl) fun c1 hc1 => reads_bind.mpr ?_
  refine reads_symbol_none hc1.toNear (fun hh => ?_) fun c2 hc2 => reads_pure.mpr (h c2 ?_)
  · rw [core_core] at hh
    exact (hrest _ hh).2.1 rfl
  · rwa [core_core] at hc2

/-- The suffixes that are still to come are put behind those already read. -/
theorem reads_suffixesWithin {nullable : Bool} {array : List Bool} (done : List Bool) {bound : Nat}
    {Q : Suffix → Cursor → Prop} (hc : Near exact c (ofSuffix ⟨nullable, array⟩ ++ rest))
    (hrest : TypeEnds rest) (hbound : (ofSuffix ⟨nullable, array⟩).length < bound)
    (h : ∀ c', At exact c' (core rest) → Q ⟨nullable, done ++ array⟩ c') :
    Reads c (iterateWithin moreSuffix bound ⟨false, done⟩) Q := by
  induction array generalizing c done bound with
  | nil =>
    obtain ⟨bound, rfl⟩ : ∃ n, bound = n + 1 := ⟨bound - 1, by omega⟩
    rw [List.append_nil] at h
    cases nullable with
    | false =>
      refine reads_iterateWithin_done ?_
      exact reads_moreSuffix_none hc hrest fun c1 hc1 => ⟨rfl, h c1 hc1⟩
    | true =>
      obtain ⟨bound, rfl⟩ : ∃ n, bound = n + 1 := ⟨bound - 1, by
        simp [ofSuffix] at hbound
        omega⟩
      refine reads_iterateWithin (reads_moreSuffix_nullable hc rfl fun c1 hc1 => ⟨_, rfl, ?_⟩)
      refine reads_iterateWithin_done ?_
      exact reads_moreSuffix_none hc1.toNear hrest fun c2 hc2 => ⟨rfl, h c2 hc2⟩
  | cons b array ih =>
    rw [ofSuffix_cons] at hc hbound
    obtain ⟨bound, rfl⟩ : ∃ n, bound = n + 1 := ⟨bound - 1, by omega⟩
    cases b with
    | false =>
      refine reads_iterateWithin (reads_moreSuffix_array hc rfl fun c1 hc1 => ⟨_, rfl, ?_⟩)
      exact ih _ hc1.toNear (by simp at hbound; omega) (by simpa using h)
    | true =>
      obtain ⟨bound, rfl⟩ : ∃ n, bound = n + 1 := ⟨bound - 1, by simp at hbound; omega⟩
      refine reads_iterateWithin (reads_moreSuffix_nullable hc rfl fun c1 hc1 => ⟨_, rfl, ?_⟩)
      refine reads_iterateWithin (reads_moreSuffix_array hc1.toNear rfl fun c2 hc2 => ⟨_, rfl, ?_⟩)
      exact ih _ hc2.toNear (by simp at hbound; omega) (by simpa using h)

theorem reads_suffixes {s : Suffix} {Q : Suffix → Cursor → Prop}
    (hc : Near exact c (ofSuffix s ++ rest)) (hrest : TypeEnds rest)
    (h : ∀ c', At exact c' (core rest) → Q s c') : Reads c suffixes Q := by
  obtain ⟨nullable, array⟩ := s
  have hlen := hc.length_le
  rw [solids_append, solids_ofSuffix, List.length_append] at hlen
  rw [suffixes, iterate]
  refine reads_bounded ?_
  exact reads_suffixesWithin [] hc hrest (by omega) h

theorem reads_plainType {w : String} {p : Primitive} {Q : Option Primitive → Cursor → Prop}
    (hc : Near exact c ts) (hts : core ts = word w :: rest)
    (h : ∀ c', At exact c' rest → Q (some p) c') : Reads c (plainType w p) Q := by
  rw [plainType, reads_bind]
  exact reads_keyword hc hts fun c' hc' => reads_pure.mpr (h c' hc')

theorem reads_plainType_none {w : String} {p : Primitive} {Q : Option Primitive → Cursor → Prop}
    (hc : Near exact c ts) (hts : (core ts).head? ≠ some (word w))
    (h : ∀ c', At exact c' (core ts) → Q none c') : Reads c (plainType w p) Q := by
  rw [plainType, reads_bind]
  exact reads_keyword_none hc hts fun c' hc' => reads_pure.mpr (h c' hc')

/-- The width of an integer, behind `unsigned` or its absence. -/
theorem reads_integerWidth {unsigned : Bool} {width : IntegerWidth}
    {Q : Option Primitive → Cursor → Prop} (hc : Near exact c (words width.words ++ rest))
    (hrest : width = .long → (core rest).head? ≠ some (word "long"))
    (h : ∀ c', Near exact c' rest → Q (some (.integer unsigned width)) c') :
    Reads c (do
      if ← keyword "short" then
        return some (.integer unsigned .short)
      else if ← keyword "long" then
        let double ← keyword "long"
        return some (.integer unsigned (if double then .longLong else .long))
      else if unsigned then
        fail .incompleteInteger
      else
        return none) Q := by
  rw [reads_bind]
  cases width with
  | short => exact reads_keyword hc rfl fun c1 hc1 => reads_pure.mpr (h c1 hc1.toNear)
  | long =>
    refine reads_keyword_none hc (by simp [words, joined, IntegerWidth.words]) fun c1 hc1 => ?_
    refine reads_bind.mpr (reads_keyword hc1.toNear rfl fun c2 hc2 => reads_bind.mpr ?_)
    refine reads_keyword_none hc2.toNear (hrest rfl) fun c3 hc3 => reads_pure.mpr (h c3 ?_)
    exact near_core_iff.mp hc3.toNear
  | longLong =>
    refine reads_keyword_none hc (by simp [words, joined, IntegerWidth.words]) fun c1 hc1 => ?_
    refine reads_bind.mpr (reads_keyword hc1.toNear rfl fun c2 hc2 => reads_bind.mpr ?_)
    exact reads_keyword hc2.toNear rfl fun c3 hc3 => reads_pure.mpr (h c3 hc3.toNear)

theorem reads_integerType {unsigned : Bool} {width : IntegerWidth}
    {Q : Option Primitive → Cursor → Prop}
    (hc : Near exact c (words (Primitive.integer unsigned width).words ++ rest))
    (hrest : width = .long → (core rest).head? ≠ some (word "long"))
    (h : ∀ c', Near exact c' rest → Q (some (.integer unsigned width)) c') :
    Reads c integerType Q := by
  rw [integerType, reads_bind]
  cases unsigned with
  | false =>
    refine reads_keyword_none hc ?_ fun c1 hc1 => ?_
    · cases width <;> simp [words, joined, Primitive.words, IntegerWidth.words]
    · exact reads_integerWidth (near_core_iff.mp hc1.toNear) hrest h
  | true =>
    have hcore : ∃ us, core (words (Primitive.integer true width).words ++ rest) =
        word "unsigned" :: us ∧ core us = core (words width.words ++ rest) := by
      cases width <;> exact ⟨_, rfl, rfl⟩
    obtain ⟨us, hcore, hus⟩ := hcore
    refine reads_keyword hc hcore fun c1 hc1 => reads_integerWidth ?_ hrest h
    rw [← near_core_iff, ← hus, near_core_iff]
    exact hc1.toNear

theorem reads_integerType_none {Q : Option Primitive → Cursor → Prop} (hc : Near exact c ts)
    (hts : ∀ w ∈ ["unsigned", "short", "long"], (core ts).head? ≠ some (word w))
    (h : ∀ c', Near exact c' ts → Q none c') : Reads c integerType Q := by
  rw [integerType, reads_bind]
  refine reads_keyword_none hc (hts _ (by simp)) fun c1 hc1 => reads_bind.mpr ?_
  refine reads_keyword_none hc1.near (hts _ (by simp)) fun c2 hc2 => reads_bind.mpr ?_
  exact reads_keyword_none hc2.near (hts _ (by simp)) fun c3 hc3 => reads_pure.mpr (h c3 hc3.near)

theorem reads_floatType_none {Q : Option Primitive → Cursor → Prop} (hc : Near exact c ts)
    (hts : ∀ w ∈ ["unrestricted", "float", "double"], (core ts).head? ≠ some (word w))
    (h : ∀ c', Near exact c' ts → Q none c') : Reads c floatType Q := by
  rw [floatType, reads_bind]
  refine reads_keyword_none hc (hts _ (by simp)) fun c1 hc1 => reads_bind.mpr ?_
  refine reads_keyword_none hc1.near (hts _ (by simp)) fun c2 hc2 => reads_bind.mpr ?_
  exact reads_keyword_none hc2.near (hts _ (by simp)) fun c3 hc3 => reads_pure.mpr (h c3 hc3.near)

theorem reads_floatType_float {unrestricted : Bool} {Q : Option Primitive → Cursor → Prop}
    (hc : Near exact c (words (Primitive.float unrestricted).words ++ rest))
    (h : ∀ c', Near exact c' rest → Q (some (.float unrestricted)) c') : Reads c floatType Q := by
  rw [floatType, reads_bind]
  cases unrestricted with
  | false =>
    refine reads_keyword_none hc (by simp [words, joined, Primitive.words]) fun c1 hc1 => ?_
    refine reads_bind.mpr (reads_keyword hc1.near rfl fun c2 hc2 => ?_)
    exact reads_pure.mpr (h c2 hc2.toNear)
  | true =>
    refine reads_keyword hc rfl fun c1 hc1 => reads_bind.mpr ?_
    exact reads_keyword hc1.toNear rfl fun c2 hc2 => reads_pure.mpr (h c2 hc2.toNear)

theorem reads_floatType_double {unrestricted : Bool} {Q : Option Primitive → Cursor → Prop}
    (hc : Near exact c (words (Primitive.double unrestricted).words ++ rest))
    (h : ∀ c', Near exact c' rest → Q (some (.double unrestricted)) c') : Reads c floatType Q := by
  rw [floatType, reads_bind]
  cases unrestricted with
  | false =>
    refine reads_keyword_none hc (by simp [words, joined, Primitive.words]) fun c1 hc1 => ?_
    refine reads_bind.mpr (reads_keyword_none hc1.near ?_ fun c2 hc2 => reads_bind.mpr ?_)
    · simp [words, joined, Primitive.words]
    · exact reads_keyword hc2.near rfl fun c3 hc3 => reads_pure.mpr (h c3 hc3.toNear)
  | true =>
    refine reads_keyword hc rfl fun c1 hc1 => reads_bind.mpr ?_
    refine reads_keyword_none hc1.toNear (by simp [joined]) fun c2 hc2 => reads_bind.mpr ?_
    exact reads_keyword hc2.near rfl fun c3 hc3 => reads_pure.mpr (h c3 hc3.toNear)

/-- The production of a primitive comes first or behind others that do not match. -/
theorem reads_primitiveType {p : Primitive} {Q : Option Primitive → Cursor → Prop}
    (hc : Near exact c (words p.words ++ rest))
    (hrest : ∀ unsigned, p = .integer unsigned .long → (core rest).head? ≠ some (word "long"))
    (h : ∀ c', Near exact c' rest → Q (some p) c') : Reads c primitiveType Q := by
  have hinteger : ∀ {c : Cursor} {w : String} {us : List Token},
      Near exact c (word w :: us) → w ∉ ["unsigned", "short", "long"] →
      (∀ c', Near exact c' (word w :: us) → Reads c' (firstOf [floatType,
        plainType "boolean" .boolean, plainType "byte" .byte, plainType "octet" .octet]) Q) →
      Reads c primitiveType Q := fun hc hw hQ =>
    reads_firstOf_next (reads_integerType_none hc
      (fun v hv heq => hw (by simp at heq; exact heq ▸ hv)) fun c1 hc1 => ⟨rfl, hQ c1 hc1⟩)
  have hfloat : ∀ {c : Cursor} {w : String} {us : List Token},
      Near exact c (word w :: us) → w ∉ ["unrestricted", "float", "double"] →
      (∀ c', Near exact c' (word w :: us) → Reads c' (firstOf [plainType "boolean" .boolean,
        plainType "byte" .byte, plainType "octet" .octet]) Q) →
      Reads c (firstOf [floatType, plainType "boolean" .boolean, plainType "byte" .byte,
        plainType "octet" .octet]) Q := fun hc hw hQ =>
    reads_firstOf_next (reads_floatType_none hc
      (fun v hv heq => hw (by simp at heq; exact heq ▸ hv)) fun c1 hc1 => ⟨rfl, hQ c1 hc1⟩)
  cases p with
  | integer unsigned width =>
    refine reads_firstOf (reads_integerType hc ?_ fun c1 hc1 => ⟨_, rfl, h c1 hc1⟩)
    exact fun hw => hrest unsigned (by rw [hw])
  | float unrestricted =>
    cases unrestricted <;>
    · refine hinteger hc (by simp) fun c1 hc1 => reads_firstOf ?_
      exact reads_floatType_float hc1 fun c2 hc2 => ⟨_, rfl, h c2 hc2⟩
  | double unrestricted =>
    cases unrestricted <;>
    · refine hinteger hc (by simp) fun c1 hc1 => reads_firstOf ?_
      exact reads_floatType_double hc1 fun c2 hc2 => ⟨_, rfl, h c2 hc2⟩
  | boolean =>
    refine hinteger hc (by simp) fun c1 hc1 => hfloat hc1 (by simp) fun c2 hc2 => ?_
    exact reads_firstOf (reads_plainType hc2 rfl fun c3 hc3 => ⟨_, rfl, h c3 hc3.toNear⟩)
  | byte =>
    refine hinteger hc (by simp) fun c1 hc1 => hfloat hc1 (by simp) fun c2 hc2 => ?_
    refine reads_firstOf_next (reads_plainType_none hc2 (by simp) fun c3 hc3 => ⟨rfl, ?_⟩)
    exact reads_firstOf (reads_plainType hc3.near rfl fun c4 hc4 => ⟨_, rfl, h c4 hc4.toNear⟩)
  | octet =>
    refine hinteger hc (by simp) fun c1 hc1 => hfloat hc1 (by simp) fun c2 hc2 => ?_
    refine reads_firstOf_next (reads_plainType_none hc2 (by simp) fun c3 hc3 => ⟨rfl, ?_⟩)
    refine reads_firstOf_next (reads_plainType_none hc3.near (by simp) fun c4 hc4 => ⟨rfl, ?_⟩)
    exact reads_firstOf (reads_plainType hc4.near rfl fun c5 hc5 => ⟨_, rfl, h c5 hc5.toNear⟩)

theorem reads_primitiveType_none {Q : Option Primitive → Cursor → Prop} (hc : Near exact c ts)
    (hts : ∀ w ∈ Primitive.keywords, (core ts).head? ≠ some (word w))
    (h : ∀ c', At exact c' (core ts) → Q none c') : Reads c primitiveType Q := by
  have hplain : ∀ w ∈ ["boolean", "byte", "octet"], (core ts).head? ≠ some (word w) :=
    fun w hw => hts w (by simp [Primitive.keywords] at hw ⊢; tauto)
  refine reads_firstOf_next (reads_integerType_none hc ?_ fun c1 hc1 => ⟨rfl, ?_⟩)
  · exact fun w hw => hts w (by simp [Primitive.keywords] at hw ⊢; tauto)
  refine reads_firstOf_next (reads_floatType_none hc1 ?_ fun c2 hc2 => ⟨rfl, ?_⟩)
  · exact fun w hw => hts w (by simp [Primitive.keywords] at hw ⊢; tauto)
  refine reads_firstOf_next (reads_plainType_none hc2 (hplain _ (by simp)) fun c3 hc3 => ⟨rfl, ?_⟩)
  refine reads_firstOf_next (reads_plainType_none hc3.near (hplain _ (by simp)) fun c4 hc4 => ?_)
  refine ⟨rfl, reads_firstOf_next (reads_plainType_none hc4.near (hplain _ (by simp)) ?_)⟩
  exact fun c5 hc5 => ⟨rfl, reads_pure.mpr (h c5 hc5)⟩

theorem words_primitive (p : Primitive) :
    ∃ w ts, words p.words = word w :: ts ∧ w ∈ Primitive.keywords := by
  cases p with
  | integer unsigned width =>
    cases unsigned <;> cases width <;> exact ⟨_, _, rfl, by decide⟩
  | float unrestricted => cases unrestricted <;> exact ⟨_, _, rfl, by decide⟩
  | double unrestricted => cases unrestricted <;> exact ⟨_, _, rfl, by decide⟩
  | _ => exact ⟨_, _, rfl, by decide⟩

/-- A list that starts with a word or with a parenthesis, as a type does. -/
inductive Opens : List Token → Prop
  | word (w : String) (ts : List Token) : Opens (word w :: ts)
  | parenthesis (ts : List Token) : Opens (mark "(" :: ts)

theorem Opens.append {ts : List Token} (h : Opens ts) (us : List Token) : Opens (ts ++ us) := by
  cases h with
  | word w ts => exact .word w _
  | parenthesis ts => exact .parenthesis _

theorem Opens.core_eq {ts : List Token} (h : Opens ts) : core ts = ts := by
  cases h <;> rfl

theorem Opens.head?_ne {ts : List Token} (h : Opens ts) {m : String} (hm : m ≠ "(") :
    ts.head? ≠ some (mark m) := by
  cases h with
  | word w ts => simp
  | parenthesis ts => simpa using hm.symm

theorem Opens.wordIf {ts : List Token} (h : Opens ts) (flag : Bool) (w : String) :
    Opens (wordIf flag w ++ ts) := by
  cases flag with
  | true => exact .word w _
  | false => exact h

theorem Opens.eq_cons {ts : List Token} (h : Opens ts) {w : String} (hw : Begins [w] ts) :
    ∃ us, ts = Token.word w :: us := by
  rw [begins_singleton, h.core_eq] at hw
  exact ⟨_, (List.head?_eq_some_iff.mp hw).choose_spec⟩

theorem opens_ofType (t : IdlType) : Opens (ofType t) := by
  cases t with
  | primitive p s =>
    obtain ⟨w, ts, hw, -⟩ := words_primitive p
    rw [ofType, hw]
    exact .word w _
  | named name s => exact .word name _
  | generic name inner s => exact .word name _
  | union members s => exact .parenthesis _

/-- What a type begins with, it begins with wherever it stands. -/
theorem begins_ofType {t : IdlType} {w : String} {us : List Token}
    (h : (core (ofType t ++ us)).head? = some (word w)) : Begins [w] (ofType t) := by
  have hopens := opens_ofType t
  rw [(hopens.append us).core_eq] at h
  rw [begins_singleton, hopens.core_eq]
  generalize ofType t = ts at hopens h
  cases hopens <;> exact h

/-- A reader of types that reads every type with fewer than `n` tokens. -/
def ReadsTypes (exact : Bool) (r : Reader (Option IdlType)) (n : Nat) : Prop :=
  ∀ ⦃t : IdlType⦄ ⦃c : Cursor⦄ ⦃rest : List Token⦄ ⦃Q : Option IdlType → Cursor → Prop⦄,
    t.WellFormed → (solids (ofType t)).length < n → Near exact c (ofType t ++ rest) →
    Precedes t rest → (∀ c', At exact c' (core rest) → Q (some t) c') → Reads c r Q

theorem head?_ofSuffix (s : Suffix) (rest : List Token) :
    s = {} ∨ (core (ofSuffix s ++ rest)).head? = some (mark "?") ∨
      (core (ofSuffix s ++ rest)).head? = some (mark "[") := by
  obtain ⟨nullable, array⟩ := s
  cases array with
  | nil => cases nullable <;> simp [ofSuffix]
  | cons b array => cases b <;> simp [ofSuffix_cons]

theorem reads_singleType_none {inner : Reader (Option IdlType)}
    {Q : Option IdlType → Cursor → Prop} (hc : Near exact c ts)
    (hts : ∀ t ∈ (core ts).head?, t.kind ≠ .identifier)
    (h : ∀ c', At exact c' (core ts) → Q none c') : Reads c (singleType inner) Q := by
  rw [singleType, reads_bind]
  refine reads_primitiveType_none hc (fun w _ heq => hts _ heq rfl) fun c1 hc1 => reads_bind.mpr ?_
  exact reads_identifier_none hc1.near hts fun c2 hc2 => reads_pure.mpr (h c2 hc2)

theorem reads_singleType_primitive {inner : Reader (Option IdlType)} {p : Primitive} {s : Suffix}
    {Q : Option IdlType → Cursor → Prop} (hc : Near exact c (ofType (.primitive p s) ++ rest))
    (hrest : Precedes (.primitive p s) rest)
    (h : ∀ c', At exact c' (core rest) → Q (some (.primitive p s)) c') :
    Reads c (singleType inner) Q := by
  rw [ofType, List.append_assoc] at hc
  rw [singleType, reads_bind]
  refine reads_primitiveType hc (fun unsigned hp => ?_) fun c1 hc1 => reads_bind.mpr ?_
  · rcases head?_ofSuffix s rest with rfl | hs | hs
    · exact hrest.apart unsigned (by rw [hp])
    · simp [hs]
    · simp [hs]
  · exact reads_suffixes hc1 hrest.ends fun c2 hc2 => reads_pure.mpr (h c2 hc2)

theorem reads_primitiveType_name {name : String} {us : List Token}
    {Q : Option Primitive → Cursor → Prop} (hname : IsTypeName name)
    (hc : Near exact c (word name :: us))
    (h : ∀ c', At exact c' (word name :: us) → Q none c') : Reads c primitiveType Q := by
  refine reads_primitiveType_none hc (fun w hw heq => hname.not_keyword ?_) h
  rw [core_word, List.head?_cons, Option.some.injEq, word_inj] at heq
  exact heq ▸ hw

theorem reads_singleType_named {inner : Reader (Option IdlType)} {name : String} {s : Suffix}
    {Q : Option IdlType → Cursor → Prop} (hname : IsTypeName name)
    (hany : ¬(name = "any" ∧ s.nullable ∧ s.array = []))
    (hc : Near exact c (ofType (.named name s) ++ rest)) (hrest : TypeEnds rest)
    (h : ∀ c', At exact c' (core rest) → Q (some (.named name s)) c') :
    Reads c (singleType inner) Q := by
  rw [ofType, List.cons_append] at hc
  rw [singleType, reads_bind]
  refine reads_primitiveType_name hname hc fun c1 hc1 => reads_bind.mpr ?_
  refine reads_identifier hc1.toNear rfl hname.unescape_word fun c2 hc2 => reads_bind.mpr ?_
  rw [namedType, reads_bind]
  refine reads_symbol_none hc2.toNear ?_ fun c3 hc3 => reads_bind.mpr ?_
  · rcases head?_ofSuffix s rest with rfl | hs | hs
    · exact fun heq => (hrest _ heq).2.2 rfl
    · simp [hs]
    · simp [hs]
  · refine reads_suffixes hc3.near hrest fun c4 hc4 => ?_
    rw [if_neg hany]
    exact reads_pure.mpr (reads_pure.mpr (h c4 hc4))

theorem reads_singleType_generic {inner : Reader (Option IdlType)} {n : Nat}
    (hinner : ReadsTypes exact inner n) {name : String} {t : IdlType} {s : Suffix}
    {Q : Option IdlType → Cursor → Prop} (hname : IsTypeName name) (ht : t.WellFormed)
    (hsize : (solids (ofType t)).length < n)
    (hc : Near exact c (ofType (.generic name t s) ++ rest)) (hrest : TypeEnds rest)
    (h : ∀ c', At exact c' (core rest) → Q (some (.generic name t s)) c') :
    Reads c (singleType inner) Q := by
  simp only [ofType, List.cons_append, List.append_assoc] at hc
  rw [singleType, reads_bind]
  refine reads_primitiveType_name hname hc fun c1 hc1 => reads_bind.mpr ?_
  refine reads_identifier hc1.toNear rfl hname.unescape_word fun c2 hc2 => reads_bind.mpr ?_
  rw [namedType, reads_bind]
  refine reads_symbol hc2.toNear rfl fun c3 hc3 => reads_bind.mpr (reads_expect ?_)
  refine hinner ht hsize hc3.toNear (precedes_mark (by decide) _) fun c4 hc4 => ⟨t, rfl, ?_⟩
  refine reads_bind.mpr (reads_expectSymbol hc4.near rfl fun c5 hc5 => reads_bind.mpr ?_)
  refine reads_suffixes hc5.toNear hrest fun c6 hc6 => ?_
  exact reads_pure.mpr (reads_pure.mpr (h c6 hc6))

/-- A further member of a union. -/
def alternative (t : IdlType) : List Token :=
  space :: word "or" :: space :: ofType t

theorem ofMembers_cons (t : IdlType) (ts : List IdlType) :
    ofMembers (t :: ts) = ofType t ++ ts.flatMap alternative := by
  induction ts generalizing t with
  | nil => simp [ofMembers]
  | cons u us ih => simp [ofMembers, ih u, alternative]

theorem precedes_alternatives {t : IdlType} (us : List IdlType) (rest : List Token) :
    Precedes t (us.flatMap alternative ++ mark ")" :: rest) := by
  cases us with
  | nil => exact precedes_mark (by decide) rest
  | cons u us => exact precedes_word (fun _ _ => by decide) _

theorem reads_alternatives {inner : Reader (Option IdlType)} {n : Nat}
    (hinner : ReadsTypes exact inner n) {us : List IdlType}
    (hus : ∀ u ∈ us, u.WellFormed ∧ (solids (ofType u)).length < n)
    {Q : List IdlType → Cursor → Prop}
    (hc : Near exact c (us.flatMap alternative ++ mark ")" :: rest))
    (h : ∀ c', Near exact c' (mark ")" :: rest) → Q us c') :
    Reads c (many do
      if ← keyword "or" then
        return some (← expect .noUnionMember inner)
      else
        return none) Q := by
  have hlen : us.length ≤ c.remaining := by
    have hle := length_le_solids_flatMap (f := alternative) fun u (_ : u ∈ us) => by
      simp [alternative]
    have := hc.length_le
    rw [solids_append, List.length_append] at this
    omega
  refine (reads_many
    (P := fun us c => (∀ u ∈ us, u.WellFormed ∧ (solids (ofType u)).length < n) ∧
      Near exact c (us.flatMap alternative ++ mark ")" :: rest))
    (R := Eq) (Q := fun c' => Near exact c' (mark ")" :: rest)) ?_ ?_ hlen ⟨hus, hc⟩).mono ?_
  · rintro u us c ⟨hus, hc⟩
    obtain ⟨⟨hu, hsize⟩, hus⟩ := List.forall_mem_cons.mp hus
    simp only [List.flatMap_cons, alternative, List.cons_append, List.append_assoc] at hc
    refine reads_bind.mpr (reads_keyword hc rfl fun c1 hc1 => reads_bind.mpr (reads_expect ?_))
    refine hinner hu hsize hc1.toNear.of_space (precedes_alternatives us rest) fun c2 hc2 =>
      ⟨u, rfl, ?_⟩
    exact reads_pure.mpr ⟨u, rfl, rfl, hus, hc2.near⟩
  · rintro c ⟨-, hc⟩
    refine reads_bind.mpr (reads_keyword_none hc (by simp) fun c1 hc1 => ?_)
    exact reads_pure.mpr ⟨rfl, hc1.near⟩
  · rintro vs c' ⟨heq, hc'⟩
    rw [List.forall₂_eq_eq_eq] at heq
    exact heq ▸ h c' hc'

theorem reads_unionType {inner : Reader (Option IdlType)} {n : Nat}
    (hinner : ReadsTypes exact inner n) {members : List IdlType} {s : Suffix}
    {Q : Option IdlType → Cursor → Prop}
    (hmembers : ∀ u ∈ members, u.WellFormed ∧ (solids (ofType u)).length < n)
    (htwo : 2 ≤ members.length) (hc : Near exact c (ofType (.union members s) ++ rest))
    (hrest : TypeEnds rest) (h : ∀ c', At exact c' (core rest) → Q (some (.union members s)) c') :
    Reads c (unionType inner) Q := by
  obtain ⟨t, u, us, rfl⟩ : ∃ t u us, members = t :: u :: us := by
    match members, htwo with
    | t :: u :: us, _ => exact ⟨t, u, us, rfl⟩
  obtain ⟨⟨ht, hsize⟩, hothers⟩ := List.forall_mem_cons.mp hmembers
  rw [ofType, ofMembers_cons] at hc
  simp only [List.cons_append, List.append_assoc] at hc
  rw [unionType, reads_bind]
  refine reads_symbol hc rfl fun c1 hc1 => reads_bind.mpr (reads_expect ?_)
  refine hinner ht hsize hc1.toNear (precedes_alternatives (u :: us) _) fun c2 hc2 => ⟨t, rfl, ?_⟩
  refine reads_bind.mpr (reads_alternatives hinner hothers hc2.near fun c3 hc3 => ?_)
  refine reads_bind.mpr (reads_expectSymbol hc3 rfl fun c4 hc4 => reads_bind.mpr ?_)
  exact reads_suffixes hc4.toNear hrest fun c5 hc5 => reads_pure.mpr (h c5 hc5)

theorem reads_unionType_none {inner : Reader (Option IdlType)}
    {Q : Option IdlType → Cursor → Prop} (hc : Near exact c ts)
    (hts : (core ts).head? ≠ some (mark "(")) (h : ∀ c', At exact c' (core ts) → Q none c') :
    Reads c (unionType inner) Q := by
  rw [unionType, reads_bind]
  exact reads_symbol_none hc hts fun c1 hc1 => reads_pure.mpr (h c1 hc1)

/-- A member of a union has fewer tokens than the union. -/
theorem length_solids_le_ofMembers {t : IdlType} {members : List IdlType} (h : t ∈ members) :
    (solids (ofType t)).length ≤ (solids (ofMembers members)).length := by
  obtain ⟨u, us, rfl⟩ := List.exists_cons_of_ne_nil (List.ne_nil_of_mem h)
  rw [ofMembers_cons, solids_append, List.length_append]
  rcases List.mem_cons.mp h with rfl | hmem
  · exact Nat.le_add_right _ _
  · obtain ⟨vs, ws, rfl⟩ := List.append_of_mem hmem
    simp [List.flatMap_append, alternative]
    omega

theorem reads_idlTypeWithin (n : Nat) : ReadsTypes exact (idlTypeWithin n) n := by
  induction n with
  | zero => exact fun t c rest Q _ hsize => absurd hsize (Nat.not_lt_zero _)
  | succ n ih =>
    intro t c rest Q ht hsize hc hrest h
    rw [idlTypeWithin, idlTypeWith]
    cases ht with
    | primitive p s =>
      exact reads_firstOf (reads_singleType_primitive hc hrest fun c' hc' => ⟨_, rfl, h c' hc'⟩)
    | named hname hany =>
      exact reads_firstOf
        (reads_singleType_named hname hany hc hrest.ends fun c' hc' => ⟨_, rfl, h c' hc'⟩)
    | generic s hname hinner =>
      refine reads_firstOf (reads_singleType_generic ih hname hinner ?_ hc hrest.ends
        fun c' hc' => ⟨_, rfl, h c' hc'⟩)
      simp [ofType] at hsize
      omega
    | @union members s hmembers htwo =>
      refine reads_firstOf_next (reads_singleType_none hc ?_ fun c1 hc1 => ⟨rfl, ?_⟩)
      · rintro t ht
        obtain rfl : mark "(" = t := by simpa [ofType] using ht
        simp [mark]
      · refine reads_firstOf (reads_unionType ih (fun u hu => ⟨hmembers u hu, ?_⟩) htwo hc1.near
          hrest.ends fun c' hc' => ⟨_, rfl, h c' hc'⟩)
        have := length_solids_le_ofMembers hu
        simp [ofType] at hsize
        omega

theorem reads_idlType {t : IdlType} {Q : Option IdlType → Cursor → Prop} (ht : t.WellFormed)
    (hc : Near exact c (ofType t ++ rest)) (hrest : Precedes t rest)
    (h : ∀ c', At exact c' (core rest) → Q (some t) c') : Reads c idlType Q := by
  have hlen := hc.length_le
  rw [solids_append, List.length_append] at hlen
  rw [idlType]
  exact reads_bounded (reads_idlTypeWithin _ ht (by omega) hc hrest h)

/-- Nothing but a name or a parenthesis begins a type. -/
theorem reads_idlType_none {Q : Option IdlType → Cursor → Prop} (hc : Near exact c ts)
    (hts : ∀ t ∈ (core ts).head?, t.kind ≠ .identifier ∧ t ≠ mark "(")
    (h : ∀ c', At exact c' (core ts) → Q none c') : Reads c idlType Q := by
  rw [idlType]
  refine reads_bounded ?_
  rw [idlTypeWithin, idlTypeWith]
  refine reads_firstOf_next (reads_singleType_none hc (fun t ht => (hts t ht).1) fun c1 hc1 => ?_)
  refine ⟨rfl, reads_firstOf_next (reads_unionType_none hc1.near (fun heq => ?_) fun c2 hc2 => ?_)⟩
  · exact (hts _ heq).2 rfl
  · exact ⟨rfl, reads_pure.mpr (h c2 hc2)⟩

theorem reads_returnType {t : IdlType} {Q : IdlType → Cursor → Prop} (ht : t.WellFormed)
    (hc : Near exact c (ofType t ++ rest)) (hrest : Precedes t rest)
    (h : ∀ c', At exact c' (core rest) → Q t c') : Reads c returnType Q :=
  reads_expect (reads_idlType ht hc hrest fun c' hc' => ⟨t, rfl, h c' hc'⟩)

end WebIdl.Grammar

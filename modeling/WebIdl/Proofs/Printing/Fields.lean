import WebIdl.Proofs.Printing.Headers
import WebIdl.Proofs.Printing.Squeezing
import WebIdl.Proofs.Writing.Statements

/-!
# Printing dictionary members

A dictionary member is taken apart into words again: what stands in front of its name fills the type
column, squeezed and filled up with blanks to the width of the longest.
-/

namespace WebIdl

open Token Lexer Spelling Grammar
open Text hiding words

namespace Layout

variable {front name value : List Char}

theorem isWhiteSpace_space : isWhiteSpace ' ' = true := rfl

theorem words_front (hname : ∀ c ∈ name, isWhiteSpace c = false) (hne : name ≠ []) :
    Text.words (front ++ ' ' :: name) = Text.words front ++ [name] := by
  rw [words_append_white isWhiteSpace_space, words_of_forall hne hname]

/-- A member without a default value. -/
theorem ofDeclaration_bare (hbegun : Begun front) (hended : Ended front) (hne : name ≠ [])
    (hname : ∀ c ∈ name, isWhiteSpace c = false) (hpasses : Passes (· ≠ '=') (front ++ ' ' :: name)) :
    FieldText.ofDeclaration (front ++ ' ' :: name) = ⟨squeeze front, name, none⟩ := by
  rw [FieldText.ofDeclaration, cutAt?_of_passes hpasses]
  simp only [words_front hname hne, List.dropLast_concat, unwords_words_of_ends hbegun hended,
    List.getLastD_concat]

/-- A member with a default value behind an equals sign. -/
theorem ofDeclaration_default (hbegun : Begun front) (hended : Ended front) (hne : name ≠ [])
    (hname : ∀ c ∈ name, isWhiteSpace c = false) (hpasses : Passes (· ≠ '=') (front ++ ' ' :: name))
    (hvalue : Begun value) (hvalue' : Ended value) :
    FieldText.ofDeclaration (front ++ ' ' :: (name ++ ' ' :: '=' :: ' ' :: value)) =
      ⟨squeeze front, name, some value⟩ := by
  have hspace : Passes (· ≠ '=') [' '] := passes_plain (List.forall_mem_singleton.mpr (by decide))
  have hequals : IsPlain '=' := by decide
  have hsource : front ++ ' ' :: (name ++ ' ' :: '=' :: ' ' :: value) =
      ((front ++ ' ' :: name) ++ [' ']) ++ '=' :: ' ' :: value := by simp
  have htrim : trim (' ' :: value) = value := by
    rw [← List.singleton_append, trim, trimStart_append (by simp; rfl), hvalue.trimStart_eq,
      hvalue'.trimEnd_eq]
  have hwords : Text.words ((front ++ ' ' :: name) ++ [' ']) = Text.words front ++ [name] := by
    rw [words_append_white isWhiteSpace_space, words_front hname hne]
    exact List.append_nil _
  rw [hsource, FieldText.ofDeclaration,
    cutAt?_append (hpasses.append hspace) (expose_plain 0 hequals _)]
  simp only [hwords, htrim, List.dropLast_concat, unwords_words_of_ends hbegun hended,
    List.getLastD_concat]

theorem foldl_max_zeros (k n : Nat) : (List.replicate k 0).foldl max n = n := by
  induction k with
  | zero => rfl
  | succ k ih => rw [List.replicate_succ, List.foldl_cons, Nat.max_zero, ih]

theorem foldl_max_columns {α : Type} {f : α → List Nat} {g : α → Nat} {l : List α}
    (h : ∀ x ∈ l, ∃ k, f x = List.replicate k 0 ++ [g x]) (n : Nat) :
    (l.flatMap f).foldl max n = (l.map g).foldl max n := by
  induction l generalizing n with
  | nil => rfl
  | cons x l ih =>
    obtain ⟨⟨k, hk⟩, hl⟩ := List.forall_mem_cons.mp h
    rw [List.flatMap_cons, List.foldl_append, hk, List.foldl_append, foldl_max_zeros, List.map_cons,
      List.foldl_cons, ih hl]
    rfl

end Layout

namespace Spelling

variable {d : Dialect} {m : Member} {f : Field}

/-- What stands in the type column. -/
def typeColumn (m : Member) (f : Field) : List Token :=
  bracketed (ofAttributes m.extAttrs) m.afterAttrs ++
    (wordIf f.required "required" ++ ofType f.type)

/-- Blanks behind a column, up to the next one. -/
def filler (width : Nat) (column : List Token) : Trivia :=
  .whitespace (String.ofList (List.replicate (width - (sourceChars column).length + 1) ' '))

/-- A dictionary member with its name in a column. -/
def fieldTokens (width : Nat) (m : Member) : List Token :=
  match m.kind with
  | .field f =>
    typeColumn m f ++ (filler width (typeColumn m f)).token :: word f.name ::
      (ofDefault f.default ++ [mark ";"])
  | _ => memberBody m

def typeLength (m : Member) : Nat :=
  match m.kind with
  | .field f => (sourceChars (typeColumn m f)).length
  | _ => 0

/-- The width of the type column of a dictionary. -/
def longestType (ms : List Member) : Nat :=
  (ms.map typeLength).foldl max 0

theorem memberBody_field (hm : m.kind = .field f) :
    memberBody m = typeColumn m f ++ space :: word f.name :: (ofDefault f.default ++ [mark ";"]) := by
  simp [memberBody, hm, typeColumn, ofMemberKind, ofField]

theorem map_squeeze_typeColumn (hm : Annotated d m.extAttrs m.afterAttrs) :
    (typeColumn m f).map Token.squeeze = typeColumn m.squeeze f := by
  have hattributes := map_squeeze_ofAttributes fun e he => map_squeeze_ofAttribute (hm.attributes e he)
  rw [typeColumn, List.map_append, List.map_append, map_squeeze_bracketed hm.after.settled.1,
    hattributes, map_squeeze_wordIf, map_squeeze_ofType]
  rfl

end Spelling

/-- The words in front of the name of a dictionary member with single blanks between them. -/
def Member.typeText (m : Member) : List Char :=
  match m.kind with
  | .field f => Text.unwords (Text.words (sourceChars (typeColumn m f)))
  | _ => []

/-- The width of the widest type. -/
def Dictionary.typeSpan (b : Dictionary) : Nat :=
  (b.members.map fun m => m.typeText.length).foldl max 0

/-- A dictionary member with its name behind a column for the type. -/
def Member.tabulated (span : Nat) (m : Member) : List Char :=
  match m.kind with
  | .field f =>
    Text.padEnd span m.typeText ++
      ' ' :: (f.name.toList ++ sourceChars (ofDefault f.default) ++ [';'])
  | _ => m.write.toList

namespace Token

theorem Parted.left {ts us : List Token} (h : Parted (ts ++ us)) : Parted ts := by
  induction ts with
  | nil => trivial
  | cons t ts ih =>
    rw [List.cons_append, parted_cons] at h
    refine parted_cons.mpr ⟨fun ht u hu => h.1 ht u ?_, ih h.2⟩
    obtain ⟨vs, rfl⟩ := List.head?_eq_some_iff.mp hu
    rfl

theorem head?_of_forall {ts : List Token} (hne : ts ≠ []) (h : ∀ t ∈ ts, t.isWhitespace = false) :
    ∃ t ∈ ts.head?, t.isWhitespace = false := by
  obtain ⟨t, us, rfl⟩ := List.exists_cons_of_ne_nil hne
  exact ⟨t, rfl, h t List.mem_cons_self⟩

end Token

namespace Layout

variable {d : Dialect} {b : Bool} {m : Member} {f : Field}

theorem finished_append_solid {ts us : List Token} (h : Finished ts)
    (hus : ∀ t ∈ us, t.isWhitespace = false) : Finished (ts ++ us) := by
  by_cases hnil : us = []
  · rwa [hnil, List.append_nil]
  · exact (finished_of_forall hnil hus).append_left ts

theorem solid_ofSuffix (s : Suffix) : ∀ t ∈ ofSuffix s, t.isWhitespace = false := by
  intro t ht
  simp only [ofSuffix, List.mem_append, List.mem_flatMap, List.mem_cons, List.not_mem_nil,
    or_false] at ht
  rcases ht with ⟨nullable, -, ht | rfl | rfl⟩ | ht
  · split at ht <;> simp_all [mark, isWhitespace]
  · rfl
  · rfl
  · split at ht <;> simp_all [mark, isWhitespace]

theorem finished_ofType (t : IdlType) : Finished (ofType t) := by
  cases t with
  | primitive p s =>
    refine finished_append_solid ?_ (solid_ofSuffix s)
    cases p with
    | integer unsigned width => cases unsigned <;> cases width <;> exact ⟨_, rfl, rfl⟩
    | float unrestricted => cases unrestricted <;> exact ⟨_, rfl, rfl⟩
    | double unrestricted => cases unrestricted <;> exact ⟨_, rfl, rfl⟩
    | _ => exact ⟨_, rfl, rfl⟩
  | named name s =>
    exact @finished_append_solid [word name] _ ⟨_, rfl, rfl⟩ (solid_ofSuffix s)
  | generic name inner s =>
    have hclose := @finished_append_solid [mark ">"] _ ⟨_, rfl, rfl⟩ (solid_ofSuffix s)
    simpa [ofType] using hclose.append_left (word name :: mark "<" :: ofType inner)
  | union members s =>
    have hclose := @finished_append_solid [mark ")"] _ ⟨_, rfl, rfl⟩ (solid_ofSuffix s)
    simpa [ofType] using hclose.append_left (mark "(" :: ofMembers members)

section Column

variable (hfits : ∀ t ∈ typeColumn m f, t.Fits b)

theorem shaped_typeColumn : Shaped ['='] (typeColumn m f) :=
  (shaped_bracketed (by decide) (shaped_ofAttributes m.extAttrs) m.afterAttrs).append
    ((shaped_wordIf f.required "required").append (shaped_ofType (by decide) f.type))

theorem finished_typeColumn : Finished (typeColumn m f) :=
  ((finished_ofType f.type).append_left _).append_left _

include hfits

theorem bare_typeColumn (hbare : m.extAttrs = [] → m.afterAttrs = []) :
    Bare (sourceChars (typeColumn m f)) := by
  have hstart := (shaped_typeColumn.balanced hfits).bare
    (head?_front hbare ((opens_ofType f.type).wordIf f.required "required")) []
  rwa [List.append_nil] at hstart

theorem ended_typeColumn : Ended (sourceChars (typeColumn m f)) :=
  (shaped_typeColumn.balanced hfits).ended finished_typeColumn

end Column

/-- A member on its line: the type filled up to the column, the name and the default. -/
theorem fieldLine_field {type : List Char} (hne : type ≠ []) (width : Nat) (name : List Char)
    (o : Option Literal) :
    fieldLine width ⟨type, name, o.map fun l => sourceChars (ofLiteral l)⟩ ++ [';'] =
      padEnd width type ++ ' ' :: (name ++ sourceChars (ofDefault o) ++ [';']) := by
  rw [fieldLine, if_neg (by simpa using hne)]
  cases o with
  | none => simp [ofDefault]
  | some l => simp [ofDefault, chars, mark, space, blank]

theorem tabulated_field (hkind : m.kind = .field f) (span : Nat) :
    m.tabulated span = padEnd span m.typeText ++
      ' ' :: (f.name.toList ++ sourceChars (ofDefault f.default) ++ [';']) := by
  rw [Member.tabulated, hkind]

section Declaration

variable (hkind : m.kind = .field f) (hbare : m.extAttrs = [] → m.afterAttrs = [])
  (hfits : ∀ t ∈ memberBody m, t.Fits b) (hfed : LineFed (memberBody m))
include hkind hbare hfits

theorem ends_typeColumn :
    Bare (sourceChars (typeColumn m f)) ∧ Ended (sourceChars (typeColumn m f)) := by
  rw [memberBody_field hkind] at hfits
  have hcolumn := (List.forall_mem_append.mp hfits).1
  exact ⟨bare_typeColumn hcolumn hbare, ended_typeColumn hcolumn⟩

theorem typeText_field : m.typeText = squeeze (sourceChars (typeColumn m f)) := by
  obtain ⟨hstart, hended⟩ := ends_typeColumn hkind hbare hfits
  rw [Member.typeText, hkind]
  exact unwords_words_of_ends hstart.begun hended

theorem typeText_ne_nil : m.typeText ≠ [] := by
  obtain ⟨c, hc, hsolid⟩ := (ends_typeColumn hkind hbare hfits).1.begun
  obtain ⟨tail, htail⟩ := List.head?_eq_some_iff.mp hc
  rw [typeText_field hkind hbare hfits, htail]
  simp [Text.squeeze, squeezeFrom, hsolid]

include hfed

/-- The words in front of a name are its type, and what follows an equals sign its default. -/
theorem ofDeclaration_memberBody :
    FieldText.ofDeclaration (sourceChars (memberBody m).dropLast) =
      ⟨m.typeText, f.name.toList, f.default.map fun l => sourceChars (ofLiteral l)⟩ := by
  obtain ⟨hstart, hended⟩ := ends_typeColumn hkind hbare hfits
  rw [typeText_field hkind hbare hfits]
  rw [memberBody_field hkind] at hfits hfed ⊢
  obtain ⟨hcolumn, hbehind⟩ := List.forall_mem_append.mp hfits
  obtain ⟨hspace, hbehind⟩ := List.forall_mem_cons.mp hbehind
  obtain ⟨hword, hbehind⟩ := List.forall_mem_cons.mp hbehind
  have hletter : f.name.toList ≠ [] ∧ ∀ c ∈ f.name.toList, IsLetter c := hword
  obtain ⟨hne, hletters⟩ := hletter
  have hname : ∀ c ∈ f.name.toList, isWhiteSpace c = false := fun c hc =>
    not_isWhiteSpace_of_isLetter (hletters c hc)
  have hpasses : Passes (· ≠ '=') (sourceChars (typeColumn m f) ++ ' ' :: f.name.toList) := by
    have hnamed := (shaped_typeColumn.append (Shaped.nil.word f.name).space).balanced
      (List.forall_mem_append.mpr ⟨hcolumn,
        List.forall_mem_cons.mpr ⟨hspace, List.forall_mem_singleton.mpr hword⟩⟩)
    rw [lineFed_append finished_typeColumn] at hfed
    have hplain : ∀ t ∈ [space, word f.name], t.isLineComment = false :=
      List.forall_mem_cons.mpr ⟨rfl, List.forall_mem_singleton.mpr rfl⟩
    have hfed := (lineFed_append finished_typeColumn).mpr ⟨hfed.1, lineFed_of_forall hplain⟩
    simpa [chars, space, blank, word] using (hnamed.passes (by decide) hfed).mono (by simp)
  rw [← List.cons_append, ← List.cons_append, ← List.append_assoc, List.dropLast_concat]
  cases hcase : f.default with
  | none =>
    have hsource : sourceChars (typeColumn m f ++ space :: word f.name :: ofDefault none) =
        sourceChars (typeColumn m f) ++ ' ' :: f.name.toList := by
      simp [ofDefault, chars, space, blank, word]
    rw [hsource, ofDeclaration_bare hstart.begun hended hne hname hpasses]
    rfl
  | some l =>
    have hliteral : Balanced b [] (ofLiteral l) :=
      (shaped_ofLiteral (by simp) l).balanced fun t ht => hbehind t (by simp [hcase, ofDefault, ht])
    have hvalue := hliteral.bare (head?_of_forall (ofLiteral_ne_nil l) (solid_ofLiteral l)) []
    rw [List.append_nil] at hvalue
    have hsource : sourceChars (typeColumn m f ++ space :: word f.name :: ofDefault (some l)) =
        sourceChars (typeColumn m f) ++
          ' ' :: (f.name.toList ++ ' ' :: '=' :: ' ' :: sourceChars (ofLiteral l)) := by
      simp [ofDefault, chars, space, blank, word, mark]
    rw [hsource, ofDeclaration_default hstart.begun hended hne hname hpasses hvalue.begun
      (hliteral.ended (finished_ofLiteral l))]
    rfl

theorem fieldLine_memberBody (width : Nat) :
    fieldLine width (FieldText.ofDeclaration (sourceChars (memberBody m).dropLast)) ++ [';'] =
      m.tabulated width := by
  rw [ofDeclaration_memberBody hkind hbare hfits hfed,
    fieldLine_field (typeText_ne_nil hkind hbare hfits), tabulated_field hkind]

end Declaration

theorem parted_typeColumn (hm : m.WellFormed d MemberKind.InDictionary) (hkind : m.kind = .field f) :
    Parted (typeColumn m f) := by
  have hlex := lexable_memberBody (fun _ hk _ hus => lexable_inDictionary hk hus) hm lexable_nil
  rw [memberBody_field hkind, List.append_assoc] at hlex
  exact hlex.1.2.left

theorem exists_field (hm : m.WellFormed d MemberKind.InDictionary) :
    ∃ f, m.kind = .field f ∧ f.WellFormed := by
  have hkind := hm.kind
  generalize m.kind = k at hkind
  cases k with
  | field f => exact ⟨f, rfl, hkind⟩
  | _ => exact hkind.elim

/-- The names of the members of a dictionary stand in one column, behind the widest type. -/
theorem bodyLines_dictionary {x : Dictionary} {closing : List Trivia}
    (hlead : ∀ m ∈ x.members, Trivia.IsRun m.leading)
    (hbare : ∀ m ∈ x.members, m.extAttrs = [] → m.afterAttrs = [])
    (hclosing : Trivia.IsRun closing) (hfits : ∀ t ∈ members x.members, t.Fits b)
    (hfed : LineFed (members x.members ++ trivia closing))
    (hfields : ∀ m ∈ x.members, ∃ f, m.kind = .field f) :
    bodyLines "dictionary".toList (sourceChars (members x.members ++ trivia closing)) =
      linesOf Member.leading (Member.tabulated x.typeSpan) x.members closing := by
  have hread : ∀ m ∈ x.members,
      typeWidth (.declaration (sourceChars (memberBody m).dropLast)) = m.typeText.length ∧
        ∀ width, fieldLine width (FieldText.ofDeclaration (sourceChars (memberBody m).dropLast)) ++
          [';'] = m.tabulated width := by
    intro m hm
    obtain ⟨f, hkind⟩ := hfields m hm
    have hbody := fits_memberBody hfits m hm
    have hfedbody := lineFed_memberBody hbare hfits hfed m hm
    refine ⟨?_, fieldLine_memberBody hkind (hbare m hm) hbody hfedbody⟩
    rw [typeWidth, ofDeclaration_memberBody hkind (hbare m hm) hbody hfedbody]
  have hwidth : columnWidth (x.members.flatMap (fun m => (commentTexts m.leading).map .comment ++
      [.declaration (sourceChars (memberBody m).dropLast)]) ++
        (commentTexts closing).map .comment) = x.typeSpan := by
    have hzeros : ∀ items, ((commentTexts items).map Entry.comment).map typeWidth =
        List.replicate (commentTexts items).length 0 := by
      intro items
      simp [Function.comp_def, typeWidth]
    have hcolumns := @foldl_max_columns _
      (fun m => ((commentTexts m.leading).map Entry.comment ++
        [Entry.declaration (sourceChars (memberBody m).dropLast)]).map typeWidth)
      (fun m => m.typeText.length) x.members (fun m hm => ⟨(commentTexts m.leading).length, by
        rw [List.map_append, hzeros, List.map_singleton, (hread m hm).1]⟩) 0
    rw [columnWidth, List.map_append, List.map_flatMap, List.foldl_append, hcolumns, hzeros,
      foldl_max_zeros, Dictionary.typeSpan]
  rw [bodyLines, if_pos rfl, entries_members hlead hbare hclosing hfits hfed, dictionaryLines,
    hwidth, List.map_append, linesOf, List.map_flatMap, List.map_map]
  congr 1
  · apply List.flatMap_congr
    intro m hm
    simp [Function.comp_def, (hread m hm).2]
  · simp [Function.comp_def]

/-- The attributes of a member hold no line comment. -/
def Inline (m : Member) : Prop :=
  ∀ t ∈ bracketed (ofAttributes m.extAttrs) m.afterAttrs, t.isLineComment = false

theorem Inline.typeColumn (h : Inline m) : ∀ t ∈ typeColumn m f, t.isLineComment = false := by
  have hplain : Pieced false (wordIf f.required "required" ++ ofType f.type) := by simp
  rw [Spelling.typeColumn, List.forall_mem_append]
  exact ⟨h, hplain.not_isLineComment⟩

/-- In one line the type of a member is what is written of it without its trivia. -/
theorem typeText_squeeze (hm : m.WellFormed d MemberKind.InDictionary) (hkind : m.kind = .field f)
    (hfits : ∀ t ∈ memberBody m, t.Fits b) (hinline : Inline m) :
    m.typeText = sourceChars (typeColumn m.squeeze f) := by
  rw [typeText_field hkind hm.annotated.bare hfits, ← map_squeeze_typeColumn hm.annotated]
  rw [memberBody_field hkind] at hfits
  have hbalanced := shaped_typeColumn.balanced (List.forall_mem_append.mp hfits).1
  exact squeezeFrom_sourceChars hbalanced.tame hinline.typeColumn (parted_typeColumn hm hkind)
    (by simp)

/-- The line of a dictionary member and the length of its type. -/
theorem line_of_member {width : Nat} (hm : m.WellFormed d MemberKind.InDictionary)
    (hfits : ∀ t ∈ memberBody m, t.Fits b) (hinline : Inline m) :
    m.tabulated width = sourceChars (fieldTokens width m.squeeze) ∧
      m.typeText.length = typeLength m.squeeze := by
  obtain ⟨f, hkind, -⟩ := exists_field hm
  have hsqueezed : m.squeeze.kind = .field f := hkind
  have htype := typeText_squeeze hm hkind hfits hinline
  have htokens : fieldTokens width m.squeeze =
      typeColumn m.squeeze f ++ (filler width (typeColumn m.squeeze f)).token :: word f.name ::
        (ofDefault f.default ++ [mark ";"]) := by
    rw [fieldTokens, hsqueezed]
  have hfiller : (filler width (typeColumn m.squeeze f)).token.chars =
      List.replicate (width - (sourceChars (typeColumn m.squeeze f)).length) ' ' ++ [' '] := by
    simp [filler, chars, Trivia.token, blank, Trivia.text, List.replicate_succ']
  constructor
  · rw [tabulated_field hkind, htype, htokens, sourceChars_append, sourceChars_cons, hfiller, padEnd]
    simp [chars, word, mark]
  · rw [htype, typeLength, hsqueezed]

/-- The lines of a dictionary body. -/
theorem bodyLines_fields {x : Dictionary} {closing : List Trivia}
    (hbody : Body d MemberKind.InDictionary x.members closing)
    (hfits : ∀ t ∈ members x.members, t.Fits b)
    (hfed : LineFed (members x.members ++ trivia closing)) (hinline : ∀ m ∈ x.members, Inline m) :
    bodyLines "dictionary".toList (sourceChars (members x.members ++ trivia closing)) =
      linesOf Member.leading
        (fun m => sourceChars (fieldTokens (longestType (x.members.map Member.squeeze)) m.squeeze))
        x.members closing := by
  have hline := fun m hm width => @line_of_member d b m width (hbody.members m hm)
    (fits_memberBody hfits m hm) (hinline m hm)
  have hspan : x.typeSpan = longestType (x.members.map Member.squeeze) := by
    rw [Dictionary.typeSpan, longestType, List.map_map]
    apply congrArg (List.foldl max 0)
    exact List.map_congr_left fun m hm => (hline m hm 0).2
  rw [bodyLines_dictionary (fun m hm => (hbody.members m hm).leading.settled.1)
    (fun m hm => (hbody.members m hm).annotated.bare) hbody.closing.settled.1 hfits hfed
    (fun m hm => (exists_field (hbody.members m hm)).imp fun _ h => h.1), linesOf, linesOf, hspan]
  congr 1
  apply List.flatMap_congr
  intro m hm
  rw [(hline m hm _).1]

end Layout

end WebIdl

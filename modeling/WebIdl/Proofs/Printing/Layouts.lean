import WebIdl.Proofs.Printing.Fields
import WebIdl.Proofs.Printing.Values
import WebIdl.Proofs.RoundTrip

/-!
# The printed layout

What the printer makes of a written program is told in tokens again. Empty lines stand between the
definitions, each entry of a body stands on a line of its own, and the members of a dictionary are
squeezed.
-/

namespace WebIdl

open Token Lexer Spelling Grammar
open Text hiding words

/-- The empty line behind a definition. -/
def Trivia.emptyLine : Trivia :=
  .whitespace "\n\n"

namespace Spelling

/-- A block with each entry on a line of its own, behind its comments. -/
def laidBlock {γ : Type} (indent : Nat) (lead : γ → List Trivia) (f : γ → List Token) (gs : List γ)
    (closing : List Trivia) : List Token :=
  block (gs.flatMap fun g => trivia (Trivia.leadLines indent (lead g)) ++ f g)
    (Trivia.lastLines indent closing)

def laidInterface (indent : Nat) (keywords : List String) (i : Interface) : List Token :=
  header keywords i.name i.isPartial i.inheritance ++
    laidBlock indent Member.leading memberBody i.members i.closing

/-- A dictionary with the names of its members in one column. -/
def laidDictionary (indent : Nat) (b : Dictionary) : List Token :=
  header ["dictionary"] b.name b.isPartial b.inheritance ++
    laidBlock indent Member.leading (fieldTokens (longestType b.members)) b.members b.closing

def laidException (indent : Nat) (e : Exception) : List Token :=
  header ["exception"] e.name false e.inheritance ++
    laidBlock indent Member.leading memberBody e.members e.closing

/-- An enum without a comma behind its last value. -/
def laidEnum (indent : Nat) (e : Enum) : List Token :=
  header ["enum"] e.name false none ++
    laidBlock indent (fun v => v.1.leading) valueTokens (withCommas false e.values) e.closing

def laidKind (indent : Nat) : DefinitionKind → List Token
  | .interface i => laidInterface indent ["interface"] i
  | .class i => laidInterface indent ["class"] i
  | .callbackInterface i => laidInterface indent ["callback", "interface"] i
  | .dictionary b => laidDictionary indent b
  | .exception e => laidException indent e
  | .enum e => laidEnum indent e
  | kind => ofDefinitionKind kind

/-- A definition as it is printed. -/
def laidBody (indent : Nat) (x : Definition) : List Token :=
  bracketed (ofAttributes x.extAttrs) x.afterAttrs ++ laidKind indent x.kind

def laidEntry (indent : Nat) (e : List Trivia × Definition) : List Token :=
  trivia e.1 ++ laidBody indent e.2

/-- The definitions of a program, each behind its comments and the empty line in front of them. -/
def laidEntries : List Definition → List (List Trivia × Definition)
  | [] => []
  | x :: xs =>
    (Trivia.dropBlanks x.leading, x) ::
      xs.map fun y => (.emptyLine :: Trivia.dropBlanks y.leading, y)

/-- An empty line stands behind the last definition. -/
def laidEnd (xs : List Definition) : List Trivia :=
  if xs.isEmpty then [] else [.emptyLine]

def laidProgram (indent : Nat) (xs : List Definition) : List Token :=
  (laidEntries xs).flatMap (laidEntry indent) ++ trivia (laidEnd xs)

end Spelling

namespace Layout

variable {d : Dialect} {b : Bool} {w name : String} {ws : List String} {isPartial : Bool}
  {inheritance : Option String} {es : List ExtendedAttribute} {items lead closing : List Trivia}
  {indent : Nat}

/-- A block is printed as it is laid out, if the lines of its body are. -/
theorem statement_laidBlock {γ : Type} {leadOf : γ → List Trivia} {f : γ → List Token} {gs : List γ}
    {body : List Token} (hw : IsName w) (hp : w.toList.head? ≠ some 'p')
    (hlead : Trivia.IsRun lead) (hes : Annotated d es items)
    (hfits : ∀ t ∈ bracketed (ofAttributes es) items ++
      (header (w :: ws) name isPartial inheritance ++ block body closing), t.Fits b)
    (hfed : LineFed (trivia lead ++ (bracketed (ofAttributes es) items ++
      (header (w :: ws) name isPartial inheritance ++ block body closing))))
    (hlines : (∀ t ∈ body, t.Fits b) → LineFed (body ++ trivia closing) →
      bodyLines w.toList (sourceChars (body ++ trivia closing)) =
        linesOf leadOf (fun g => sourceChars (f g)) gs closing) :
    statement indent (Trivia.chars lead ++ sourceChars (bracketed (ofAttributes es) items ++
        (header (w :: ws) name isPartial inheritance ++ block body closing)).dropLast) =
      Trivia.chars (Trivia.dropBlanks lead) ++
        (sourceChars (bracketed (ofAttributes es) items ++
          (header (w :: ws) name isPartial inheritance ++ laidBlock indent leadOf f gs closing)) ++
            "\n\n".toList) := by
  have hblock : block body closing =
      (space :: mark "\x7b" :: ((body ++ trivia closing) ++ [mark "\x7d"])) ++ [mark ";"] := by
    simp [block]
  have hbody : LineFed (body ++ trivia closing) := by
    have hinner := (hfed.of_append.of_append.of_append).2.2
    exact hinner.left (by simp [mark, isWhitespace])
  rw [← List.append_assoc] at hfits
  obtain ⟨hfront, hbehind⟩ := List.forall_mem_append.mp hfits
  have hinner : ∀ t ∈ body, t.Fits b := fun t ht => hbehind t (by simp [block, ht])
  have hframe := @statement_frame b w name ws isPartial inheritance es items lead closing
    (((body ++ trivia closing) ++ [mark "\x7d"]) ++ [mark ";"]) _ leadOf
    (fun g => sourceChars (f g)) gs indent (body ++ trivia closing) hw hp hlead hes.bare
    hes.after.settled.1 hfront (by simpa [hblock] using hfed) (hlines hinner hbody)
  have hlaid : sourceChars (gs.flatMap fun g => trivia (Trivia.leadLines indent (leadOf g)) ++ f g) =
      gs.flatMap fun g => Trivia.chars (Trivia.leadLines indent (leadOf g)) ++ sourceChars (f g) := by
    rw [sourceChars, List.flatMap_assoc]
    apply List.flatMap_congr
    intro g _
    rw [← sourceChars_trivia, ← sourceChars_append]
    rfl
  rw [hblock, ← List.append_assoc, ← List.append_assoc, List.dropLast_concat, List.append_assoc,
    ← sourceChars_trivia, ← sourceChars_append, hframe]
  simp [laidBlock, block, hlaid, sourceChars_trivia, chars, mark, space, blank]

/-- The attributes of dictionary members hold no line comment. -/
def InlineKind : DefinitionKind → Prop
  | .dictionary b => ∀ m ∈ b.members, Inline m
  | _ => True

section Kinds

variable {body : List Token} {ms : List Member}

theorem bodyLines_ofBody {P : MemberKind → Prop} (hdictionary : w ≠ "dictionary")
    (henum : w ≠ "enum") (hbody : Body d P ms closing) (hfits : ∀ t ∈ members ms, t.Fits b)
    (hfed : LineFed (members ms ++ trivia closing)) :
    bodyLines w.toList (sourceChars (members ms ++ trivia closing)) =
      linesOf Member.leading (fun m => sourceChars (memberBody m)) ms closing :=
  bodyLines_members (fun m hm => (hbody.members m hm).leading.settled.1)
    (fun m hm => (hbody.members m hm).annotated.bare) hbody.closing.settled.1 hfits hfed
    hdictionary henum

/-- What has no block is laid out as it was written. -/
theorem statement_plainBody {es : List ExtendedAttribute} {items : List Trivia} {ts : List Token}
    (hlead : Trivia.IsRun lead) (hes : Annotated d es items) (hts : Clause [';', '\x7b'] ts)
    (hopens : Opens ts) (hfits : ∀ t ∈ bracketed (ofAttributes es) items ++ ts, t.Fits b)
    (hfed : LineFed (trivia lead ++ (bracketed (ofAttributes es) items ++ ts))) :
    statement indent (Trivia.chars lead ++
        sourceChars (bracketed (ofAttributes es) items ++ ts).dropLast) =
      Trivia.chars (Trivia.dropBlanks lead) ++
        (sourceChars (bracketed (ofAttributes es) items ++ ts) ++ "\n\n".toList) := by
  have hhead := head?_front hes.bare hopens
  obtain ⟨hfedlead, hfedbody⟩ := lineFed_lead hhead hfed
  have hclause := hts.append (shaped_bracketed (by decide) (shaped_ofAttributes es) items)
  obtain ⟨us, heq, hus, hfinished⟩ := hclause.stated hfits
  obtain ⟨hsource, hbare, hended, -⟩ := front_of_stated
    ⟨us, heq, hus.mono (by simp), hfinished⟩ hhead hfedbody
  rw [heq] at hfedbody
  have hpasses := (hus.passes (by decide) (hfedbody.left (by simp [mark, isWhitespace]))).mono
    (Q := (· ≠ '\x7b')) (by simp)
  rw [hsource]
  rw [heq, List.dropLast_concat] at hbare hended ⊢
  rw [statement_plain hlead hbare.begun hended
    ((passes_chars rfl hlead hfedlead).append hpasses)]
  simp

/-- A definition is printed as its squeezed form is laid out. -/
theorem statement_definitionBody {x : Definition} (hlead : Trivia.IsRun lead) (hx : x.WellFormed d)
    (hfed : LineFed (trivia lead ++ definitionBody x)) (hinline : InlineKind x.kind) :
    statement indent (Trivia.chars lead ++ sourceChars (definitionBody x).dropLast) =
      Trivia.chars (Trivia.dropBlanks lead) ++
        (sourceChars (laidBody indent x.squeeze) ++ "\n\n".toList) := by
  have hfits := fits_definitionBody hx
  obtain ⟨es, leading, items, kind⟩ := x
  obtain ⟨hes, -, hkind⟩ := hx
  cases kind with
  | interface i =>
    have hi : i.WellFormed d := hkind
    exact statement_laidBlock (by decide) (by decide) hlead hes hfits hfed
      (bodyLines_ofBody (by decide) (by decide) hi.body)
  | «class» i =>
    have hi : i.WellFormed d := hkind.2
    exact statement_laidBlock (by decide) (by decide) hlead hes hfits hfed
      (bodyLines_ofBody (by decide) (by decide) hi.body)
  | callbackInterface i =>
    have hi : i.WellFormed d := hkind.2
    exact statement_laidBlock (by decide) (by decide) hlead hes hfits hfed
      (bodyLines_ofBody (by decide) (by decide) hi.body)
  | exception e =>
    have he : e.WellFormed d := hkind
    exact statement_laidBlock (by decide) (by decide) hlead hes hfits hfed
      (bodyLines_ofBody (by decide) (by decide) he.body)
  | dictionary x =>
    have hx : x.WellFormed d := hkind
    refine statement_laidBlock (by decide) (by decide) hlead hes hfits hfed fun hfits hfed => ?_
    rw [bodyLines_fields hx.body hfits hfed hinline, linesOf, linesOf]
    simp only [Dictionary.squeeze, List.flatMap_map]
    rfl
  | enum e =>
    have he : e.WellFormed d := hkind
    exact statement_laidBlock (by decide) (by decide) hlead hes hfits hfed
      fun _ => bodyLines_values he.values he.closing he.noComma
  | callback c =>
    exact statement_plainBody hlead hes (clause_ofCallback (by simp) c) (.word "callback" _) hfits
      hfed
  | typedef t =>
    exact statement_plainBody hlead hes (clause_ofTypedef (by simp) t) (.word "typedef" _) hfits hfed
  | implements i =>
    exact statement_plainBody hlead hes (clause_ofImplements i) (.word i.target _) hfits hfed

end Kinds

/-- What stands behind each of some texts may as well stand in front of them and at the end. -/
theorem append_flatMap_append {α : Type} (cs : List Char) (f : α → List Char) (l : List α) :
    cs ++ l.flatMap (fun x => f x ++ cs) = l.flatMap (fun x => cs ++ f x) ++ cs := by
  induction l with
  | nil => simp
  | cons x l ih =>
    rw [List.flatMap_cons, List.flatMap_cons, List.append_assoc (f x), ih]
    simp

theorem dropBlanks_brokenLine (items : List Trivia) :
    Trivia.dropBlanks (brokenLine items) = Trivia.dropBlanks items := by
  cases items <;> rfl

theorem sourceChars_laidProgram (xs : List Definition) :
    sourceChars (laidProgram indent (xs.map Definition.squeeze)) =
      (Spelling.entries xs).flatMap fun e => Trivia.chars (Trivia.dropBlanks e.1) ++
        (sourceChars (laidBody indent e.2.squeeze) ++ "\n\n".toList) := by
  cases xs with
  | nil => rfl
  | cons x xs =>
    have hrest := append_flatMap_append "\n\n".toList (fun y : Definition =>
      Trivia.chars (Trivia.dropBlanks y.leading) ++ sourceChars (laidBody indent y.squeeze)) xs
    have hlaid : sourceChars ((xs.map fun y => (Trivia.emptyLine :: Trivia.dropBlanks y.leading,
          y.squeeze)).flatMap (laidEntry indent)) =
        xs.flatMap fun y => "\n\n".toList ++ (Trivia.chars (Trivia.dropBlanks y.leading) ++
          sourceChars (laidBody indent y.squeeze)) := by
      rw [sourceChars, List.flatMap_assoc, List.flatMap_map]
      apply List.flatMap_congr
      intro y _
      change sourceChars (laidEntry indent _) = _
      rw [laidEntry, sourceChars_append, sourceChars_trivia, Trivia.chars_cons, List.append_assoc]
      rfl
    have hentries : laidEntries ((x :: xs).map Definition.squeeze) =
        (Trivia.dropBlanks x.leading, x.squeeze) ::
          xs.map fun y => (Trivia.emptyLine :: Trivia.dropBlanks y.leading, y.squeeze) := by
      rw [List.map_cons, laidEntries, List.map_map]
      rfl
    have hend : Trivia.chars (laidEnd ((x :: xs).map Definition.squeeze)) = "\n\n".toList := rfl
    rw [laidProgram, hentries, List.flatMap_cons, sourceChars_append, sourceChars_append, hlaid,
      sourceChars_trivia, hend, laidEntry, sourceChars_append, sourceChars_trivia, List.append_assoc,
      ← hrest, Spelling.entries, List.flatMap_cons, List.flatMap_map]
    simp only [dropBlanks_brokenLine, List.append_assoc]

/-- The printed text of written definitions. -/
theorem printChars_ofDefinitions {xs : List Definition} (hxs : ∀ x ∈ xs, x.WellFormed d)
    (hfed : LineFed (ofDefinitions xs)) (hinline : ∀ x ∈ xs, InlineKind x.kind) :
    printChars indent (sourceChars (ofDefinitions xs)) =
      sourceChars (laidProgram indent (xs.map Definition.squeeze)) := by
  have hsettled := fun e he => @settled_of_mem_entries d xs hxs e he
  have hmem : ∀ e ∈ Spelling.entries xs, e.2 ∈ xs := by
    intro e he
    rw [← map_snd_entries xs]
    exact List.mem_map_of_mem he
  have hstated := fun e he => stated_definitionBody (hsettled e he).2
  have hhead : ∀ e ∈ Spelling.entries xs, ∃ t ∈ (definitionBody e.2).head?, t.isWhitespace = false :=
    fun e he => head?_front (hsettled e he).2.annotated.bare (opens_ofDefinitionKind e.2.kind)
  have hlead := fun e he => (hsettled e he).1.1
  have hremainder : remainder [] = [] := rfl
  have hentry : entryTokens = fun e : List Trivia × Definition =>
      Spelling.trivia e.1 ++ definitionBody e.2 := rfl
  rw [ofDefinitions_eq, hentry, ← List.append_nil (List.flatMap _ _), ← trivia_nil] at hfed ⊢
  rw [printChars, sourceChars_laidProgram, split_stated hstated hhead hlead .nil hfed]
  simp only [Trivia.chars_nil, hremainder, List.append_nil, List.flatMap_map]
  apply List.flatMap_congr
  intro e he
  refine statement_definitionBody (hlead e he) (hsettled e he).2 ?_ (hinline _ (hmem e he))
  have hpiece := lineFed_flatMap (fun e he => (hstated e he).finished.append_left _) hfed
  exact hpiece.1 e he

end Layout

end WebIdl

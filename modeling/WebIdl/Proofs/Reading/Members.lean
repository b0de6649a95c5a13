import WebIdl.Grammar.Members
import WebIdl.Proofs.Reading.Attributes

/-!
# Reading written members

The productions of a body are tried in a fixed order. One that does not stand in the text leaves
it as it is, which is told from the first words; the one that does reads the member back.
-/

namespace WebIdl.Grammar

open Token Cursor Spelling

variable {α : Type} {exact : Bool} {d : Dialect} {c : Cursor} {ts us : List Token}

/-- The keyword is there, or it is not. -/
theorem reads_keyword_cases {w : String} {Q : Bool → Cursor → Prop} (hc : Near exact c ts)
    (hyes : ∀ us c', core ts = word w :: us → Near exact c' us → Q true c')
    (hno : ∀ c', ¬Begins [w] ts → Near exact c' ts → Q false c') : Reads c (keyword w) Q := by
  by_cases h : Begins [w] ts
  · obtain ⟨us, hus⟩ := List.head?_eq_some_iff.mp (begins_singleton.mp h)
    exact reads_keyword hc hus fun c' hc' => hyes us c' hus hc'.toNear
  · exact reads_keyword_none hc (head?_ne_of_not_begins h) fun c' hc' => hno c' h hc'.near

/-- A production that starts with its keyword. -/
theorem reads_keyword_absent {w : String} {Q : Bool → Cursor → Prop} (hc : Near exact c ts)
    (hts : ¬Begins [w] ts) (h : ∀ c', Near exact c' ts → Q false c') : Reads c (keyword w) Q :=
  reads_keyword_none hc (head?_ne_of_not_begins hts) fun c' hc' => h c' hc'.near

section Keywords

variable {κ : Type} {g : κ → String} {f : κ → Reader (Option κ)}

/-- One of several keywords, whatever their order. -/
theorem reads_firstOf_keyword
    (hf : ∀ k, f k = do return if ← keyword (g k) then some k else none)
    (hg : ∀ k l, g k = g l → k = l) {ks : List κ} {k : κ} (hk : k ∈ ks)
    {Q : Option κ → Cursor → Prop} (hc : Near exact c (word (g k) :: us))
    (h : ∀ c', At exact c' us → Q (some k) c') : Reads c (firstOf (ks.map f)) Q := by
  induction ks generalizing c with
  | nil => cases hk
  | cons l ks ih =>
    rw [List.map_cons]
    by_cases heq : l = k
    · subst heq
      refine reads_firstOf ?_
      rw [hf, reads_bind]
      exact reads_keyword hc rfl fun c' hc' => reads_pure.mpr ⟨l, rfl, h c' hc'⟩
    · refine reads_firstOf_next ?_
      rw [hf, reads_bind]
      refine reads_keyword_none hc ?_ fun c' hc' => reads_pure.mpr ⟨rfl, ?_⟩
      · simpa using fun hw => heq (hg _ _ hw).symm
      · exact ih ((List.mem_cons.mp hk).resolve_left (Ne.symm heq)) hc'.near

theorem reads_firstOf_keyword_none
    (hf : ∀ k, f k = do return if ← keyword (g k) then some k else none) {ks : List κ}
    {Q : Option κ → Cursor → Prop} (hc : Near exact c ts) (hts : ∀ k ∈ ks, ¬Begins [g k] ts)
    (h : ∀ c', Near exact c' ts → Q none c') : Reads c (firstOf (ks.map f)) Q := by
  induction ks generalizing c with
  | nil => exact reads_pure.mpr (h c hc)
  | cons k ks ih =>
    obtain ⟨hk, hks⟩ := List.forall_mem_cons.mp hts
    rw [List.map_cons]
    refine reads_firstOf_next ?_
    rw [hf, reads_bind]
    exact reads_keyword_absent hc hk fun c' hc' => reads_pure.mpr ⟨rfl, ih hc' hks⟩

end Keywords

/-- A member that was read for another one. -/
structure SameKind (exact : Bool) (k k' : MemberKind) : Prop where
  erase : k'.erase = k.erase
  written : exact → ofMemberKind k' = ofMemberKind k

theorem SameKind.refl (k : MemberKind) : SameKind exact k k :=
  ⟨rfl, fun _ => rfl⟩

/-- A typedef that was read for another one. -/
structure SameTypedef (exact : Bool) (t t' : Typedef) : Prop where
  erase : t'.erase = t.erase
  written : exact → ofTypedef t' = ofTypedef t

theorem reads_typedef (hd : exact → d.keepTrivia) {t : Typedef} {Q : Option Typedef → Cursor → Prop}
    (ht : t.WellFormed d) (hc : Near exact c (ofTypedef t ++ us))
    (h : ∀ t' c', SameTypedef exact t t' → At exact c' us → Q (some t') c') :
    Reads c (typedef d) Q := by
  simp only [ofTypedef, List.cons_append, List.append_assoc, List.nil_append] at hc
  have hopens := (opens_ofType t.type).append (space :: word t.name :: mark ";" :: us)
  rw [typedef, reads_bind]
  refine reads_keyword hc rfl fun c1 hc1 => ?_
  refine reads_annotation hd ht.annotated hopens.core_eq (hopens.head?_ne (by decide))
    hc1.toNear.of_space fun es' items' c2 hsame hc2 => reads_bind.mpr (reads_expect ?_)
  refine reads_idlType ht.type hc2.toNear (precedes_word ht.apart _) fun c3 hc3 =>
    ⟨_, rfl, reads_bind.mpr ?_⟩
  refine reads_expectIdentifier hc3.near rfl ht.name.unescape_word fun c4 hc4 => reads_bind.mpr ?_
  refine reads_expectSymbol hc4.toNear rfl fun c5 hc5 => reads_pure.mpr (h _ c5 ⟨?_, ?_⟩ hc5)
  · rw [Typedef.erase, Typedef.erase, hsame.erase]
  · intro hx
    rw [ofTypedef, ofTypedef, hsame.written hx]

theorem reads_typedef_none {Q : Option Typedef → Cursor → Prop} (hc : Near exact c ts)
    (hts : ¬Begins ["typedef"] ts) (h : ∀ c', Near exact c' ts → Q none c') :
    Reads c (typedef d) Q := by
  rw [typedef, reads_bind]
  exact reads_keyword_absent hc hts fun c' hc' => reads_pure.mpr (h c' hc')

theorem reads_constType {t : IdlType} {name : String} {Q : IdlType → Cursor → Prop}
    (ht : t.IsConst) (hname : t.Apart name)
    (hc : Near exact c (ofType t ++ space :: word name :: us))
    (h : ∀ c', Near exact c' (word name :: us) → Q t c') : Reads c constType Q := by
  have hsuffix : ∀ {c : Cursor} {nullable : Bool} {f : Bool → Reader IdlType},
      Near exact c (ofSuffix ⟨nullable, []⟩ ++ space :: word name :: us) →
      (∀ c', Near exact c' (word name :: us) → Reads c' (f nullable) Q) →
      Reads c (symbol "?" >>= f) Q := by
    intro c nullable f hc hf
    rw [reads_bind]
    cases nullable with
    | true => exact reads_symbol hc rfl fun c' hc' => hf c' hc'.toNear.of_space
    | false => exact reads_symbol_none hc (by simp [ofSuffix]) fun c' hc' => hf c' hc'.near.of_space
  rw [constType, reads_bind]
  cases ht with
  | primitive p nullable =>
    rw [ofType, List.append_assoc] at hc
    refine reads_primitiveType hc (fun unsigned hp => ?_) fun c1 hc1 => ?_
    · subst hp
      cases nullable with
      | true => simp [ofSuffix]
      | false => simpa [ofSuffix] using hname unsigned rfl
    · exact hsuffix hc1 fun c2 hc2 => reads_pure.mpr (h c2 hc2)
  | @named n nullable hn =>
    rw [ofType, List.cons_append] at hc
    refine reads_primitiveType_name hn hc fun c1 hc1 => reads_bind.mpr ?_
    refine reads_expectIdentifier hc1.toNear rfl hn.unescape_word fun c2 hc2 => ?_
    exact hsuffix hc2.toNear fun c3 hc3 => reads_pure.mpr (h c3 hc3)

theorem reads_const {k : Const} {Q : Option Const → Cursor → Prop} (hk : k.WellFormed)
    (hc : Near exact c (ofConst k ++ us)) (h : ∀ c', At exact c' us → Q (some k) c') :
    Reads c const Q := by
  simp only [ofConst, ofDefault, List.cons_append, List.append_assoc, List.nil_append] at hc
  rw [const, reads_bind]
  refine reads_keyword hc rfl fun c1 hc1 => reads_bind.mpr ?_
  refine reads_constType hk.type hk.apart hc1.toNear.of_space fun c2 hc2 => reads_bind.mpr ?_
  refine reads_expectIdentifier hc2 rfl hk.name.unescape_word fun c3 hc3 => reads_bind.mpr ?_
  refine reads_expectSymbol hc3.toNear rfl fun c4 hc4 => reads_bind.mpr (reads_expect ?_)
  refine reads_constValue hk.isConst hc4.toNear.of_space fun c5 hc5 => ⟨_, rfl, reads_bind.mpr ?_⟩
  exact reads_expectSymbol hc5.toNear rfl fun c6 hc6 => reads_pure.mpr (h c6 hc6)

theorem reads_const_none {Q : Option Const → Cursor → Prop} (hc : Near exact c ts)
    (hts : ¬Begins ["const"] ts) (h : ∀ c', Near exact c' ts → Q none c') :
    Reads c const Q := by
  rw [const, reads_bind]
  exact reads_keyword_absent hc hts fun c' hc' => reads_pure.mpr (h c' hc')

/-- An attribute from `readonly` on. -/
def attributeRest (isStatic stringifier inherits : Bool) : Reader (Option Attribute) := do
  let readonly ← keyword "readonly"
  if ← keyword "attribute" then
    let type ← expect .noAttributeType idlType
    if type.isSequence then
      fail .sequenceAttribute
    else
      let name ← expectIdentifier .noAttributeName
      expectSymbol ";" .unfinishedAttribute
      return some { isStatic, stringifier, inherits, readonly, type, name }
  else
    return none

/-- An attribute from `inherit` on. -/
def attributeInherit (isStatic stringifier : Bool) : Reader (Option Attribute) := do
  let inherits ← keyword "inherit"
  if inherits && (isStatic || stringifier) then
    fail .inheritStaticOrStringifier
  else
    attributeRest isStatic stringifier inherits

theorem attributeMember_eq :
    attributeMember = attempt (do
      let isStatic ← keyword "static"
      let stringifier ← if isStatic then pure false else keyword "stringifier"
      attributeInherit isStatic stringifier) :=
  rfl

theorem reads_attributeMember {a : Attribute} {Q : Option Attribute → Cursor → Prop}
    (ha : a.WellFormed) (hc : Near exact c (ofAttributeMember a ++ us))
    (h : ∀ c', At exact c' us → Q (some a) c') : Reads c attributeMember Q := by
  obtain ⟨isStatic, stringifier, inherits, readonly, type, name⟩ := a
  obtain ⟨htype, hsequence, hname, happart, hstatic, hinherits⟩ := ha
  simp only [ofAttributeMember, List.cons_append, List.append_assoc, List.nil_append] at hc
  have hinherit : ∀ c', Near exact c' (wordIf inherits "inherit" ++ (wordIf readonly "readonly" ++
      word "attribute" :: space :: (ofType type ++ space :: word name :: mark ";" :: us))) →
      Reads c' (attributeInherit isStatic stringifier) fun o c'' =>
        ∃ a, o = some a ∧ Q (some a) c'' := by
    intro c1 hc1
    have hallowed : (inherits && (isStatic || stringifier)) = false := by
      cases inherits with
      | false => rfl
      | true => simpa using hinherits rfl
    refine reads_bind.mpr (reads_keyword_wordIf hc1 (fun _ => ?_) fun c2 hc2 => ?_)
    · cases readonly <;> simp [wordIf]
    rw [if_neg (by simp [hallowed])]
    refine reads_bind.mpr (reads_keyword_wordIf hc2 (fun _ => by simp) fun c3 hc3 => ?_)
    refine reads_bind.mpr (reads_keyword hc3 rfl fun c4 hc4 => reads_bind.mpr (reads_expect ?_))
    refine reads_idlType htype hc4.toNear.of_space (precedes_word happart _) fun c5 hc5 =>
      ⟨_, rfl, ?_⟩
    rw [if_neg (by simpa using hsequence)]
    refine reads_bind.mpr (reads_expectIdentifier hc5.near rfl hname.unescape_word fun c6 hc6 => ?_)
    refine reads_bind.mpr (reads_expectSymbol hc6.toNear rfl fun c7 hc7 => ?_)
    exact reads_pure.mpr ⟨_, rfl, h c7 hc7⟩
  rw [attributeMember_eq]
  refine reads_attempt (reads_bind.mpr (reads_keyword_wordIf hc (fun _ => ?_) fun c1 hc1 => ?_))
  · cases stringifier <;> cases inherits <;> cases readonly <;> simp [wordIf]
  cases isStatic with
  | true =>
    obtain rfl : stringifier = false := hstatic rfl
    exact reads_bind.mpr (reads_pure.mpr (hinherit c1 hc1))
  | false =>
    refine reads_bind.mpr (reads_keyword_wordIf hc1 (fun _ => ?_) fun c2 hc2 => hinherit c2 hc2)
    cases inherits <;> cases readonly <;> simp [wordIf]

theorem reads_attributeRest_none {isStatic stringifier inherits : Bool}
    (hc : Near exact c ts) (hattribute : ¬Begins ["attribute"] ts)
    (hreadonly : ¬Begins ["readonly", "attribute"] ts) :
    Reads c (attributeRest isStatic stringifier inherits) fun o _ => o = none := by
  refine reads_bind.mpr (reads_keyword_cases hc (fun us c1 hus hc1 => ?_) fun c1 _ hc1 => ?_)
  · rw [begins_cons_of_core hus] at hreadonly
    refine reads_bind.mpr (reads_keyword_absent hc1 (fun hb => hreadonly ⟨rfl, hb⟩) ?_)
    exact fun c2 _ => reads_pure.mpr rfl
  · exact reads_bind.mpr (reads_keyword_absent hc1 hattribute fun c2 _ => reads_pure.mpr rfl)

/-- Behind `static` or `stringifier` the word `inherit` would be an error. -/
theorem reads_attributeInherit_none {isStatic stringifier : Bool} (hc : Near exact c ts)
    (hts : ∀ ws ∈ attributeStarts, ¬Begins ws ts) :
    Reads c (attributeInherit isStatic stringifier) fun o _ => o = none := by
  refine reads_bind.mpr (reads_keyword_absent hc (hts _ (by simp [attributeStarts])) ?_)
  intro c1 hc1
  rw [Bool.false_and, if_neg Bool.false_ne_true]
  exact reads_attributeRest_none hc1 (hts _ (by simp [attributeStarts]))
    (hts _ (by simp [attributeStarts]))

/-- Without the first words of an attribute nothing is read. -/
theorem reads_attributeMember_none {Q : Option Attribute → Cursor → Prop} (hc : Near exact c ts)
    (hts : ∀ ws ∈ attributeMemberStarts, ¬Begins ws ts) (h : Q none c) :
    Reads c attributeMember Q := by
  rw [attributeMember_eq]
  refine reads_attempt_none (reads_bind.mpr ?_) h
  refine reads_keyword_cases hc (fun us c1 hus hc1 => ?_) fun c1 _ hc1 => ?_
  · refine reads_bind.mpr (reads_pure.mpr (reads_attributeInherit_none hc1 fun ws hws hb => ?_))
    refine hts ("static" :: ws) ?_ ((begins_cons_of_core hus).mpr ⟨rfl, hb⟩)
    simp [attributeMemberStarts, hws]
  refine reads_bind.mpr ?_
  refine reads_keyword_cases hc1 (fun us c2 hus hc2 => ?_) fun c2 _ hc2 => ?_
  · refine reads_attributeInherit_none hc2 fun ws hws hb => ?_
    refine hts ("stringifier" :: ws) ?_ ((begins_cons_of_core hus).mpr ⟨rfl, hb⟩)
    simp [attributeMemberStarts, hws]
  refine reads_bind.mpr ?_
  refine reads_keyword_cases hc2 (fun us c3 hus hc3 => ?_) fun c3 _ hc3 => ?_
  · refine reads_attributeRest_none hc3 (fun hb => ?_) fun hb => ?_
    · exact hts ["inherit", "attribute"] (by simp [attributeMemberStarts])
        ((begins_cons_of_core hus).mpr ⟨rfl, hb⟩)
    · exact hts ["inherit", "readonly", "attribute"] (by simp [attributeMemberStarts])
        ((begins_cons_of_core hus).mpr ⟨rfl, hb⟩)
  · exact reads_attributeRest_none hc3 (hts _ (by simp [attributeMemberStarts]))
      (hts _ (by simp [attributeMemberStarts]))

theorem iterableKind_keyword_inj : ∀ k l : IterableKind, k.keyword = l.keyword → k = l := by
  intro k l h
  cases k <;> cases l <;> first | rfl | (simp [IterableKind.keyword] at h)

/-- The second type, where there is one, in front of the closing mark. -/
theorem reads_secondType {kind : IterableKind} {types : List IdlType}
    {Q : List IdlType → Cursor → Prop} (htypes : ∀ t ∈ types, t.WellFormed)
    (hkind : (types.length = 0 ∧ kind.requiresSecond = false) ∨
      (types.length = 1 ∧ kind.allowsSecond))
    (hc : Near exact c (types.flatMap (fun t => mark "," :: space :: ofType t) ++ mark ">" :: us))
    (h : ∀ c', Near exact c' (mark ">" :: us) → Q types c') : Reads c (secondType kind) Q := by
  rw [secondType]
  rcases hkind with ⟨hlen, hrequires⟩ | ⟨hlen, hallows⟩
  · obtain rfl := List.length_eq_zero_iff.mp hlen
    split
    · refine reads_bind.mpr (reads_symbol_none hc (by simp) fun c1 hc1 => reads_bind.mpr ?_)
      refine reads_pure.mpr ?_
      beta_reduce
      rw [if_neg (by simp [hrequires])]
      exact reads_pure.mpr (h c1 hc1.near)
    · exact reads_pure.mpr (h c hc)
  · obtain ⟨t, rfl⟩ := List.length_eq_one_iff.mp hlen
    rw [if_pos hallows]
    simp only [List.flatMap_cons, List.flatMap_nil, List.append_nil, List.cons_append] at hc
    refine reads_bind.mpr (reads_symbol hc rfl fun c1 hc1 => reads_bind.mpr ?_)
    refine reads_idlType (htypes t (by simp)) hc1.toNear.of_space (precedes_mark (by decide) us)
      fun c2 hc2 => ?_
    beta_reduce
    rw [if_neg (by simp)]
    exact reads_pure.mpr (h c2 hc2.near)

theorem reads_iterable {i : Iterable} {Q : Option Iterable → Cursor → Prop} (hi : i.WellFormed)
    (hc : Near exact c (ofIterable i ++ us)) (h : ∀ c', At exact c' us → Q (some i) c') :
    Reads c iterable Q := by
  obtain ⟨kind, readonly, types⟩ := i
  obtain ⟨htypes, hcount, hreadonly⟩ := hi
  obtain ⟨t, types, rfl⟩ : ∃ t ts, types = t :: ts := by
    cases types with
    | nil => simp at hcount
    | cons t ts => exact ⟨t, ts, rfl⟩
  obtain ⟨ht, htypes⟩ := List.forall_mem_cons.mp htypes
  rw [ofIterable, List.map_cons, joined_cons, List.flatMap_map] at hc
  simp only [List.cons_append, List.append_assoc, List.nil_append] at hc
  have hcount : (types.length = 0 ∧ kind.requiresSecond = false) ∨
      (types.length = 1 ∧ kind.allowsSecond) := by
    simpa using hcount
  refine reads_attempt (reads_bind.mpr (reads_keyword_wordIf hc (fun _ => ?_) fun c1 hc1 => ?_))
  · cases kind <;> simp [IterableKind.keyword]
  refine reads_bind.mpr ?_
  rw [iterableKind]
  refine reads_firstOf_keyword (g := IterableKind.keyword) (fun _ => rfl)
    iterableKind_keyword_inj ?_ hc1 fun c2 hc2 => reads_bind.mpr ?_
  · cases readonly with
    | false => cases kind <;> simp
    | true => rcases hreadonly rfl with rfl | rfl <;> simp
  refine reads_bind.mpr (reads_expectSymbol hc2.toNear rfl fun c3 hc3 => reads_bind.mpr ?_)
  refine reads_expect (reads_idlType ht hc3.toNear ?_ fun c4 hc4 => ⟨_, rfl, reads_bind.mpr ?_⟩)
  · cases types with
    | nil => exact precedes_mark (by decide) _
    | cons => exact precedes_mark (by decide) _
  refine reads_secondType htypes hcount hc4.near fun c5 hc5 => reads_bind.mpr ?_
  refine reads_expectSymbol hc5 rfl fun c6 hc6 => reads_bind.mpr ?_
  refine reads_expectSymbol hc6.toNear rfl fun c7 hc7 => ?_
  exact reads_pure.mpr (reads_pure.mpr ⟨_, rfl, h c7 hc7⟩)

theorem reads_iterable_none {Q : Option Iterable → Cursor → Prop} (hc : Near exact c ts)
    (hts : ∀ ws ∈ iterableStarts, ¬Begins ws ts) (h : Q none c) : Reads c iterable Q := by
  refine reads_attempt_none (reads_bind.mpr ?_) h
  refine reads_keyword_cases hc (fun us c1 hus hc1 => ?_) fun c1 _ hc1 => ?_
  · rw [reads_bind, iterableKind]
    refine reads_firstOf_keyword_none (g := IterableKind.keyword) (fun _ => rfl) hc1
      (fun k hk hb => ?_) fun c2 _ => reads_pure.mpr rfl
    refine hts ["readonly", k.keyword] ?_ ((begins_cons_of_core hus).mpr ⟨rfl, hb⟩)
    cases k <;> simp [iterableStarts, IterableKind.keyword] at hk ⊢
  · rw [reads_bind, iterableKind]
    refine reads_firstOf_keyword_none (g := IterableKind.keyword) (fun _ => rfl) hc1
      (fun k _ => hts _ ?_) fun c2 _ => reads_pure.mpr rfl
    cases k <;> simp [iterableStarts, IterableKind.keyword]

theorem reads_dictionaryField {f : Field} {Q : MemberKind → Cursor → Prop} (hf : f.WellFormed)
    (hc : Near exact c (ofField f ++ us)) (h : ∀ c', At exact c' us → Q (.field f) c') :
    Reads c dictionaryField Q := by
  obtain ⟨required, type, name, default⟩ := f
  obtain ⟨htype, hname, happart, hdefault, hrequired, hoptional⟩ := hf
  simp only [ofField, List.cons_append, List.append_assoc, List.nil_append] at hc
  have hend : ∀ c', Near exact c' (mark ";" :: us) → Reads c' (do
      if required && default.isSome then
        fail .requiredWithDefault
      else
        expectSymbol ";" .unfinishedField
        return .field { required, type, name, default }) Q := by
    intro c1 hc1
    have hallowed : (required && default.isSome) = false := by
      cases required with
      | false => rfl
      | true => rw [show default = none from hrequired rfl]; rfl
    rw [if_neg (by simp [hallowed])]
    exact reads_bind.mpr (reads_expectSymbol hc1 rfl fun c2 hc2 => reads_pure.mpr (h c2 hc2))
  rw [dictionaryField, reads_bind]
  refine reads_keyword_wordIf hc (fun hr heq => hoptional hr (begins_ofType heq)) fun c1 hc1 => ?_
  refine reads_bind.mpr (reads_expect ?_)
  refine reads_idlType htype hc1 (precedes_word happart _) fun c2 hc2 => ⟨_, rfl, ?_⟩
  refine reads_bind.mpr (reads_expectIdentifier hc2.near rfl hname.unescape_word fun c3 hc3 => ?_)
  refine reads_bind.mpr ?_
  cases default with
  | none =>
    refine reads_defaultValue_none hc3.toNear (by simp [ofDefault]) fun c4 hc4 => ?_
    exact hend c4 hc4.near
  | some l => exact reads_defaultValue (hdefault l rfl) hc3.toNear fun c4 hc4 => hend c4 hc4.toNear

theorem reads_exceptionMember {k : MemberKind} {Q : MemberKind → Cursor → Prop}
    (hk : k.InException) (hc : Near exact c (ofMemberKind k ++ us))
    (h : ∀ c', At exact c' us → Q k c') : Reads c exceptionMember Q := by
  rw [exceptionMember, reads_bind]
  cases k with
  | const x => exact reads_const hk hc fun c1 hc1 => reads_pure.mpr (h c1 hc1)
  | field f =>
    obtain ⟨required, type, name, default⟩ := f
    obtain ⟨htype, hname, happart, hoptional, hdefault, hconst⟩ := hk
    obtain rfl : required = false := hoptional
    obtain rfl : default = none := hdefault
    simp only [ofMemberKind, ofField, ofDefault, wordIf, List.cons_append, List.append_assoc,
      List.nil_append] at hc
    refine reads_const_none hc (fun hb => hconst (begins_ofType (begins_singleton.mp hb)))
      fun c1 hc1 => ?_
    refine reads_bind.mpr (reads_idlType htype hc1 (precedes_word happart _) fun c2 hc2 => ?_)
    refine reads_bind.mpr (reads_identifier hc2.near rfl hname.unescape_word fun c3 hc3 => ?_)
    exact reads_bind.mpr (reads_expectSymbol hc3.toNear rfl fun c4 hc4 =>
      reads_pure.mpr (h c4 hc4))
  | _ => exact hk.elim

end WebIdl.Grammar

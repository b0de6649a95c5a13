import WebIdl.Proofs.Reading.Members

/-!
# Reading written operations
-/

namespace WebIdl.Grammar

open Token Cursor Spelling

variable {exact : Bool} {d : Dialect} {c : Cursor} {ts us : List Token}

/-- The name of an operation behind its type, if it has one. -/
def nameBehind (name : Option String) : List Token :=
  name.toList.flatMap fun n => [space, word n]

/-- An operation from its parenthesis on. -/
def call (args : List Argument) (us : List Token) : List Token :=
  mark "(" :: (ofArguments args ++ mark ")" :: mark ";" :: us)

theorem signature_append (type : IdlType) (name : Option String) (args : List Argument)
    (us : List Token) :
    signature type name args ++ us = ofType type ++ (nameBehind name ++ call args us) := by
  simp [signature, nameBehind, call]

theorem precedes_call {t : IdlType} {name : Option String} (hname : ∀ n ∈ name, t.Apart n)
    (args : List Argument) (us : List Token) : Precedes t (nameBehind name ++ call args us) := by
  cases name with
  | none => exact precedes_mark (by decide) _
  | some n => exact precedes_word (hname n rfl) _

theorem reads_operationRest (hd : exact → d.keepTrivia) {name : Option String}
    {args : List Argument} {Q : Option String × List Argument → Cursor → Prop}
    (hname : ∀ n ∈ name, IsName n) (hargs : ∀ a ∈ args, a.WellFormed d)
    (hc : Near exact c (nameBehind name ++ call args us))
    (h : ∀ args' c', SameArguments exact args args' → At exact c' us → Q (name, args') c') :
    Reads c (operationRest d) Q := by
  have hcall : ∀ c', Near exact c' (call args us) → Reads c' (do
      expectSymbol "(" .invalidOperation
      let arguments ← argumentList d
      expectSymbol ")" .unfinishedOperation
      expectSymbol ";" .unfinishedOperation
      return (name, arguments)) Q := by
    intro c1 hc1
    refine reads_bind.mpr (reads_expectSymbol hc1 rfl fun c2 hc2 => reads_bind.mpr ?_)
    refine reads_argumentList hd hargs hc2 fun args' c3 hsame hc3 => reads_bind.mpr ?_
    refine reads_expectSymbol hc3 rfl fun c4 hc4 => reads_bind.mpr ?_
    exact reads_expectSymbol hc4.toNear rfl fun c5 hc5 => reads_pure.mpr (h args' c5 hsame hc5)
  rw [operationRest, reads_bind]
  cases name with
  | none => exact reads_identifier_mark hc rfl fun c1 hc1 => hcall c1 hc1
  | some n =>
    exact reads_identifier hc rfl (hname n rfl).unescape_word fun c1 hc1 => hcall c1 hc1.toNear

theorem special_keyword_inj : ∀ s t : Special, s.keyword = t.keyword → s = t := by
  intro s t h
  cases s <;> cases t <;> first | rfl | (simp [Special.keyword] at h)

/-- The keywords of a set as they are written. -/
def marksOf (marks : List Special) : List Token :=
  marks.flatMap fun s => [word s.keyword, space]

theorem insert_toList (marks : Specials) : marks.toList.foldl Specials.insert {} = marks := by
  obtain ⟨_ | _, _ | _, _ | _, _ | _, _ | _⟩ := marks <;> rfl

theorem reads_specials {marks : Specials} {Q : Specials → Cursor → Prop}
    (hts : ∀ s : Special, ¬Begins [s.keyword] ts)
    (hc : Near exact c (marksOf marks.toList ++ ts))
    (h : ∀ c', Near exact c' ts → Q marks c') : Reads c specials Q := by
  have hlen : marks.toList.length ≤ c.remaining := by
    have hle := @length_le_solids_flatMap _ (fun s : Special => [word s.keyword, space])
      marks.toList (by simp)
    have := hc.length_le
    rw [solids_append, List.length_append] at this
    exact Nat.le_trans hle (Nat.le_of_add_right_le this)
  rw [specials, reads_bind]
  refine (reads_many (P := fun ms c => Near exact c (marksOf ms ++ ts)) (R := Eq)
    (Q := fun c' => Near exact c' ts) ?_ ?_ hlen hc).mono ?_
  · intro s ms c hc
    refine reads_firstOf_keyword (g := Special.keyword) (fun _ => rfl) special_keyword_inj
      (by cases s <;> simp [Special.all]) hc fun c' hc' => ⟨s, rfl, rfl, hc'.toNear.of_space⟩
  · intro c hc
    exact reads_firstOf_keyword_none (g := Special.keyword) (fun _ => rfl) hc
      (fun s _ => hts s) fun c' hc' => ⟨rfl, hc'⟩
  · rintro ms c' ⟨heq, hc'⟩
    rw [List.forall₂_eq_eq_eq] at heq
    rw [← heq, insert_toList]
    exact reads_pure.mpr (h c' hc')

/-- Words that come first in front of a mark come first without it too. -/
theorem begins_append_mark {ws : List String} {m : String}
    (h : Begins ws (ts ++ mark m :: us)) : Begins ws ts := by
  have hnot : mark m ∉ ws.map word := by simp [word, mark]
  unfold Begins at h ⊢
  rw [solids_append, solids_mark, List.append_cons] at h
  rcases List.prefix_or_prefix_of_prefix h (List.prefix_append _ _) with hp | hp
  · rcases List.prefix_concat_iff.mp hp with heq | hp
    · exact absurd (heq ▸ List.mem_append_right _ (List.mem_singleton_self _)) hnot
    · exact hp
  · exact absurd (hp.subset (List.mem_append_right _ (List.mem_singleton_self _))) hnot

theorem begins_signature {ws : List String} {type : IdlType} {name : Option String}
    {args : List Argument} (h : Begins ws (signature type name args ++ us)) :
    Begins ws (opening type name) := by
  rw [signature_append, ← List.append_assoc] at h
  exact begins_append_mark h

theorem reads_markedOperation (hd : exact → d.keepTrivia) {marks : Specials}
    {isStatic stringifier : Bool} {type : IdlType} {name : Option String} {args : List Argument}
    {Q : MemberKind → Cursor → Prop} (hs : Signature d type name args)
    (hc : Near exact c (signature type name args ++ us))
    (h : ∀ args' c', SameArguments exact args args' → At exact c' us →
      Q (.operation ⟨marks, isStatic, stringifier, some type, name, args'⟩) c') :
    Reads c (markedOperation d marks isStatic stringifier) Q := by
  rw [signature_append] at hc
  rw [markedOperation, reads_bind]
  refine reads_returnType hs.type hc (precedes_call (fun n hn => (hs.name n hn).2) args us)
    fun c1 hc1 => reads_bind.mpr ?_
  exact reads_operationRest hd (fun n hn => (hs.name n hn).1) hs.arguments hc1.near
    fun args' c2 hsame hc2 => reads_pure.mpr (h args' c2 hsame hc2)

/-- What stands behind the word `iterator`. -/
def objectBehind : IteratorObject → List Token
  | .absent => []
  | .object => [space, word "object"]
  | .named name => [space, mark "=", space, word name]

theorem ofIterator_append (i : IteratorMember) (us : List Token) :
    ofIterator i ++ us = ofType i.returnType ++
      (space :: word "iterator" :: (objectBehind i.object ++ mark ";" :: us)) := by
  obtain ⟨type, produced⟩ := i
  cases produced <;> simp [ofIterator, objectBehind]

theorem reads_iteratorRest {type : IdlType} {produced : IteratorObject}
    {Q : MemberKind → Cursor → Prop} (hproduced : ∀ n, produced = .named n → IsName n)
    (hc : Near exact c (objectBehind produced ++ mark ";" :: us))
    (h : ∀ c', At exact c' us → Q (.iterator ⟨type, produced⟩) c') :
    Reads c (iteratorRest type) Q := by
  rw [iteratorRest, reads_bind, iteratorObject, reads_bind]
  cases produced with
  | absent =>
    refine reads_keyword_none hc (by simp [objectBehind]) fun c1 hc1 => reads_bind.mpr ?_
    refine reads_symbol_none hc1.near (by simp [objectBehind]) fun c2 hc2 =>
      reads_pure.mpr (reads_bind.mpr ?_)
    exact reads_expectSymbol hc2.near rfl fun c3 hc3 => reads_pure.mpr (h c3 hc3)
  | object =>
    refine reads_keyword hc rfl fun c1 hc1 => reads_pure.mpr (reads_bind.mpr ?_)
    exact reads_expectSymbol hc1.toNear rfl fun c2 hc2 => reads_pure.mpr (h c2 hc2)
  | named name =>
    refine reads_keyword_none hc (by simp [objectBehind]) fun c1 hc1 => reads_bind.mpr ?_
    refine reads_symbol hc1.near rfl fun c2 hc2 => reads_bind.mpr ?_
    refine reads_expectIdentifier hc2.toNear rfl (hproduced name rfl).unescape_word fun c3 hc3 =>
      reads_pure.mpr (reads_bind.mpr ?_)
    exact reads_expectSymbol hc3.toNear rfl fun c4 hc4 => reads_pure.mpr (h c4 hc4)

theorem reads_plainOperation_iterator {i : IteratorMember} {Q : Option MemberKind → Cursor → Prop}
    (hi : i.WellFormed d) (hc : Near exact c (ofIterator i ++ us))
    (h : ∀ c', At exact c' us → Q (some (.iterator i)) c') : Reads c (plainOperation d) Q := by
  rw [ofIterator_append] at hc
  refine reads_attempt (reads_bind.mpr ?_)
  refine reads_idlType hi.type hc (precedes_word (fun _ _ => by decide) _) fun c1 hc1 => ?_
  refine reads_bind.mpr (reads_keyword hc1.near rfl fun c2 hc2 => reads_bind.mpr ?_)
  exact reads_iteratorRest hi.object hc2.toNear fun c3 hc3 => reads_pure.mpr ⟨_, rfl, h c3 hc3⟩

/-- Looking ahead moves nothing. -/
theorem reads_callAhead {name : Option String} {args : List Argument} {Q : Bool → Cursor → Prop}
    (hname : ∀ n ∈ name, IsName n) (hc : Near exact c (nameBehind name ++ call args us))
    (h : Q true c) : Reads c callAhead Q := by
  have hcall : ∀ c', Near exact c' (call args us) →
      Reads c' (do let isCall ← symbol "("; set c; return isCall) Q := by
    intro c1 hc1
    refine reads_bind.mpr (reads_symbol hc1 rfl fun c2 _ => reads_bind.mpr ?_)
    exact reads_set.mpr (reads_pure.mpr h)
  rw [callAhead, reads_bind, reads_get, reads_bind]
  cases name with
  | none => exact reads_identifier_mark hc rfl fun c1 hc1 => hcall c1 hc1
  | some n =>
    exact reads_identifier hc rfl (hname n rfl).unescape_word fun c1 hc1 => hcall c1 hc1.toNear

theorem reads_plainOperation (hd : exact → d.keepTrivia) {type : IdlType} {name : Option String}
    {args : List Argument} {Q : Option MemberKind → Cursor → Prop}
    (hs : Signature d type name args) (hname : name ≠ some "iterator")
    (hc : Near exact c (signature type name args ++ us))
    (h : ∀ args' c', SameArguments exact args args' → At exact c' us →
      Q (some (.operation ⟨{}, false, false, some type, name, args'⟩)) c') :
    Reads c (plainOperation d) Q := by
  have hnames : ∀ n ∈ name, IsName n := fun n hn => (hs.name n hn).1
  rw [signature_append] at hc
  refine reads_attempt (reads_bind.mpr ?_)
  refine reads_idlType hs.type hc (precedes_call (fun n hn => (hs.name n hn).2) args us)
    fun c1 hc1 => reads_bind.mpr ?_
  refine reads_keyword_none hc1.near ?_ fun c2 hc2 => reads_bind.mpr ?_
  · cases name with
    | none => simp [nameBehind, call]
    | some n => simpa [nameBehind] using fun hn => hname (by rw [hn])
  refine reads_callAhead hnames hc2.near (reads_bind.mpr ?_)
  exact reads_operationRest hd hnames hs.arguments hc2.near
    fun args' c3 hsame hc3 => reads_pure.mpr ⟨_, rfl, h args' c3 hsame hc3⟩

theorem reads_stringifierRest (hd : exact → d.keepTrivia) {type : IdlType} {name : Option String}
    {args : List Argument} {Q : MemberKind → Cursor → Prop} (hs : Signature d type name args)
    (hc : Near exact c (signature type name args ++ us))
    (h : ∀ args' c', SameArguments exact args args' → At exact c' us →
      Q (.operation ⟨{}, false, true, some type, name, args'⟩) c') :
    Reads c (stringifierRest d) Q := by
  have hopens := (opens_ofType type).append (nameBehind name ++ call args us)
  rw [stringifierRest, reads_bind]
  refine reads_symbol_none hc ?_ fun c1 hc1 => reads_markedOperation hd hs hc1.near h
  rw [signature_append, hopens.core_eq]
  exact hopens.head?_ne (by decide)

/-- An operation that was read for another one has the same arguments up to trivia. -/
theorem sameKind_operation {marks : Specials} {isStatic stringifier : Bool} {type : IdlType}
    {name : Option String} {args args' : List Argument} (h : SameArguments exact args args') :
    SameKind exact (.operation ⟨marks, isStatic, stringifier, some type, name, args⟩)
      (.operation ⟨marks, isStatic, stringifier, some type, name, args'⟩) := by
  refine ⟨?_, fun hx => ?_⟩
  · simp only [MemberKind.erase, Operation.erase, h.erase]
  · simp only [ofMemberKind, ofOperation, signature, h.written hx]

theorem reads_specials_none {Q : Specials → Cursor → Prop} (hc : Near exact c ts)
    (hts : ∀ s : Special, ¬Begins [s.keyword] ts) (h : ∀ c', Near exact c' ts → Q {} c') :
    Reads c specials Q :=
  @reads_specials _ _ _ {} _ hts hc h

theorem reads_operation (hd : exact → d.keepTrivia) {o : Operation}
    {Q : Option MemberKind → Cursor → Prop} (ho : o.WellFormed d)
    (hc : Near exact c (ofOperation o ++ us))
    (h : ∀ k c', SameKind exact (.operation o) k → At exact c' us → Q (some k) c') :
    Reads c (operation d) Q := by
  rw [operation, reads_bind]
  cases ho with
  | bare =>
    refine reads_specials_none hc (fun s => by cases s <;> simp [ofOperation, Special.keyword])
      fun c1 hc1 => ?_
    refine reads_bind.mpr (reads_keyword_none hc1 (by simp [ofOperation]) fun c2 hc2 => ?_)
    refine reads_bind.mpr (reads_keyword hc2.near rfl fun c3 hc3 => reads_bind.mpr ?_)
    rw [stringifierRest, reads_bind]
    exact reads_symbol hc3.toNear rfl fun c4 hc4 =>
      reads_pure.mpr (reads_pure.mpr (h _ c4 (SameKind.refl _) hc4))
  | @marked marks type name args hmarks hs hstart =>
    have hspelled : ofOperation ⟨marks, false, false, some type, name, args⟩ ++ us =
        marksOf marks.toList ++ (signature type name args ++ us) := by
      simp [ofOperation, wordIf, marksOf]
    rw [hspelled] at hc
    refine reads_specials (fun s hb => ?_) hc fun c1 hc1 => ?_
    · rw [signature_append] at hb
      exact hstart s (begins_ofType (begins_singleton.mp hb))
    rw [if_pos (by simp [hmarks])]
    refine reads_bind.mpr (reads_markedOperation hd hs hc1 fun args' c2 hsame hc2 => ?_)
    exact reads_pure.mpr (h _ c2 (sameKind_operation hsame) hc2)
  | @static type name args hs hstart =>
    refine reads_specials_none hc (fun s => ?_) fun c1 hc1 => ?_
    · cases s <;> simp [ofOperation, wordIf, Specials.toList, Special.all, Specials.contains,
        Special.keyword]
    refine reads_bind.mpr (reads_keyword hc1 rfl fun c2 hc2 => reads_bind.mpr ?_)
    refine reads_markedOperation hd hs hc2.toNear.of_space fun args' c3 hsame hc3 => ?_
    exact reads_pure.mpr (h _ c3 (sameKind_operation hsame) hc3)
  | @stringifier type name args hs hstart =>
    refine reads_specials_none hc (fun s => ?_) fun c1 hc1 => ?_
    · cases s <;> simp [ofOperation, wordIf, Specials.toList, Special.all, Specials.contains,
        Special.keyword]
    refine reads_bind.mpr (reads_keyword_none hc1 ?_ fun c2 hc2 => ?_)
    · simp [ofOperation, wordIf, Specials.toList, Special.all, Specials.contains]
    refine reads_bind.mpr (reads_keyword hc2.near rfl fun c3 hc3 => reads_bind.mpr ?_)
    refine reads_stringifierRest hd hs hc3.toNear.of_space fun args' c4 hsame hc4 => ?_
    exact reads_pure.mpr (h _ c4 (sameKind_operation hsame) hc4)
  | @plain type name args hs hstart hname =>
    have hspelled : ofOperation ⟨{}, false, false, some type, name, args⟩ ++ us =
        signature type name args ++ us := rfl
    have hnot : ∀ ws ∈ memberStarts d, ¬Begins ws (signature type name args ++ us) :=
      fun ws hws hb => hstart ws hws (begins_signature hb)
    rw [hspelled] at hc
    refine reads_specials_none hc (fun s => hnot _ ?_) fun c1 hc1 => ?_
    · cases s <;> simp [memberStarts, Special.all]
    refine reads_bind.mpr (reads_keyword_absent hc1 (hnot _ (by simp [memberStarts])) ?_)
    intro c2 hc2
    refine reads_bind.mpr (reads_keyword_absent hc2 (hnot _ (by simp [memberStarts])) ?_)
    intro c3 hc3
    exact reads_plainOperation hd hs hname hc3 fun args' c4 hsame hc4 =>
      h _ c4 (sameKind_operation hsame) hc4

theorem reads_patternNames {inheritMore : Bool} {ns : List String}
    {Q : List String → Cursor → Prop} {m : String} (hm : m ≠ ",")
    (hns : PatternNames (if inheritMore then ["getter"] else ["getter", "inherit"]) ns)
    (hc : Near exact c (Spelling.nameList ns ++ mark m :: us))
    (h : ∀ c', Near exact c' (mark m :: us) → Q ns c') : Reads c (patternNames inheritMore) Q := by
  rw [patternNames, reads_bind]
  cases ns with
  | nil => exact reads_identifier_mark hc rfl fun c1 hc1 => reads_pure.mpr (h c1 hc1)
  | cons n ns =>
    obtain ⟨hn, hnames⟩ := List.forall_mem_cons.mp hns.names
    rw [Spelling.nameList, List.map_cons, joined_cons, List.flatMap_map] at hc
    refine reads_identifier hc rfl hn.unescape_word fun c1 hc1 => ?_
    by_cases hsingle : n = "getter" ∨ (n = "inherit" ∧ !inheritMore)
    · have halone := hns.alone n rfl (by cases inheritMore <;> simpa using hsingle)
      obtain rfl : ns = [] := (List.cons.inj halone).2
      simp only [if_pos hsingle]
      exact reads_pure.mpr (h c1 hc1.toNear)
    · simp only [if_neg hsingle]
      refine reads_bind.mpr (reads_moreNames (f := fun n => [space, word n])
        (fun n vs => core_word n vs) hnames (by simpa using hm) hc1.toNear fun c2 hc2 => ?_)
      exact reads_pure.mpr (h c2 hc2)

/-- What stands behind the equals sign is read as a pattern. -/
theorem reads_serializer_pattern {s : Serializer} {Q : Option Serializer → Cursor → Prop}
    (hc : Near exact c (word "serializer" :: space :: mark "=" :: ts))
    (hpattern : ∀ c', Near exact c' ts →
      Reads c' serializerPattern fun s' c'' => s' = s ∧ Near exact c'' (mark ";" :: us))
    (h : ∀ c', At exact c' us → Q (some s) c') : Reads c (serializer d) Q := by
  rw [serializer, reads_bind]
  refine reads_keyword hc rfl fun c1 hc1 => reads_bind.mpr ?_
  refine reads_symbol_none hc1.toNear (by simp) fun c2 hc2 => reads_bind.mpr ?_
  refine reads_symbol hc2.near rfl fun c3 hc3 => reads_bind.mpr ((hpattern c3 hc3.toNear).mono ?_)
  rintro _ c4 ⟨rfl, hc4⟩
  exact reads_bind.mpr (reads_expectSymbol hc4 rfl fun c5 hc5 => reads_pure.mpr (h c5 hc5))

theorem reads_serializer (hd : exact → d.keepTrivia) {s : Serializer}
    {Q : Option Serializer → Cursor → Prop} (hs : s.WellFormed d)
    (hc : Near exact c (ofSerializer s ++ us))
    (h : ∀ s' c', SameKind exact (.serializer s) (.serializer s') → At exact c' us →
      Q (some s') c') : Reads c (serializer d) Q := by
  have hself : ∀ c', At exact c' us → Q (some s) c' := fun c' hc' => h s c' (SameKind.refl _) hc'
  cases s with
  | bare =>
    rw [serializer, reads_bind]
    refine reads_keyword hc rfl fun c1 hc1 => reads_bind.mpr ?_
    exact reads_symbol hc1.toNear rfl fun c2 hc2 => reads_pure.mpr (hself c2 hc2)
  | named name =>
    refine reads_serializer_pattern hc (fun c1 hc1 => ?_) hself
    rw [serializerPattern, reads_bind]
    refine reads_symbol_none hc1.of_space (by simp) fun c2 hc2 => reads_bind.mpr ?_
    refine reads_symbol_none hc2.near (by simp) fun c3 hc3 => reads_bind.mpr ?_
    exact reads_expectIdentifier hc3.near rfl (IsName.unescape_word hs) fun c4 hc4 =>
      reads_pure.mpr ⟨rfl, hc4.toNear⟩
  | patternMap names =>
    simp only [ofSerializer, List.cons_append, List.append_assoc, List.nil_append] at hc
    refine reads_serializer_pattern hc (fun c1 hc1 => ?_) hself
    rw [serializerPattern, reads_bind]
    refine reads_symbol hc1.of_space rfl fun c2 hc2 => reads_bind.mpr ?_
    refine reads_patternNames (m := "\x7d") (by decide) hs hc2.toNear fun c3 hc3 => reads_bind.mpr ?_
    exact reads_expectSymbol hc3 rfl fun c4 hc4 => reads_pure.mpr ⟨rfl, hc4.toNear⟩
  | patternList names =>
    simp only [ofSerializer, List.cons_append, List.append_assoc, List.nil_append] at hc
    refine reads_serializer_pattern hc (fun c1 hc1 => ?_) hself
    rw [serializerPattern, reads_bind]
    refine reads_symbol_none hc1.of_space (by simp) fun c2 hc2 => reads_bind.mpr ?_
    refine reads_symbol hc2.near rfl fun c3 hc3 => reads_bind.mpr ?_
    refine reads_patternNames (m := "]") (by decide) hs hc3.toNear fun c4 hc4 => reads_bind.mpr ?_
    exact reads_expectSymbol hc4 rfl fun c5 hc5 => reads_pure.mpr ⟨rfl, hc5.toNear⟩
  | operation type name args =>
    have hs : Signature d type name args := hs
    rw [ofSerializer, List.cons_append, List.cons_append, signature_append] at hc
    have hopens := (opens_ofType type).append (nameBehind name ++ call args us)
    rw [serializer, reads_bind]
    refine reads_keyword hc rfl fun c1 hc1 => reads_bind.mpr ?_
    refine reads_symbol_none hc1.toNear.of_space ?_ fun c2 hc2 => reads_bind.mpr ?_
    · rw [hopens.core_eq]
      exact hopens.head?_ne (by decide)
    refine reads_symbol_none hc2.near ?_ fun c3 hc3 => reads_bind.mpr ?_
    · rw [hopens.core_eq]
      exact hopens.head?_ne (by decide)
    refine reads_returnType hs.type hc3.near (precedes_call (fun n hn => (hs.name n hn).2) args us)
      fun c4 hc4 => reads_bind.mpr ?_
    refine reads_operationRest hd (fun n hn => (hs.name n hn).1) hs.arguments hc4.near
      fun args' c5 hsame hc5 => reads_pure.mpr (h _ c5 ⟨?_, fun hx => ?_⟩ hc5)
    · simp only [MemberKind.erase, Serializer.erase, hsame.erase]
    · simp only [ofMemberKind, ofSerializer, signature, hsame.written hx]

theorem reads_serializer_none {Q : Option Serializer → Cursor → Prop} (hc : Near exact c ts)
    (hts : ¬Begins ["serializer"] ts) (h : ∀ c', Near exact c' ts → Q none c') :
    Reads c (serializer d) Q := by
  rw [serializer, reads_bind]
  exact reads_keyword_absent hc hts fun c' hc' => reads_pure.mpr (h c' hc')

section Order

variable {ps : List (Reader (Option MemberKind))} {Q : Option MemberKind → Cursor → Prop}

theorem reads_behind_const (hc : Near exact c ts) (hts : ¬Begins ["const"] ts)
    (h : ∀ c', Near exact c' ts → Reads c' (firstOf ps) Q) :
    Reads c (firstOf (mapped .const const :: ps)) Q :=
  reads_firstOf_next (reads_mapped (reads_const_none hc hts fun c' hc' => ⟨rfl, h c' hc'⟩))

theorem reads_behind_typedef (hc : Near exact c ts)
    (hts : d.allowNestedTypedefs → ¬Begins ["typedef"] ts)
    (h : ∀ c', Near exact c' ts → Reads c' (firstOf ps) Q) :
    Reads c (firstOf (mapped .typedef (nestedTypedef d) :: ps)) Q := by
  refine reads_firstOf_next (reads_mapped ?_)
  rw [nestedTypedef]
  split
  · next hnested => exact reads_typedef_none hc (hts hnested) fun c' hc' => ⟨rfl, h c' hc'⟩
  · exact reads_pure.mpr ⟨rfl, h c hc⟩

theorem reads_behind_iterable (hc : Near exact c ts) (hts : ∀ ws ∈ iterableStarts, ¬Begins ws ts)
    (h : Reads c (firstOf ps) Q) : Reads c (firstOf (mapped .iterable iterable :: ps)) Q :=
  reads_firstOf_next (reads_mapped (reads_iterable_none hc hts ⟨rfl, h⟩))

theorem reads_behind_serializer (hc : Near exact c ts) (hts : ¬Begins ["serializer"] ts)
    (h : ∀ c', Near exact c' ts → Reads c' (firstOf ps) Q) :
    Reads c (firstOf (mapped .serializer (serializer d) :: ps)) Q :=
  reads_firstOf_next (reads_mapped (reads_serializer_none hc hts fun c' hc' => ⟨rfl, h c' hc'⟩))

theorem reads_behind_attribute (hc : Near exact c ts)
    (hts : ∀ ws ∈ attributeMemberStarts, ¬Begins ws ts) (h : Reads c (firstOf ps) Q) :
    Reads c (firstOf (mapped .attribute attributeMember :: ps)) Q :=
  reads_firstOf_next (reads_mapped (reads_attributeMember_none hc hts ⟨rfl, h⟩))

end Order

/-- Operations are tried last, where no other member begins. -/
theorem reads_interfaceMember_last {Q : MemberKind → Cursor → Prop} (hc : Near exact c ts)
    (hts : ∀ ws ∈ declarationStarts d, ¬Begins ws ts)
    (h : ∀ c', Near exact c' ts → Reads c' (operation d) fun o c'' => ∃ k, o = some k ∧ Q k c'') :
    Reads c (interfaceMember d) Q := by
  refine reads_expect (reads_behind_const hc (hts _ (by simp [declarationStarts])) ?_)
  intro c1 hc1
  refine reads_behind_typedef hc1 (fun hd => hts _ (by simp [declarationStarts, hd])) ?_
  intro c2 hc2
  refine reads_behind_iterable hc2 (fun ws hws => hts ws (by simp [declarationStarts, hws])) ?_
  refine reads_behind_serializer hc2 (hts _ (by simp [declarationStarts])) fun c3 hc3 => ?_
  refine reads_behind_attribute hc3 (fun ws hws => hts ws ?_) (reads_firstOf ?_)
  · simp only [declarationStarts, List.mem_append]
    exact Or.inr hws
  · exact (h c3 hc3).mono fun o c' ⟨k, ho, hQ⟩ => ⟨k, ho, k, rfl, hQ⟩

/-- Behind `static` and `stringifier` no attribute begins, so that no declaration begins here. -/
theorem not_begins_declaration {w : String} (hw : w = "static" ∨ w = "stringifier")
    (hts : ∀ ws ∈ attributeStarts, ¬Begins ws ts) :
    ∀ ws ∈ declarationStarts d, ¬Begins ws (word w :: ts) := by
  have hall : ∀ ws ∈ declarationStarts d,
      ws ≠ [] ∧ (ws.head? = some w → ws.tail ∈ attributeStarts) := by
    unfold declarationStarts
    rcases hw with rfl | rfl <;> cases d.allowNestedTypedefs <;> decide
  intro ws hws hb
  obtain ⟨hne, htail⟩ := hall ws hws
  obtain ⟨v, vs, rfl⟩ := List.exists_cons_of_ne_nil hne
  rw [begins_cons_word] at hb
  exact hts vs (htail (by rw [hb.1]; rfl)) hb.2

theorem not_begins_declaration_of_special (s : Special) :
    ∀ ws ∈ declarationStarts d, ¬Begins ws (word s.keyword :: ts) := by
  have hall : ∀ ws ∈ declarationStarts d, ws ≠ [] ∧ ws.head? ≠ some s.keyword := by
    unfold declarationStarts
    cases s <;> cases d.allowNestedTypedefs <;> decide
  intro ws hws hb
  obtain ⟨hne, hhead⟩ := hall ws hws
  obtain ⟨v, vs, rfl⟩ := List.exists_cons_of_ne_nil hne
  rw [begins_cons_word] at hb
  exact hhead (by rw [hb.1]; rfl)

/-- No member that is tried before operations begins with what an operation is written with. -/
theorem not_begins_operation {o : Operation} (ho : o.WellFormed d) (us : List Token) :
    ∀ ws ∈ declarationStarts d, ¬Begins ws (ofOperation o ++ us) := by
  cases ho with
  | bare =>
    refine not_begins_declaration (Or.inr rfl) fun ws hws => ?_
    simp only [attributeStarts, List.mem_cons, List.not_mem_nil, or_false] at hws
    rcases hws with rfl | rfl | rfl <;> simp
  | @marked marks type name args hmarks hs hstart =>
    obtain ⟨s, ms, hms⟩ : ∃ s ms, marks.toList = s :: ms := by
      refine List.exists_cons_of_ne_nil fun hnil => ?_
      simp [Specials.isEmpty, hnil] at hmarks
    simp only [ofOperation, hms, List.flatMap_cons, List.cons_append]
    exact not_begins_declaration_of_special s
  | @static type name args hs hstart =>
    refine not_begins_declaration (Or.inl rfl) fun ws hws hb => hstart ws hws ?_
    have hb : Begins ws (signature type name args ++ us) := hb
    exact begins_signature hb
  | @stringifier type name args hs hstart =>
    refine not_begins_declaration (Or.inr rfl) fun ws hws hb => hstart ws hws ?_
    have hb : Begins ws (signature type name args ++ us) := hb
    exact begins_signature hb
  | @plain type name args hs hstart hname =>
    intro ws hws hb
    have hb : Begins ws (signature type name args ++ us) := hb
    exact hstart ws (by simp [memberStarts, hws]) (begins_signature hb)

/-- What stands behind the word `iterator` begins no declaration with it. -/
theorem not_begins_iterator {i : IteratorMember} (hi : i.WellFormed d) (us : List Token) :
    ∀ ws ∈ memberStarts d, ¬Begins ws (ofIterator i ++ us) := by
  have hall : ∀ ws ∈ memberStarts d, "iterator" ∉ ws := by
    unfold memberStarts declarationStarts
    cases d.allowNestedTypedefs <;> decide
  intro ws hws hb
  refine hi.start ws hws ?_
  rw [ofIterator_append, List.append_cons, List.append_cons] at hb
  unfold Begins at hb ⊢
  rw [solids_append] at hb
  rcases List.prefix_or_prefix_of_prefix hb (List.prefix_append _ _) with hp | hp
  · simpa [opening] using hp
  · have hmem : word "iterator" ∈ ws.map word := by
      refine hp.subset ?_
      simp
    obtain ⟨v, hv, heq⟩ := List.mem_map.mp hmem
    exact absurd (word_inj.mp heq ▸ hv) (hall ws hws)

/-- An interface member reads back. -/
theorem reads_interfaceMember (hd : exact → d.keepTrivia) {k : MemberKind}
    {Q : MemberKind → Cursor → Prop} (hk : k.InInterface d)
    (hc : Near exact c (ofMemberKind k ++ us))
    (h : ∀ k' c', SameKind exact k k' → At exact c' us → Q k' c') :
    Reads c (interfaceMember d) Q := by
  cases k with
  | field f => exact hk.elim
  | const x =>
    exact reads_expect (reads_firstOf (reads_mapped (reads_const hk hc fun c' hc' =>
      ⟨_, rfl, _, rfl, h _ c' (SameKind.refl _) hc'⟩)))
  | typedef t =>
    refine reads_expect (reads_behind_const hc (by simp [ofMemberKind, ofTypedef]) fun c1 hc1 => ?_)
    refine reads_firstOf (reads_mapped ?_)
    rw [nestedTypedef, if_pos hk.1]
    refine reads_typedef hd hk.2 hc1 fun t' c' ht' hc' =>
      ⟨_, rfl, _, rfl, h _ c' ⟨?_, ht'.written⟩ hc'⟩
    exact congrArg MemberKind.typedef ht'.erase
  | iterable i =>
    refine reads_expect (reads_behind_const hc ?_ fun c1 hc1 => ?_)
    · obtain ⟨kind, readonly, types⟩ := i
      cases kind <;> cases readonly <;>
        simp [ofMemberKind, ofIterable, wordIf, IterableKind.keyword]
    refine reads_behind_typedef hc1 (fun _ => ?_) fun c2 hc2 => ?_
    · obtain ⟨kind, readonly, types⟩ := i
      cases kind <;> cases readonly <;>
        simp [ofMemberKind, ofIterable, wordIf, IterableKind.keyword]
    exact reads_firstOf (reads_mapped (reads_iterable hk hc2 fun c' hc' =>
      ⟨_, rfl, _, rfl, h _ c' (SameKind.refl _) hc'⟩))
  | serializer s =>
    have hword : ∃ vs, ofMemberKind (.serializer s) ++ us = word "serializer" :: vs := by
      cases s <;> exact ⟨_, rfl⟩
    obtain ⟨vs, hvs⟩ := hword
    refine reads_expect (reads_behind_const hc (by simp [hvs]) fun c1 hc1 => ?_)
    refine reads_behind_typedef hc1 (fun _ => by simp [hvs]) fun c2 hc2 => ?_
    refine reads_behind_iterable hc2 (by simp [hvs, iterableStarts]) ?_
    exact reads_firstOf (reads_mapped (reads_serializer hd hk hc2 fun s' c' hs' hc' =>
      ⟨_, rfl, _, rfl, h _ c' hs' hc'⟩))
  | «attribute» a =>
    obtain ⟨isStatic, stringifier, inherits, readonly, type, name⟩ := a
    have hnot : ∀ ws ∈ [["const"], ["typedef"], ["serializer"]] ++ iterableStarts, ¬Begins ws
        (ofMemberKind (.attribute ⟨isStatic, stringifier, inherits, readonly, type, name⟩) ++ us) := by
      cases isStatic <;> cases stringifier <;> cases inherits <;> cases readonly <;>
        simp [ofMemberKind, ofAttributeMember, wordIf, iterableStarts]
    refine reads_expect (reads_behind_const hc (hnot _ (by simp)) fun c1 hc1 => ?_)
    refine reads_behind_typedef hc1 (fun _ => hnot _ (by simp)) fun c2 hc2 => ?_
    refine reads_behind_iterable hc2 (fun ws hws => hnot ws (by simp [hws])) ?_
    refine reads_behind_serializer hc2 (hnot _ (by simp)) fun c3 hc3 => ?_
    exact reads_firstOf (reads_mapped (reads_attributeMember hk hc3 fun c' hc' =>
      ⟨_, rfl, _, rfl, h _ c' (SameKind.refl _) hc'⟩))
  | operation o =>
    exact reads_interfaceMember_last hc (not_begins_operation hk us) fun c1 hc1 =>
      reads_operation hd hk hc1 fun k' c2 hsame hc2 => ⟨k', rfl, h k' c2 hsame hc2⟩
  | iterator i =>
    have hnot := not_begins_iterator hk us
    refine reads_interfaceMember_last hc (fun ws hws => hnot ws (by simp [memberStarts, hws])) ?_
    intro c1 hc1
    rw [operation, reads_bind]
    refine reads_specials_none hc1 (fun s => hnot _ ?_) fun c2 hc2 => ?_
    · cases s <;> simp [memberStarts, Special.all]
    refine reads_bind.mpr (reads_keyword_absent hc2 (hnot _ (by simp [memberStarts])) ?_)
    intro c3 hc3
    refine reads_bind.mpr (reads_keyword_absent hc3 (hnot _ (by simp [memberStarts])) ?_)
    intro c4 hc4
    exact reads_plainOperation_iterator hk hc4 fun c5 hc5 => ⟨_, rfl, h _ c5 (SameKind.refl _) hc5⟩

end WebIdl.Grammar

import WebIdl.Grammar.Definitions
import WebIdl.Proofs.Answers.Members

/-!
# Definitions and programs that are read

Every tree that a parse answers is well-formed.
-/

namespace WebIdl.Grammar

open Token Cursor Spelling

variable {α : Type} {c : Cursor} {d : Dialect}

/-- A body with its braces is closed, so that all trivia in it is settled. -/
theorem answers_body {entry : List Trivia → Reader α} {I : List α → Cursor → Prop}
    {Q : List α → List Trivia → Cursor → Prop} (h : I [] c)
    (hcut : ∀ as c', I as c' → Cut c')
    (hentry : ∀ as c' c'' leading, I as c' → Onward c' c'' →
      (0 < c''.ahead.length → d.Keeps leading) →
      Answers c'' (entry leading) fun a c3 => I (as ++ [a]) c3)
    (hdone : ∀ as c' c'' items, I as c' → Past c' c'' → d.Keeps items →
      (Settled c' → items = []) → Q as items c'') :
    Answers c (body d entry) fun r c' => Q r.1 r.2 c' := by
  refine answers_untilDone h fun as c1 hI => ?_
  refine answers_bind (answers_trivia (hcut as c1 hI) fun items c2 hc2 _ h2 _ hkeeps hnil => ?_)
  have hon2 := onward_of_ahead_eq hc2 h2
  refine answers_bind (answers_symbol hc2 (fun c3 hc3 h3 => ?_) fun c3 hc3 _ h3 _ => ?_)
  · have hpast := past_of_ahead_cons hc3 h3
    refine answers_pure ⟨by simp, ?_⟩
    rintro _ ⟨⟩
    exact hdone as c1 c3 items hI (hon2.past hpast) (hkeeps hpast.pos) hnil
  · have hon3 := hon2.trans (onward_of_ahead_eq hc3 h3)
    refine answers_bind ((hentry as c1 c3 items hI hon3 fun hpos => hkeeps (h3 ▸ hpos)).mono ?_)
    refine fun a c4 h4 => answers_pure ⟨?_, by simp⟩
    rintro _ ⟨⟩
    exact h4

theorem answers_members {P : MemberKind → Prop} {kind : Reader MemberKind}
    (hkind : ReadsMember P kind) (hc : Cut c) :
    Answers c (body d (member d kind)) fun r c' => Onward c c' ∧ Body d P r.1 r.2 := by
  refine answers_body (I := fun ms c' => Onward c c' ∧ ∀ m ∈ ms, m.WellFormed d P)
    (Q := fun ms items c' => Onward c c' ∧ Body d P ms items) ⟨hc.onward, by simp⟩
    (fun _ _ h => h.1.cut) ?_ ?_
  · rintro ms c1 c2 leading ⟨h1, hms⟩ h2 hleading
    refine (answers_member hkind h2.cut hleading).mono fun m c3 h3 => ⟨?_, ?_⟩
    · exact (h1.trans h2).trans h3.1.onward
    · simpa [or_imp, forall_and] using ⟨hms, h3.2⟩
  · rintro ms c1 c2 items ⟨h1, hms⟩ h2 hitems -
    exact ⟨h1.trans h2.onward, hms, hitems⟩

theorem answers_enumValue {leading : List Trivia} (hc : Cut c)
    (hleading : 0 < c.ahead.length → d.Keeps leading) :
    Answers c (enumValue d leading) fun v c' => Onward c c' ∧
      (0 < c'.ahead.length → v.1.WellFormed d) ∧ (v.2 = false → Settled c') := by
  have hstring : Gives (fun t _ => t.kind = .string) (token .string none) := by
    refine fun c hc => answers_token (fun t rest hafter hkind _ => ?_) fun _ => ⟨hc.onward, by simp⟩
    refine ⟨hc.next hafter, ?_⟩
    rintro _ ⟨⟩
    rw [unescape_of_kind (by simp [hkind])]
    exact hkind
  refine answers_bind (answers_expect ((hstring c hc).mono fun o c1 h1 t ht => answers_bind ?_))
  refine answers_trivia h1.1.cut fun trailing c2 hc2 _ h2 _ htrailing _ => answers_bind ?_
  have hon2 := h1.1.trans (onward_of_ahead_eq hc2 h2)
  have hvalue : '"' ∉ (String.ofList (t.text.toList.filter (· != '"'))).toList := by simp
  refine answers_symbol hc2 (fun c3 hc3 h3 => answers_pure ⟨?_, fun _ => ?_, by simp⟩)
    fun c3 hc3 hs h3 _ => answers_pure ⟨?_, fun hpos => ?_, fun _ => hs⟩
  · exact hon2.trans (onward_of_ahead_cons hc3 h3)
  · have hpos := (past_of_ahead_cons hc3 h3).pos
    exact ⟨hvalue, hleading (Nat.lt_of_lt_of_le hpos hon2.length_le), htrailing hpos⟩
  · exact hon2.trans (onward_of_ahead_eq hc3 h3)
  · rw [h3] at hpos
    exact ⟨hvalue, hleading (Nat.lt_of_lt_of_le hpos hon2.length_le), htrailing hpos⟩

theorem answers_enumValues (hc : Cut c) :
    Answers c (body d (enumValue d)) fun r c' => Onward c c' ∧
      (∀ v ∈ r.1, v.1.WellFormed d) ∧ d.Keeps r.2 ∧
        ∀ v, r.1.getLast? = some v → v.2 = false → r.2 = [] := by
  refine answers_body
    (I := fun (vs : List (EnumValue × Bool)) c' => Onward c c' ∧ (∀ v ∈ vs, 0 < c'.ahead.length → v.1.WellFormed d) ∧
      ∀ v, vs.getLast? = some v → v.2 = false → Settled c')
    (Q := fun (vs : List (EnumValue × Bool)) items c' => Onward c c' ∧ (∀ v ∈ vs, v.1.WellFormed d) ∧ d.Keeps items ∧
      ∀ v, vs.getLast? = some v → v.2 = false → items = []) ⟨hc.onward, by simp, by simp⟩
    (fun _ _ h => h.1.cut) ?_ ?_
  · rintro vs c1 c2 leading ⟨h1, hvs, -⟩ h2 hleading
    refine (answers_enumValue h2.cut hleading).mono fun v c3 ⟨h3, hv, hsettled⟩ => ⟨?_, ?_, ?_⟩
    · exact (h1.trans h2).trans h3
    · intro w hw hpos
      rcases List.mem_append.mp hw with hw | hw
      · exact hvs w hw (Nat.lt_of_lt_of_le hpos (h2.trans h3).length_le)
      · obtain rfl : w = v := by simpa using hw
        exact hv hpos
    · intro w hw
      obtain rfl : v = w := by simpa using hw
      exact hsettled
  · rintro vs c1 c2 items ⟨h1, hvs, hlast⟩ h2 hitems hnil
    exact ⟨h1.trans h2.onward, fun v hv => hvs v hv h2.pos, hitems,
      fun v hv hcomma => hnil (hlast v hv hcomma)⟩

/-- A word that only some dialects have. -/
theorem answers_dialectKeyword {allowed : Bool} {w : String} {Q : Bool → Cursor → Prop}
    (hc : Cut c) (hyes : ∀ c', allowed → Past c c' → Q true c')
    (hno : ∀ c', Cut c' → c'.ahead = c.ahead →
      Shuns c (if allowed then [[w]] else []) → Q false c') :
    Answers c (if allowed then keyword w else return false) Q := by
  cases allowed with
  | true =>
    exact answers_keyword hc (fun c' hc' h => hyes c' rfl (past_of_ahead_cons hc' h))
      fun c' hc' _ h hnot => hno c' hc' h (shuns_singleton.mpr hnot)
  | false => exact answers_pure (hno c hc rfl (by simp [Shuns]))

theorem answers_inheritance (hc : Cut c) :
    Answers c (inheritance d) fun o c' => Onward c c' ∧ ∀ b ∈ o, IsName b := by
  have hbase : ∀ c1, Onward c c1 → Answers c1 (do return some (← expectIdentifier .noBase))
      fun o c' => Onward c c' ∧ ∀ b ∈ o, IsName b := by
    refine fun c1 h1 => answers_bind (answers_expectIdentifier h1.cut fun b c2 hc2 hb h2 => ?_)
    exact answers_pure ⟨h1.trans (onward_of_ahead_cons hc2 h2), by simpa using hb⟩
  refine answers_bind (answers_symbol hc (fun c1 hc1 h1 => ?_) fun c1 hc1 _ h1 _ => ?_)
  · exact hbase c1 (onward_of_ahead_cons hc1 h1)
  · have hon1 := onward_of_ahead_eq hc1 h1
    refine answers_bind (answers_dialectKeyword hc1 (fun c2 _ h2 => ?_) fun c2 hc2 h2 _ => ?_)
    · exact hbase c2 (hon1.trans h2.onward)
    · exact answers_pure ⟨hon1.trans (onward_of_ahead_eq hc2 h2), by simp⟩

theorem answers_inheritanceUnless {isPartial : Bool} {name : String} (hname : IsName name)
    (hc : Cut c) : Answers c (inheritanceUnless isPartial d) fun o c' =>
      Onward c c' ∧ Headed name isPartial o := by
  cases isPartial with
  | true => exact answers_pure ⟨hc.onward, hname, by simp, fun _ => rfl⟩
  | false => exact (answers_inheritance hc).mono fun o c' h => ⟨h.1, hname, h.2, by simp⟩

theorem answers_headedBody {isPartial : Bool} {noName noBody unfinished : Reason}
    {P : MemberKind → Prop} {kind : Reader MemberKind}
    {f : String → Option String → List Member → List Trivia → α} {Q : α → Cursor → Prop}
    (hkind : ReadsMember P kind) (hc : Cut c)
    (h : ∀ name base ms closing c', Onward c c' → Headed name isPartial base →
      Body d P ms closing → Q (f name base ms closing) c') :
    Answers c (headedBody d isPartial noName noBody unfinished kind f) Q := by
  refine answers_bind (answers_expectIdentifier hc fun name c1 hc1 hname h1 => answers_bind ?_)
  refine (answers_inheritanceUnless hname hc1).mono fun o c2 h2 => answers_bind ?_
  refine answers_expectSymbol h2.1.cut fun c3 hc3 h3 => answers_bind ?_
  refine (answers_members hkind hc3).mono fun r c4 h4 => answers_bind ?_
  refine answers_expectSymbol h4.1.cut fun c5 hc5 h5 => answers_pure ?_
  have hhead := (onward_of_ahead_cons hc1 h1).trans h2.1
  have hbody := (onward_of_ahead_cons hc3 h3).trans h4.1
  exact h _ _ _ _ c5 ((hhead.trans hbody).trans (onward_of_ahead_cons hc5 h5)) h2.2 h4.2

theorem answers_interfaceRest {isPartial : Bool} (hc : Cut c) :
    Answers c (interfaceRest d isPartial) fun i c' =>
      Onward c c' ∧ i.WellFormed d ∧ i.isPartial = isPartial := by
  rw [interfaceRest_eq]
  exact answers_headedBody readsMember_inInterface hc
    fun _ _ _ _ _ hon hheaded hbody => ⟨hon, ⟨hheaded, hbody⟩, rfl⟩

theorem commits_dictionary {isPartial : Bool} :
    Commits [["dictionary"]] (DefinitionKind.WellFormed d) (dictionary d isPartial) := by
  rw [dictionary_eq]
  exact commits_keyword fun c hc => answers_headedBody readsMember_inDictionary hc
    fun _ _ _ _ _ hon hheaded hbody => ⟨_, rfl, hon, ⟨hheaded, hbody⟩⟩

theorem commits_exception :
    Commits [["exception"]] (DefinitionKind.WellFormed d) (exception d) := by
  rw [exception_eq]
  exact commits_keyword fun c hc => answers_headedBody readsMember_inException hc
    fun _ _ _ _ _ hon hheaded hbody => ⟨_, rfl, hon, ⟨hheaded, hbody⟩⟩

theorem commits_enum : Commits [["enum"]] (DefinitionKind.WellFormed d) (enum d) := by
  refine commits_keyword fun c hc => ?_
  refine answers_bind (answers_expectIdentifier hc fun name c1 hc1 hname h1 => answers_bind ?_)
  refine answers_expectSymbol hc1 fun c2 hc2 h2 => answers_bind ?_
  refine (answers_enumValues hc2).mono fun r c3 ⟨h3, hvalues, hclosing, hlast⟩ => answers_bind ?_
  refine answers_expectSymbol h3.cut fun c4 hc4 h4 => answers_pure ⟨_, rfl, ?_, ?_⟩
  · exact (((onward_of_ahead_cons hc1 h1).trans (onward_of_ahead_cons hc2 h2)).trans h3).trans
      (onward_of_ahead_cons hc4 h4)
  · refine ⟨hname, ?_, hclosing, fun hnil => ?_, fun hne hcomma => ?_⟩
    · intro v hv
      obtain ⟨w, hw, rfl⟩ := List.mem_map.mp hv
      exact hvalues w hw
    · rw [List.map_eq_nil_iff] at hnil
      simp [hnil]
    · have hne : r.1 ≠ [] := by simpa using hne
      have hget := List.getLast?_eq_some_getLast hne
      exact hlast _ hget (by simpa [hget] using hcomma)

theorem answers_callbackRest {Q : Callback → Cursor → Prop} (hc : Cut c)
    (hinterface : c.ahead.head? ≠ some (word "interface"))
    (hclass : Shuns c (if d.allowClass then [["class"]] else []))
    (h : ∀ x c', Past c c' → x.WellFormed d → Q x c') : Answers c (callbackRest d) Q := by
  refine answers_bind (answers_expectIdentifier hc fun name c1 hc1 hname h1 => answers_bind ?_)
  refine answers_expectSymbol hc1 fun c2 hc2 h2 => answers_bind ?_
  refine answers_expectType hc2 fun type c3 h3 => answers_bind ?_
  refine answers_expectSymbol h3.cut fun c4 hc4 h4 => answers_bind ?_
  refine (answers_argumentList hc4).mono fun args c5 h5 => answers_bind ?_
  refine answers_expectSymbol h5.1.cut fun c6 hc6 h6 => answers_bind ?_
  refine answers_expectSymbol hc6 fun c7 hc7 h7 => answers_pure (h _ c7 ?_ ⟨hname, ?_, ?_, ?_⟩)
  · exact (((((past_of_ahead_cons hc1 h1).trans (onward_of_ahead_cons hc2 h2)).trans h3.onward).trans
      (onward_of_ahead_cons hc4 h4)).trans h5.1).trans
        ((onward_of_ahead_cons hc6 h6).trans (onward_of_ahead_cons hc7 h7))
  · rintro rfl
    exact hinterface (by rw [h1]; rfl)
  · rintro hallow rfl
    rw [if_pos hallow] at hclass
    exact shuns_singleton.mp hclass (by rw [h1]; rfl)
  · exact ⟨h3.wellFormed, by simp, h5.2 (past_of_ahead_cons hc6 h6).pos⟩

theorem commits_callback : Commits [["callback"]] (DefinitionKind.WellFormed d) (callback d) := by
  refine commits_keyword fun c hc => ?_
  refine answers_bind (answers_keyword hc (fun c1 hc1 h1 => ?_) fun c1 hc1 _ h1 hinterface => ?_)
  · refine answers_bind ((answers_interfaceRest hc1).mono fun i c2 ⟨h2, hi, hpartial⟩ => ?_)
    exact answers_pure ⟨_, rfl, (onward_of_ahead_cons hc1 h1).trans h2, hpartial, hi⟩
  · refine answers_bind (answers_dialectKeyword hc1 (fun _ _ _ => answers_fail)
      fun c2 hc2 h2 hclass => answers_bind ?_)
    have hahead := h2.trans h1
    refine answers_callbackRest hc2 (by rwa [hahead])
      (hclass.of_ahead_eq h2.symm) fun x c3 h3 hx => answers_pure ⟨_, rfl, ?_, hx⟩
    exact (onward_of_ahead_eq hc2 hahead).trans h3.onward

/-- First words of interfaces and classes. -/
def interfaceStarts (d : Dialect) : List (List String) :=
  [["interface"]] ++ if d.allowClass then [["class"]] else []

theorem commits_interface {isPartial : Bool} :
    Commits (interfaceStarts d) (DefinitionKind.WellFormed d) (interface d isPartial) := by
  refine fun c hc => answers_bind (answers_keyword hc (fun c1 hc1 h1 => ?_)
    fun c1 hc1 _ h1 hnot => ?_)
  · refine answers_bind ((answers_interfaceRest hc1).mono fun i c2 ⟨h2, hi, _⟩ => ?_)
    refine answers_pure ⟨?_, by simp⟩
    rintro _ ⟨⟩
    exact ⟨(past_of_ahead_cons hc1 h1).trans h2, hi⟩
  · refine answers_bind (answers_dialectKeyword hc1 (fun c2 hallow h2 => ?_)
      fun c2 hc2 h2 hclass => ?_)
    · refine answers_bind ((answers_interfaceRest h2.cut).mono fun i c3 ⟨h3, hi, _⟩ => ?_)
      refine answers_pure ⟨?_, by simp⟩
      rintro _ ⟨⟩
      exact ⟨((onward_of_ahead_eq hc1 h1).past h2).trans h3, hallow, hi⟩
    · refine answers_pure ⟨by simp, fun _ => ⟨hc2, h2.trans h1, ?_⟩⟩
      exact (shuns_singleton.mpr hnot).append (hclass.of_ahead_eq h1)

theorem commits_partialDefinition :
    Commits [["partial"]] (DefinitionKind.WellFormed d) (partialDefinition d) := by
  refine commits_keyword fun c hc => answers_bind (answers_expect ?_)
  refine answers_firstOf_commits (R := DefinitionKind.WellFormed d)
    (l := [(dictionary d true, [["dictionary"]]), (interface d true, interfaceStarts d)])
    (q := []) ?_ hc ?_ fun c1 _ _ _ => answers_firstOf_nil (by simp)
  · simp only [List.forall_mem_cons, List.not_mem_nil, false_implies, implies_true, and_true]
    exact ⟨commits_dictionary, commits_interface⟩
  · rintro k c1 hpast hk _ ⟨⟩
    exact answers_pure ⟨k, rfl, hpast.onward, hk⟩

/-- What is no other definition may be a statement about two names. -/
theorem answers_implements (hc : Cut c)
    (hs : Shuns c ((definitionStarts d).map fun w => [w])) :
    Answers c implements fun o c' =>
      (∀ i, o = some i → Past c c' ∧ DefinitionKind.WellFormed d i) ∧
        (o = none → c' = c) := by
  have hnone : ∀ c' : Cursor,
      (∀ a, (none : Option DefinitionKind) = some a → (∀ i, some a = some i → Past c c' ∧
        DefinitionKind.WellFormed d i) ∧ (some a = none → c' = c)) ∧
      ((none : Option DefinitionKind) = none → (∀ i, (none : Option DefinitionKind) = some i →
        Past c c ∧ DefinitionKind.WellFormed d i) ∧
          ((none : Option DefinitionKind) = none → c = c)) := by simp
  refine answers_attempt (answers_bind (answers_identifier hc (fun target c1 hc1 htarget h1 => ?_)
    fun c1 _ _ _ => answers_pure (hnone c1)))
  refine answers_bind (answers_keyword hc1 (fun c2 hc2 h2 => ?_) fun c2 _ _ _ _ =>
    answers_pure (hnone c2))
  refine answers_bind (answers_expectIdentifier hc2 fun mixin c3 hc3 hmixin h3 => answers_bind ?_)
  refine answers_expectSymbol hc3 fun c4 hc4 h4 => answers_pure ⟨?_, by simp⟩
  rintro _ ⟨⟩
  refine ⟨?_, by simp⟩
  rintro _ ⟨⟩
  refine ⟨?_, htarget, hmixin, fun hstart => ?_⟩
  · exact (((past_of_ahead_cons hc1 h1).trans (onward_of_ahead_cons hc2 h2)).trans
      (onward_of_ahead_cons hc3 h3)).trans (onward_of_ahead_cons hc4 h4)
  · refine hs [target] (List.mem_map_of_mem hstart) ?_
    rw [h1]
    exact ⟨c1.ahead, rfl⟩

theorem answers_definitionKind (hc : Cut c) :
    Answers c (definitionKind d) fun o c' =>
      (∀ k, o = some k → Past c c' ∧ k.WellFormed d) ∧ (o = none → Cut c') := by
  refine answers_firstOf_commits (R := DefinitionKind.WellFormed d)
    (l := [(callback d, [["callback"]]), (interface d false, interfaceStarts d),
      (partialDefinition d, [["partial"]]), (dictionary d false, [["dictionary"]]),
      (exception d, [["exception"]]), (enum d, [["enum"]]),
      (mapped .typedef (typedef d), [["typedef"]])])
    (q := [implements]) ?_ hc ?_ fun c1 hc1 h1 hshuns => answers_firstOf ?_
  · simp only [List.forall_mem_cons, List.not_mem_nil, false_implies, implies_true, and_true]
    exact ⟨commits_callback, commits_interface, commits_partialDefinition, commits_dictionary,
      commits_exception, commits_enum, commits_mapped commits_typedef⟩
  · refine fun k c1 hpast hk => ⟨?_, by simp⟩
    rintro _ ⟨⟩
    exact ⟨hpast, hk⟩
  · have hstarts : Shuns c1 ((definitionStarts d).map fun w => [w]) := by
      intro ws hws
      refine (hshuns.of_ahead_eq h1.symm) ws ?_
      simp only [definitionStarts, List.map_append, List.mem_append] at hws
      simp only [interfaceStarts, List.flatMap_cons, List.flatMap_nil, List.mem_append]
      grind
    refine (answers_implements hc1 hstarts).mono fun o c2 h2 => ⟨?_, ?_⟩
    · rintro k rfl
      refine ⟨?_, by simp⟩
      rintro _ ⟨⟩
      exact ⟨(onward_of_ahead_eq hc1 h1).past (h2.1 k rfl).1, (h2.1 k rfl).2⟩
    · rintro rfl
      obtain rfl := h2.2 rfl
      exact answers_firstOf_nil ⟨by simp, fun _ => hc1⟩

/-- A definition, or the trivia at the end. -/
theorem answers_programEntry (hc : Cut c) :
    Answers c (programEntry d) fun r c' => Cut c' ∧ (∀ x, r = .inl x → x.WellFormed d) ∧
      ∀ items, r = .inr items → if d.keepTrivia then Trivia.IsRun items else items = [] := by
  refine answers_bind (answers_trivia hc fun leading c1 hc1 _ h1 hrun hkeeps _ => ?_)
  refine answers_annotation (answers_extendedAttributes hc1) fun es items c2 h2 hannotated => ?_
  refine answers_bind ((answers_definitionKind h2.cut).mono ?_)
  rintro (_ | k) c3 ⟨hsome, hnone⟩
  · cases es with
    | nil =>
      refine answers_pure ⟨hnone rfl, by simp, ?_⟩
      rintro _ ⟨⟩
      exact hrun
    | cons e es => exact answers_fail
  · obtain ⟨hpast, hk⟩ := hsome k rfl
    refine answers_pure ⟨hpast.cut, ?_, by simp⟩
    rintro _ ⟨⟩
    exact ⟨hannotated hpast.pos, hkeeps (h2.past hpast).pos, hk⟩

theorem answers_program (hc : Cut c) :
    Answers c (program d) fun p _ => p.WellFormed d := by
  refine answers_bind ((answers_untilDone
    (I := fun xs c' => Cut c' ∧ ∀ x ∈ xs, x.WellFormed d)
    (Q := fun xs items _ => (∀ x ∈ xs, x.WellFormed d) ∧
      if d.keepTrivia then Trivia.IsRun items else items = []) ⟨hc, by simp⟩ ?_).mono ?_)
  · rintro xs c1 ⟨hc1, hxs⟩
    refine (answers_programEntry hc1).mono fun r c2 ⟨hc2, hx, hitems⟩ => ⟨?_, ?_⟩
    · rintro x rfl
      exact ⟨hc2, by simpa [or_imp, forall_and] using ⟨hxs, hx x rfl⟩⟩
    · rintro items rfl
      exact ⟨hxs, hitems items rfl⟩
  · rintro ⟨xs, items⟩ c1 ⟨hxs, hitems⟩
    refine answers_bind (answers_get ?_)
    split
    · exact answers_pure ⟨hxs, hitems⟩
    · exact answers_fail

end WebIdl.Grammar

namespace WebIdl

open Token Grammar

/-- Whatever a text is parsed into is well-formed. -/
theorem wellFormed_of_parseText {d : Dialect} {text : String} {p : Program}
    (htext : Unescaped text) (h : parseText d text = .ok p) : p.WellFormed d := by
  obtain ⟨ts, htokens, hparse⟩ := parseText_eq_ok_iff.mp h
  obtain ⟨c, hrun⟩ := parse_eq_ok_iff.mp hparse
  have hcut : Cursor.Cut (Cursor.ofTokens ts) :=
    ⟨(tokenize_eq_ok_iff.mp htokens).1, htext ts htokens⟩
  exact answers_program hcut p c hrun

end WebIdl

import Mathlib.Data.List.Induction
import WebIdl.Proofs.Merging

/-!
# Where merged members go

The target of a partial definition is told by its place in the list: the first earlier definition
that is not partial, has the name of the partial and has a member list. A merged list holds the
definitions that are not partial, each with the members that the partials have brought it, and a
warning for each partial that has no target. So no member is lost but those that were warned about.
-/

namespace WebIdl

/-- A definition without its members. -/
def Definition.emptied (x : Definition) : Definition :=
  let body (i : Interface) : Interface := { i with members := [] }
  { x with
    kind := match x.kind with
      | .interface i => .interface (body i)
      | .class i => .class (body i)
      | .callbackInterface i => .callbackInterface (body i)
      | .dictionary b => .dictionary { b with members := [] }
      | .exception e => .exception { e with members := [] }
      | kind => kind }

/-- The second definition is the first with more members behind its own. -/
structure Definition.Extends (x : Definition) (more : List Member) (y : Definition) : Prop where
  emptied : y.emptied = x.emptied
  members : y.members? = x.members?.map (· ++ more)

/-- The place of the first definition in front of place `j` that takes in the members of a partial
definition of this name. -/
def targetIndex? (xs : List Definition) (name : String) (j : Nat) : Option Nat :=
  (xs.take j).findIdx? fun y => !y.isPartial && Merged.isTarget name y

/-- The definitions that are not partial, with their places. -/
def canonicals (xs : List Definition) : List (Definition × Nat) :=
  xs.zipIdx.filter fun e => !e.1.isPartial

/-- The members of the partial definitions that have their target at place `i`. -/
def brought (xs : List Definition) (i : Nat) : List Member :=
  (xs.zipIdx.filter fun e => e.1.isPartial && targetIndex? xs e.1.name e.2 == some i).flatMap
    fun e => e.1.body

/-- The partial definitions that have no target. -/
def strays (xs : List Definition) : List Definition :=
  (xs.zipIdx.filter fun e => e.1.isPartial && (targetIndex? xs e.1.name e.2).isNone).map Prod.fst

namespace Definition

/-- There is nothing in a definition but its members and what is left without them. -/
theorem emptied_addMembers_body (x : Definition) : x.emptied.addMembers x.body = x := by
  obtain ⟨extAttrs, leading, afterAttrs, kind⟩ := x
  cases kind <;> rfl

theorem extends_addMembers (x : Definition) (more : List Member) :
    x.Extends more (x.addMembers more) := by
  obtain ⟨extAttrs, leading, afterAttrs, kind⟩ := x
  cases kind <;> exact ⟨rfl, rfl⟩

@[simp] theorem addMembers_nil (x : Definition) : x.addMembers [] = x := by
  obtain ⟨extAttrs, leading, afterAttrs, kind⟩ := x
  cases kind <;> simp [addMembers]

theorem addMembers_addMembers (x : Definition) (more others : List Member) :
    (x.addMembers more).addMembers others = x.addMembers (more ++ others) := by
  obtain ⟨extAttrs, leading, afterAttrs, kind⟩ := x
  cases kind <;> simp [addMembers]

@[simp] theorem isPartial_addMembers (x : Definition) (more : List Member) :
    (x.addMembers more).isPartial = x.isPartial := by
  obtain ⟨extAttrs, leading, afterAttrs, kind⟩ := x
  cases kind <;> rfl

@[simp] theorem isTarget_addMembers (name : String) (x : Definition) (more : List Member) :
    Merged.isTarget name (x.addMembers more) = Merged.isTarget name x :=
  (sameTarget_addMembers x more).isTarget_eq name

end Definition

open Merged

variable {xs ys : List Definition} {x : Definition}

/-- A partial is brought to an earlier place. -/
theorem lt_of_targetIndex?_eq_some {name : String} {i j : Nat}
    (h : targetIndex? xs name j = some i) : i < j := by
  obtain ⟨hi, -⟩ := List.findIdx?_eq_some_iff_getElem.mp h
  rw [List.length_take] at hi
  omega

theorem targetIndex?_append {name : String} {j : Nat} (hj : j ≤ xs.length) :
    targetIndex? (xs ++ ys) name j = targetIndex? xs name j := by
  rw [targetIndex?, targetIndex?, List.take_append_of_le_length hj]

/-- The target of a partial at the end of a list is the first canonical definition that fits it. -/
theorem targetIndex?_eq_find? (xs : List Definition) (name : String) :
    targetIndex? xs name xs.length =
      ((canonicals xs).find? fun e => isTarget name e.1).map Prod.snd := by
  rw [targetIndex?, List.take_length, canonicals, List.find?_filter,
    List.findIdx?_eq_fst_find?_zipIdx]
  simp only [Bool.decide_and, Bool.decide_eq_true]

/-- What is said of the places of a list stays true when the list grows. -/
theorem filter_zipIdx_concat {p q : Definition × Nat → Bool}
    (h : ∀ e : Definition × Nat, e.2 < xs.length → p e = q e) :
    (xs ++ [x]).zipIdx.filter p =
      xs.zipIdx.filter q ++ if p (x, xs.length) then [(x, xs.length)] else [] := by
  have hold : xs.zipIdx.filter p = xs.zipIdx.filter q := by
    apply List.filter_congr
    intro e he
    exact h e (List.snd_lt_of_mem_zipIdx he)
  rw [List.zipIdx_append, List.filter_append, hold, Nat.zero_add, List.zipIdx_singleton,
    List.filter_cons, List.filter_nil]

theorem canonicals_concat (xs : List Definition) (x : Definition) :
    canonicals (xs ++ [x]) =
      canonicals xs ++ if x.isPartial then [] else [(x, xs.length)] := by
  rw [canonicals, filter_zipIdx_concat fun _ _ => rfl]
  cases x.isPartial <;> rfl

theorem brought_concat (xs : List Definition) (x : Definition) (i : Nat) :
    brought (xs ++ [x]) i = brought xs i ++
      if x.isPartial ∧ targetIndex? xs x.name xs.length = some i then x.body else [] := by
  rw [brought, filter_zipIdx_concat (q := fun e =>
      e.1.isPartial && targetIndex? xs e.1.name e.2 == some i), List.flatMap_append,
    targetIndex?_append (Nat.le_refl _)]
  · congr 1
    by_cases h : x.isPartial ∧ targetIndex? xs x.name xs.length = some i
    · simp [h]
    · rw [if_neg h, if_neg (by simpa using h)]
      rfl
  · intro e he
    rw [targetIndex?_append (Nat.le_of_lt he)]

theorem strays_concat (xs : List Definition) (x : Definition) :
    strays (xs ++ [x]) = strays xs ++
      if x.isPartial ∧ targetIndex? xs x.name xs.length = none then [x] else [] := by
  rw [strays, filter_zipIdx_concat (q := fun e =>
      e.1.isPartial && (targetIndex? xs e.1.name e.2).isNone), List.map_append,
    targetIndex?_append (Nat.le_refl _)]
  · congr 1
    by_cases h : x.isPartial ∧ targetIndex? xs x.name xs.length = none
    · simp [h]
    · rw [if_neg h, if_neg (by simpa using h)]
      rfl
  · intro e he
    rw [targetIndex?_append (Nat.le_of_lt he)]

/-- Nothing has been brought to the end of a list yet. -/
theorem brought_length (xs : List Definition) : brought xs xs.length = [] := by
  have hnone : xs.zipIdx.filter (fun e =>
      e.1.isPartial && targetIndex? xs e.1.name e.2 == some xs.length) = [] := by
    rw [List.filter_eq_nil_iff]
    intro e he htarget
    simp only [Bool.and_eq_true, beq_iff_eq] at htarget
    have hlt := lt_of_targetIndex?_eq_some htarget.2
    have hplace := List.snd_lt_of_mem_zipIdx he
    omega
  rw [brought, hnone]
  rfl

theorem nodup_places (xs : List Definition) : ((canonicals xs).map Prod.snd).Nodup := by
  have hsub : ((canonicals xs).map Prod.snd).Sublist (xs.zipIdx.map Prod.snd) :=
    List.filter_sublist.map Prod.snd
  apply hsub.nodup
  rw [List.zipIdx_map_snd]
  exact List.nodup_range' ..

/-- The members of a partial are added behind those that others have brought to its target. -/
theorem extendTarget_map {es : List (Definition × Nat)} (hes : (es.map Prod.snd).Nodup)
    (g : Nat → List Member) (name : String) (more : List Member) :
    extendTarget name more (es.map fun e => e.1.addMembers (g e.2)) =
      (es.find? fun e => isTarget name e.1).map fun t =>
        es.map fun e => e.1.addMembers (g e.2 ++ if t.2 = e.2 then more else []) := by
  induction es with
  | nil => rfl
  | cons e es ih =>
    rw [List.map_cons, List.nodup_cons] at hes
    obtain ⟨hfresh, hes⟩ := hes
    have hne : ∀ e' ∈ es, e.2 ≠ e'.2 := by
      intro e' he' heq
      exact hfresh (heq ▸ List.mem_map_of_mem he')
    rw [List.map_cons, extendTarget, Definition.isTarget_addMembers]
    by_cases htarget : isTarget name e.1
    · have hrest : (es.map fun e' => e'.1.addMembers (g e'.2)) =
          es.map fun e' => e'.1.addMembers (g e'.2 ++ if e.2 = e'.2 then more else []) := by
        apply List.map_congr_left
        intro e' he'
        rw [if_neg (hne e' he'), List.append_nil]
      have hfind : (e :: es).find? (fun e => isTarget name e.1) = some e :=
        List.find?_cons_of_pos htarget
      rw [if_pos htarget, hfind, Option.map_some, List.map_cons,
        if_pos rfl, Definition.addMembers_addMembers, hrest]
    · have hskip : (e :: es).find? (fun e => isTarget name e.1) =
          es.find? fun e => isTarget name e.1 := List.find?_cons_of_neg htarget
      rw [if_neg htarget, hskip, ih hes, Option.map_map]
      cases hfind : es.find? fun e => isTarget name e.1 with
      | none => rfl
      | some t =>
        have hhead : t.2 ≠ e.2 := (hne t (List.mem_of_find?_eq_some hfind)).symm
        simp [hhead]

theorem mergePartials_concat (xs : List Definition) (x : Definition) :
    mergePartials (xs ++ [x]) = (mergePartials xs).add x := by
  simp [mergePartials]

/-- A merged list is told by the places of the targets in the list that was merged. -/
theorem mergePartials_eq (xs : List Definition) :
    mergePartials xs =
      ⟨(canonicals xs).map fun e => e.1.addMembers (brought xs e.2),
        (strays xs).map fun x => ⟨x.name⟩⟩ := by
  induction xs using List.reverseRecOn with
  | nil => rfl
  | append_singleton xs x ih =>
    rw [mergePartials_concat, ih, add, strays_concat, canonicals_concat]
    cases hx : x.isPartial with
    | false =>
      simp [brought_concat, hx, brought_length]
    | true =>
      simp only [if_true]
      rw [extendTarget_map (nodup_places xs), targetIndex?_eq_find?]
      cases hfind : (canonicals xs).find? fun e => isTarget x.name e.1 with
      | none => simp [brought_concat, hx, hfind, targetIndex?_eq_find?]
      | some t =>
        simp [brought_concat, hx, hfind, targetIndex?_eq_find?, Definition.body]

theorem length_canonicals (xs : List Definition) :
    (canonicals xs).length + xs.countP Definition.isPartial = xs.length := by
  induction xs using List.reverseRecOn with
  | nil => rfl
  | append_singleton xs x ih =>
    rw [canonicals_concat, List.countP_append, List.length_append, List.length_append]
    cases hx : x.isPartial with
    | false => simp [hx]; omega
    | true => simp [hx]; omega

theorem length_strays_le (xs : List Definition) :
    (strays xs).length ≤ xs.countP Definition.isPartial := by
  induction xs using List.reverseRecOn with
  | nil => exact Nat.le_refl 0
  | append_singleton xs x ih =>
    rw [strays_concat, List.countP_append, List.length_append]
    by_cases hx : x.isPartial ∧ targetIndex? xs x.name xs.length = none
    · rw [if_pos hx]
      simp [hx.1]
      omega
    · rw [if_neg hx]
      exact Nat.le_add_right_of_le ih

/-- Adding members to the first target puts them among the members of all definitions. -/
theorem perm_of_extendTarget {name : String} {more : List Member} :
    ∀ {xs ys : List Definition}, extendTarget name more xs = some ys →
      (ys.flatMap Definition.body).Perm (xs.flatMap Definition.body ++ more)
  | [], _, h => by cases h
  | x :: xs, ys, h => by
    rw [extendTarget] at h
    by_cases htarget : isTarget name x
    · rw [if_pos htarget] at h
      cases h
      rw [List.flatMap_cons, List.flatMap_cons, body_addMembers htarget]
      rw [List.append_assoc, List.append_assoc]
      exact List.perm_append_comm.append_left x.body
    · rw [if_neg htarget] at h
      obtain ⟨zs, hzs, rfl⟩ := Option.map_eq_some_iff.mp h
      rw [List.flatMap_cons, List.flatMap_cons, List.append_assoc]
      exact (perm_of_extendTarget hzs).append_left x.body

/-- A merged definition is as good a target as the one that it stands for. -/
theorem extendTarget_mergePartials_eq_none_iff {name : String} {more : List Member} :
    extendTarget name more (mergePartials xs).definitions = none ↔
      targetIndex? xs name xs.length = none := by
  rw [mergePartials_eq, extendTarget_map (nodup_places xs), targetIndex?_eq_find?,
    Option.map_eq_none_iff, Option.map_eq_none_iff]

/-- One more definition either ends up among the merged members or among those without a target. -/
theorem perm_bodies (xs : List Definition) :
    ((mergePartials xs).definitions.flatMap Definition.body ++
        (strays xs).flatMap Definition.body).Perm (xs.flatMap Definition.body) := by
  induction xs using List.reverseRecOn with
  | nil => exact List.Perm.refl []
  | append_singleton xs x ih =>
    have hswap : ∀ ms : List Member,
        (ms ++ x.body ++ (strays xs).flatMap Definition.body).Perm
          (ms ++ (strays xs).flatMap Definition.body ++ x.body) := by
      intro ms
      rw [List.append_assoc, List.append_assoc]
      exact List.perm_append_comm.append_left ms
    rw [mergePartials_concat, strays_concat, List.flatMap_append, List.flatMap_append,
      List.flatMap_singleton, add]
    cases hx : x.isPartial with
    | false =>
      simp only [Bool.false_eq_true, if_false, false_and, List.flatMap_append, List.flatMap_nil,
        List.flatMap_singleton, List.append_nil]
      exact (hswap _).trans (ih.append_right x.body)
    | true =>
      simp only [if_true, true_and]
      cases hadd : extendTarget x.name (x.members?.getD []) (mergePartials xs).definitions with
      | none =>
        rw [if_pos (extendTarget_mergePartials_eq_none_iff.mp hadd), List.flatMap_singleton,
          ← List.append_assoc]
        exact ih.append_right x.body
      | some ys =>
        have htarget : ¬targetIndex? xs x.name xs.length = none := by
          intro hnone
          rw [extendTarget_mergePartials_eq_none_iff.mpr hnone] at hadd
          cases hadd
        rw [if_neg htarget, List.flatMap_nil, List.append_nil]
        have hadded := (perm_of_extendTarget hadd).append_right ((strays xs).flatMap Definition.body)
        exact hadded.trans ((hswap _).trans (ih.append_right x.body))

/-- Merging keeps the canonical definitions in their order, each with the members that its partials
have brought it behind its own. It warns of the partials without a target, in their order, and
loses no members but theirs. -/
theorem mergePartials_conserves (xs : List Definition) :
    List.Forall₂ (fun e y => e.1.Extends (brought xs e.2) y) (canonicals xs)
        (mergePartials xs).definitions ∧
      (mergePartials xs).warnings = (strays xs).map (fun x => ⟨x.name⟩) ∧
      (mergePartials xs).definitions.length + xs.countP Definition.isPartial = xs.length ∧
      (mergePartials xs).warnings.length ≤ xs.countP Definition.isPartial ∧
      ((mergePartials xs).definitions.flatMap Definition.body ++
        (strays xs).flatMap Definition.body).Perm (xs.flatMap Definition.body) := by
  refine ⟨?_, ?_, ?_, ?_, perm_bodies xs⟩
  · rw [mergePartials_eq, List.forall₂_map_right_iff]
    exact List.forall₂_same.mpr fun e _ => Definition.extends_addMembers e.1 _
  · rw [mergePartials_eq]
  · rw [mergePartials_eq, List.length_map]
    exact length_canonicals xs
  · rw [mergePartials_eq, List.length_map]
    exact length_strays_le xs

end WebIdl

import WebIdl.Proofs.Merging.Targets

/-!
# Merging fragment by fragment

No definition of a merged list is partial, and each has the name, the place and the kind of member
list of the one that it stands for. So later partials find the same targets in it, and a list may be
merged as it grows: in the end the definitions and the warnings are those of the whole list.
-/

namespace WebIdl

open Merged

/-- Takes in the definitions of one more fragment, and merges what there is. -/
def Merged.absorb (m : Merged) (fragment : List Definition) : Merged :=
  let next := mergePartials (m.definitions ++ fragment)
  ⟨next.definitions, m.warnings ++ next.warnings⟩

/-- Whether definitions can be added does not depend on the warnings so far. -/
theorem add_eq (m : Merged) (x : Definition) :
    m.add x =
      ⟨(Merged.mk m.definitions []).add x |>.definitions,
        m.warnings ++ ((Merged.mk m.definitions []).add x).warnings⟩ := by
  unfold add
  cases x.isPartial with
  | false => simp
  | true =>
    simp only [if_true]
    cases extendTarget x.name (x.members?.getD []) m.definitions <;> simp

theorem foldl_add_eq (xs : List Definition) (m : Merged) :
    xs.foldl add m =
      ⟨(xs.foldl add ⟨m.definitions, []⟩).definitions,
        m.warnings ++ (xs.foldl add ⟨m.definitions, []⟩).warnings⟩ := by
  induction xs generalizing m with
  | nil => simp
  | cons x xs ih =>
    rw [List.foldl_cons, List.foldl_cons, ih, ih (add ⟨m.definitions, []⟩ x), add_eq]
    simp

theorem isPartial_of_mem_mergePartials {xs : List Definition} {y : Definition}
    (hy : y ∈ (mergePartials xs).definitions) : y.isPartial = false := by
  rw [mergePartials_eq, List.mem_map] at hy
  obtain ⟨e, he, rfl⟩ := hy
  rw [Definition.isPartial_addMembers]
  simpa using (List.mem_filter.mp he).2

/-- Definitions that are not partial are left alone. -/
theorem foldl_add_of_canonical {xs : List Definition} (m : Merged)
    (hxs : ∀ x ∈ xs, x.isPartial = false) :
    xs.foldl add m = ⟨m.definitions ++ xs, m.warnings⟩ := by
  induction xs generalizing m with
  | nil => simp
  | cons x xs ih =>
    obtain ⟨hx, hxs⟩ := List.forall_mem_cons.mp hxs
    have hstep : m.add x = ⟨m.definitions ++ [x], m.warnings⟩ := by simp [add, hx]
    rw [List.foldl_cons, hstep, ih _ hxs]
    simp

theorem mergePartials_definitions_append (xs ys : List Definition) :
    mergePartials ((mergePartials xs).definitions ++ ys) =
      ys.foldl add ⟨(mergePartials xs).definitions, []⟩ := by
  have hcanonical : ∀ x ∈ (mergePartials xs).definitions, x.isPartial = false :=
    fun x hx => isPartial_of_mem_mergePartials hx
  rw [mergePartials, List.foldl_append, foldl_add_of_canonical _ hcanonical]
  rfl

/-- Taking in a fragment is merging the list with the fragment behind it. -/
theorem absorb_mergePartials (xs ys : List Definition) :
    (mergePartials xs).absorb ys = mergePartials (xs ++ ys) := by
  have hwhole : mergePartials (xs ++ ys) = ys.foldl add (mergePartials xs) := by
    rw [mergePartials, List.foldl_append]
    rfl
  rw [hwhole, foldl_add_eq, absorb, mergePartials_definitions_append]

theorem foldl_absorb_mergePartials (fragments : List (List Definition)) (xs : List Definition) :
    fragments.foldl absorb (mergePartials xs) = mergePartials (xs ++ fragments.flatten) := by
  induction fragments generalizing xs with
  | nil => simp
  | cons ys fragments ih =>
    rw [List.foldl_cons, absorb_mergePartials, ih, List.flatten_cons, List.append_assoc]

/-- A list may be merged in two steps, or in as many as it has fragments, and merging it again
changes nothing. -/
theorem mergePartials_incremental :
    (∀ xs ys : List Definition,
      (mergePartials ((mergePartials xs).definitions ++ ys)).definitions =
          (mergePartials (xs ++ ys)).definitions ∧
        (mergePartials (xs ++ ys)).warnings = (mergePartials xs).warnings ++
          (mergePartials ((mergePartials xs).definitions ++ ys)).warnings) ∧
      (∀ fragments : List (List Definition),
        fragments.foldl absorb {} = mergePartials fragments.flatten) ∧
      ∀ xs : List Definition,
        mergePartials (mergePartials xs).definitions = ⟨(mergePartials xs).definitions, []⟩ := by
  refine ⟨?_, ?_, ?_⟩
  · intro xs ys
    have hdefinitions := congrArg Merged.definitions (absorb_mergePartials xs ys)
    have hwarnings := congrArg Merged.warnings (absorb_mergePartials xs ys)
    exact ⟨hdefinitions, hwarnings.symm⟩
  · intro fragments
    exact foldl_absorb_mergePartials fragments []
  · intro xs
    have hsplit := mergePartials_definitions_append xs []
    rwa [List.append_nil] at hsplit

end WebIdl

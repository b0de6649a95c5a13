import Mathlib.Data.List.Basic
import Mathlib.Data.List.TakeWhile
import WebIdl.Text.Words

/-!
# Trimmed text and its words

Text whose ends are solid is what trimming leaves of it. To cut such a text into words and to put
one space between them is to squeeze each run of white space into one space. Characters that are not
white come through all of it in their order.
-/

namespace WebIdl.Text

variable {cs ds : List Char} {c : Char}

/-- The text starts with a character that is not white. -/
def Begun (cs : List Char) : Prop :=
  ∃ c ∈ cs.head?, isWhiteSpace c = false

/-- The text ends with a character that is not white. -/
def Ended (cs : List Char) : Prop :=
  ∃ c ∈ cs.getLast?, isWhiteSpace c = false

theorem begun_cons (h : isWhiteSpace c = false) (cs : List Char) : Begun (c :: cs) :=
  ⟨c, rfl, h⟩

theorem Begun.append (h : Begun cs) (ds : List Char) : Begun (cs ++ ds) := by
  obtain ⟨c, hc, hsolid⟩ := h
  obtain ⟨tail, rfl⟩ := List.head?_eq_some_iff.mp hc
  exact ⟨c, rfl, hsolid⟩

theorem Ended.append_left (h : Ended ds) (cs : List Char) : Ended (cs ++ ds) := by
  obtain ⟨c, hc, hsolid⟩ := h
  exact ⟨c, List.mem_getLast?_append_of_mem_getLast? hc, hsolid⟩

theorem ended_concat (h : isWhiteSpace c = false) (cs : List Char) : Ended (cs ++ [c]) :=
  ⟨c, by simp, h⟩

theorem ended_of_forall (hne : cs ≠ []) (h : ∀ c ∈ cs, isWhiteSpace c = false) : Ended cs :=
  ⟨cs.getLast hne, List.getLast?_eq_getLast_of_ne_nil hne, h _ (List.getLast_mem hne)⟩

theorem Ended.ne_nil (h : Ended cs) : cs ≠ [] := by
  rintro rfl
  obtain ⟨c, hc, -⟩ := h
  cases hc

theorem Ended.of_cons {d : Char} (h : Ended (c :: d :: cs)) : Ended (d :: cs) := by
  obtain ⟨e, he, hsolid⟩ := h
  exact ⟨e, by rwa [List.getLast?_cons_cons] at he, hsolid⟩

theorem trimStart_append (h : ∀ c ∈ cs, isWhiteSpace c) (ds : List Char) :
    trimStart (cs ++ ds) = trimStart ds :=
  List.dropWhile_append_of_pos h

theorem Begun.trimStart_eq (h : Begun cs) : trimStart cs = cs := by
  obtain ⟨c, hc, hsolid⟩ := h
  obtain ⟨tail, rfl⟩ := List.head?_eq_some_iff.mp hc
  exact List.dropWhile_cons_of_neg (by simp [hsolid])

theorem Ended.trimEnd_eq (h : Ended cs) : trimEnd cs = cs := by
  obtain ⟨c, hc, hsolid⟩ := h
  obtain ⟨front, rfl⟩ := List.getLast?_eq_some_iff.mp hc
  rw [trimEnd, List.reverse_append, List.reverse_singleton, List.singleton_append,
    List.dropWhile_cons_of_neg (by simp [hsolid])]
  simp

/-- Trimming goes on to the text in front only where nothing is left of the text behind. -/
theorem trimEnd_append_eq (cs ds : List Char) :
    trimEnd (cs ++ ds) = if trimEnd ds = [] then trimEnd cs else cs ++ trimEnd ds := by
  rw [trimEnd, List.reverse_append, List.dropWhile_append, trimEnd]
  simp only [List.isEmpty_iff, List.reverse_eq_nil_iff]
  split
  · rfl
  · rw [List.reverse_append, List.reverse_reverse]

theorem trimEnd_append_of_ended (h : Ended cs) (ds : List Char) :
    trimEnd (cs ++ ds) = cs ++ trimEnd ds := by
  rw [trimEnd_append_eq]
  split
  · next hnil => rw [h.trimEnd_eq, hnil, List.append_nil]
  · rfl

theorem trimEnd_of_white (h : ∀ c ∈ cs, isWhiteSpace c) : trimEnd cs = [] := by
  have hnil := @List.dropWhile_append_of_pos _ isWhiteSpace cs.reverse [] (by simpa using h)
  rw [List.append_nil] at hnil
  rw [trimEnd, hnil]
  rfl

theorem trimEnd_append (h : ∀ c ∈ ds, isWhiteSpace c) (cs : List Char) :
    trimEnd (cs ++ ds) = trimEnd cs := by
  rw [trimEnd_append_eq, if_pos (trimEnd_of_white h)]

theorem trimEnd_isPrefix (cs : List Char) : trimEnd cs <+: cs := by
  rw [trimEnd, ← List.reverse_suffix, List.reverse_reverse]
  exact List.dropWhile_suffix _

/-- What is left of a trimmed text has solid ends. -/
theorem trim_eq_nil_or (cs : List Char) : trim cs = [] ∨ Begun (trim cs) ∧ Ended (trim cs) := by
  have hstart : ∀ c ∈ (trimStart cs).head?, isWhiteSpace c = false := by
    intro c hc
    have hhead := List.head?_dropWhile_not isWhiteSpace cs
    rw [← trimStart, Option.mem_def.mp hc] at hhead
    simpa using hhead
  have hend : ∀ c ∈ (trim cs).getLast?, isWhiteSpace c = false := by
    intro c hc
    have hhead := List.head?_dropWhile_not isWhiteSpace (trimStart cs).reverse
    rw [trim, trimEnd, List.getLast?_reverse] at hc
    rw [Option.mem_def.mp hc] at hhead
    simpa using hhead
  by_cases hnil : trim cs = []
  · exact Or.inl hnil
  · obtain ⟨c, tail, htail⟩ := List.exists_cons_of_ne_nil hnil
    obtain ⟨rest, hrest⟩ := trimEnd_isPrefix (trimStart cs)
    refine Or.inr ⟨⟨c, by rw [htail]; rfl, hstart c ?_⟩, ?_⟩
    · rw [← hrest, ← trim, htail]
      rfl
    · exact ⟨(trim cs).getLast hnil, List.getLast?_eq_getLast_of_ne_nil hnil,
        hend _ (List.getLast?_eq_getLast_of_ne_nil hnil)⟩

/-- Trimming takes white space off and nothing else. -/
theorem exists_eq_trim (cs : List Char) :
    ∃ as bs, cs = as ++ (trim cs ++ bs) ∧ (∀ c ∈ as, isWhiteSpace c) ∧ ∀ c ∈ bs, isWhiteSpace c := by
  have hend : ∀ cs : List Char, cs = trimEnd cs ++ (cs.reverse.takeWhile isWhiteSpace).reverse := by
    intro cs
    rw [trimEnd, ← List.reverse_append, List.takeWhile_append_dropWhile, List.reverse_reverse]
  refine ⟨cs.takeWhile isWhiteSpace, ((trimStart cs).reverse.takeWhile isWhiteSpace).reverse, ?_,
    fun c hc => List.mem_takeWhile_imp hc, fun c hc => ?_⟩
  · rw [trim, ← hend, trimStart, List.takeWhile_append_dropWhile]
  · exact List.mem_takeWhile_imp (List.mem_reverse.mp hc)

theorem trim_of_ends (hbegun : Begun cs) (hended : Ended cs) : trim cs = cs := by
  rw [trim, hbegun.trimStart_eq, hended.trimEnd_eq]

theorem trim_append_left (h : ∀ c ∈ cs, isWhiteSpace c) (ds : List Char) :
    trim (cs ++ ds) = trim ds := by
  rw [trim, trimStart_append h, trim]

theorem trim_trim (cs : List Char) : trim (trim cs) = trim cs := by
  rcases trim_eq_nil_or cs with hnil | ⟨hbegun, hended⟩
  · rw [hnil]
    rfl
  · exact trim_of_ends hbegun hended

theorem trim_append_right (h : ∀ c ∈ ds, isWhiteSpace c) (cs : List Char) :
    trim (cs ++ ds) = trim cs := by
  unfold trim trimStart
  rw [List.dropWhile_append]
  split
  · next hnil =>
    rw [List.isEmpty_iff.mp hnil, trimEnd_of_white fun c hc => h c ((List.dropWhile_sublist _).subset hc)]
    rfl
  · rw [trimEnd_append h]

/-- Each run of white space made one space. A run that goes on with white space from before is left
out. -/
def squeezeFrom : Bool → List Char → List Char
  | _, [] => []
  | spaced, c :: cs =>
    if isWhiteSpace c then
      if spaced then squeezeFrom true cs else ' ' :: squeezeFrom true cs
    else c :: squeezeFrom false cs

def squeeze (cs : List Char) : List Char :=
  squeezeFrom false cs

/-- Whether white space is open behind a text. -/
def spacedBehind (spaced : Bool) (cs : List Char) : Bool :=
  (cs.getLast?.map isWhiteSpace).getD spaced

theorem spacedBehind_cons (spaced : Bool) (c : Char) (cs : List Char) :
    spacedBehind spaced (c :: cs) = spacedBehind (isWhiteSpace c) cs := by
  cases cs with
  | nil => rfl
  | cons d ds =>
    rw [spacedBehind, spacedBehind, List.getLast?_cons_cons]
    simp [List.getLast?_cons]

theorem squeezeFrom_append (spaced : Bool) (cs ds : List Char) :
    squeezeFrom spaced (cs ++ ds) =
      squeezeFrom spaced cs ++ squeezeFrom (spacedBehind spaced cs) ds := by
  induction cs generalizing spaced with
  | nil => rfl
  | cons c cs ih =>
    rw [spacedBehind_cons, List.cons_append, squeezeFrom, squeezeFrom]
    by_cases hc : isWhiteSpace c
    · cases spaced <;> simp [hc, ih]
    · simp [hc, ih]

theorem squeezeFrom_of_begun (h : Begun cs) (spaced : Bool) : squeezeFrom spaced cs = squeeze cs := by
  obtain ⟨c, hc, hsolid⟩ := h
  obtain ⟨tail, rfl⟩ := List.head?_eq_some_iff.mp hc
  simp [squeeze, squeezeFrom, hsolid]

theorem squeezeFrom_of_forall (h : ∀ c ∈ cs, isWhiteSpace c = false) (spaced : Bool) :
    squeezeFrom spaced cs = cs := by
  induction cs generalizing spaced with
  | nil => rfl
  | cons c cs ih =>
    obtain ⟨hc, hcs⟩ := List.forall_mem_cons.mp h
    rw [squeezeFrom, if_neg (by simp [hc]), ih hcs]

theorem squeezeFrom_true_of_white (h : ∀ c ∈ cs, isWhiteSpace c) : squeezeFrom true cs = [] := by
  induction cs with
  | nil => rfl
  | cons c cs ih =>
    obtain ⟨hc, hcs⟩ := List.forall_mem_cons.mp h
    rw [squeezeFrom, if_pos hc, if_pos rfl, ih hcs]

theorem squeeze_of_white (hne : cs ≠ []) (h : ∀ c ∈ cs, isWhiteSpace c) : squeeze cs = [' '] := by
  obtain ⟨c, cs, rfl⟩ := List.exists_cons_of_ne_nil hne
  obtain ⟨hc, hcs⟩ := List.forall_mem_cons.mp h
  rw [squeeze, squeezeFrom, if_pos hc, if_neg Bool.false_ne_true, squeezeFrom_true_of_white hcs]

theorem isWhiteSpace_of_mem_squeezeFrom {spaced : Bool} (h : c ∈ squeezeFrom spaced cs) :
    c ∈ cs ∨ c = ' ' := by
  induction cs generalizing spaced with
  | nil => cases h
  | cons d cs ih =>
    rw [squeezeFrom] at h
    split at h
    · split at h
      · exact (ih h).imp_left (List.mem_cons_of_mem d)
      · rcases List.mem_cons.mp h with rfl | h
        · exact Or.inr rfl
        · exact (ih h).imp_left (List.mem_cons_of_mem d)
    · rcases List.mem_cons.mp h with rfl | h
      · exact Or.inl List.mem_cons_self
      · exact (ih h).imp_left (List.mem_cons_of_mem d)

/-- What is squeezed is left alone the next time. -/
theorem squeezeFrom_squeezeFrom (spaced : Bool) (cs : List Char) :
    squeezeFrom spaced (squeezeFrom spaced cs) = squeezeFrom spaced cs := by
  have hspace : isWhiteSpace ' ' = true := rfl
  induction cs generalizing spaced with
  | nil => rfl
  | cons c cs ih =>
    by_cases hc : isWhiteSpace c
    · cases spaced <;> simp [squeezeFrom, hc, hspace, ih]
    · simp [squeezeFrom, hc, ih]

theorem squeeze_squeeze (cs : List Char) : squeeze (squeeze cs) = squeeze cs :=
  squeezeFrom_squeezeFrom false cs

theorem words_cons_of_white (h : isWhiteSpace c) (cs : List Char) : words (c :: cs) = words cs :=
  if_pos h

theorem words_cons_of_solid (h : isWhiteSpace c = false) (cs : List Char) :
    words (c :: cs) =
      match cs, words cs with
      | next :: _, w :: ws => if isWhiteSpace next then [c] :: w :: ws else (c :: w) :: ws
      | _, ws => [c] :: ws :=
  if_neg (by simp [h])

theorem words_ne_nil (h : ¬∀ c ∈ cs, isWhiteSpace c) : words cs ≠ [] := by
  induction cs with
  | nil => exact absurd (by simp) h
  | cons c cs ih =>
    by_cases hc : isWhiteSpace c
    · rw [words_cons_of_white hc]
      exact ih fun hcs => h (List.forall_mem_cons.mpr ⟨hc, hcs⟩)
    · rw [Bool.not_eq_true] at hc
      rw [words_cons_of_solid hc]
      split
      · split <;> exact List.cons_ne_nil _ _
      · exact List.cons_ne_nil _ _

theorem Ended.words_ne_nil (h : Ended cs) : words cs ≠ [] := by
  apply Text.words_ne_nil
  intro hall
  obtain ⟨c, hc, hsolid⟩ := h
  rw [hall c (List.mem_of_mem_getLast? hc)] at hsolid
  cases hsolid

/-- A word goes on with the character in front of it. -/
theorem words_cons_cons {d : Char} (hc : isWhiteSpace c = false) (hd : isWhiteSpace d = false)
    (cs : List Char) :
    ∃ w ws, words (d :: cs) = w :: ws ∧ words (c :: d :: cs) = (c :: w) :: ws := by
  obtain ⟨w, ws, hw⟩ := List.exists_cons_of_ne_nil
    (@Text.words_ne_nil (d :: cs) fun h => by simp [h d List.mem_cons_self] at hd)
  refine ⟨w, ws, hw, ?_⟩
  rw [words_cons_of_solid hc, hw]
  simp [hd]

/-- A word ends in front of white space. -/
theorem words_cons_white {d : Char} (hc : isWhiteSpace c = false) (hd : isWhiteSpace d)
    (cs : List Char) : words (c :: d :: cs) = [c] :: words (d :: cs) := by
  rw [words_cons_of_solid hc]
  cases words (d :: cs) with
  | nil => rfl
  | cons w ws => exact if_pos hd

theorem words_of_forall (hne : cs ≠ []) (h : ∀ c ∈ cs, isWhiteSpace c = false) :
    words cs = [cs] := by
  induction cs with
  | nil => exact absurd rfl hne
  | cons c cs ih =>
    obtain ⟨hc, hcs⟩ := List.forall_mem_cons.mp h
    cases cs with
    | nil => exact words_cons_of_solid hc []
    | cons d ds =>
      obtain ⟨w, ws, hw, heq⟩ := words_cons_cons hc (hcs d List.mem_cons_self) ds
      rw [ih (List.cons_ne_nil d ds) hcs] at hw
      cases hw
      exact heq

theorem words_append_white {d : Char} (hd : isWhiteSpace d) (cs ds : List Char) :
    words (cs ++ d :: ds) = words cs ++ words ds := by
  induction cs with
  | nil => exact words_cons_of_white hd ds
  | cons c cs ih =>
    by_cases hc : isWhiteSpace c
    · rw [List.cons_append, words_cons_of_white hc, words_cons_of_white hc, ih]
    · rw [Bool.not_eq_true] at hc
      cases cs with
      | nil =>
        rw [List.cons_append, List.nil_append, words_cons_white hc hd, words_cons_of_white hd,
          words_of_forall (List.cons_ne_nil c []) (by simpa using hc), List.singleton_append]
      | cons e es =>
        by_cases he : isWhiteSpace e
        · rw [List.cons_append, List.cons_append, words_cons_white hc he, words_cons_white hc he,
            ← List.cons_append, ih, List.cons_append]
        · rw [Bool.not_eq_true] at he
          obtain ⟨w, ws, hw, heq⟩ := words_cons_cons hc he (es ++ d :: ds)
          obtain ⟨v, vs, hv, heq'⟩ := words_cons_cons hc he es
          rw [List.cons_append, hw, hv, List.cons_append] at ih
          cases ih
          rw [List.cons_append, List.cons_append, heq, heq', List.cons_append]

/-- White space aside, the words with one space between them are the text. -/
theorem unwords_words (h : Ended cs) : unwords (words cs) = squeezeFrom true cs := by
  induction cs with
  | nil => exact absurd rfl h.ne_nil
  | cons c cs ih =>
    cases cs with
    | nil =>
      obtain ⟨d, hd, hsolid⟩ := h
      cases hd
      rw [words_of_forall (List.cons_ne_nil c []) (by simpa using hsolid),
        squeezeFrom_of_forall (by simpa using hsolid)]
      rfl
    | cons d ds =>
      have ih := ih h.of_cons
      have hwords := h.of_cons.words_ne_nil
      by_cases hc : isWhiteSpace c
      · rw [words_cons_of_white hc, ih, squeezeFrom.eq_2 true c, if_pos hc, if_pos rfl]
      · rw [Bool.not_eq_true] at hc
        rw [squeezeFrom.eq_2 true c, if_neg (by simp [hc])]
        by_cases hd : isWhiteSpace d
        · rw [words_cons_white hc hd]
          obtain ⟨w, ws, hw⟩ := List.exists_cons_of_ne_nil hwords
          rw [hw] at ih ⊢
          rw [squeezeFrom, if_pos hd, if_neg Bool.false_ne_true]
          rw [squeezeFrom, if_pos hd, if_pos rfl] at ih
          rw [← ih]
          rfl
        · rw [Bool.not_eq_true] at hd
          obtain ⟨w, ws, hw, heq⟩ := words_cons_cons hc hd ds
          rw [hw] at ih
          rw [heq, squeezeFrom_of_begun (begun_cons hd ds) false,
            ← squeezeFrom_of_begun (begun_cons hd ds) true, ← ih]
          cases ws <;> rfl

/-- The words of a text without white space at its ends, with one space between them. -/
theorem unwords_words_of_ends (hbegun : Begun cs) (hended : Ended cs) :
    unwords (words cs) = squeeze cs := by
  rw [unwords_words hended, squeezeFrom_of_begun hbegun]

/-- A word is not empty and holds no white space. -/
theorem solid_of_mem_words {w : List Char} (h : w ∈ words cs) :
    w ≠ [] ∧ ∀ c ∈ w, isWhiteSpace c = false := by
  induction cs generalizing w with
  | nil => cases h
  | cons c cs ih =>
    by_cases hc : isWhiteSpace c
    · rw [words_cons_of_white hc] at h
      exact ih h
    · rw [Bool.not_eq_true] at hc
      have hone : [c] ≠ [] ∧ ∀ d ∈ [c], isWhiteSpace d = false := ⟨List.cons_ne_nil c [], by simpa⟩
      cases cs with
      | nil =>
        rw [words_cons_of_solid hc] at h
        rw [List.mem_singleton.mp h]
        exact hone
      | cons d ds =>
        by_cases hd : isWhiteSpace d
        · rw [words_cons_white hc hd] at h
          rcases List.mem_cons.mp h with rfl | h
          · exact hone
          · exact ih h
        · rw [Bool.not_eq_true] at hd
          obtain ⟨v, vs, hv, heq⟩ := words_cons_cons hc hd ds
          rw [heq] at h
          rw [hv] at ih
          rcases List.mem_cons.mp h with rfl | h
          · exact ⟨List.cons_ne_nil c v, List.forall_mem_cons.mpr ⟨hc, (ih List.mem_cons_self).2⟩⟩
          · exact ih (List.mem_cons_of_mem v h)

theorem words_white_append (h : ∀ c ∈ cs, isWhiteSpace c) (ds : List Char) :
    words (cs ++ ds) = words ds := by
  induction cs with
  | nil => rfl
  | cons c cs ih =>
    obtain ⟨hc, hcs⟩ := List.forall_mem_cons.mp h
    rw [List.cons_append, words_cons_of_white hc, ih hcs]

theorem words_append_of_white (h : ∀ c ∈ ds, isWhiteSpace c) (cs : List Char) :
    words (cs ++ ds) = words cs := by
  cases ds with
  | nil => rw [List.append_nil]
  | cons d ds =>
    obtain ⟨hd, hds⟩ := List.forall_mem_cons.mp h
    have hnil := words_white_append hds []
    rw [List.append_nil] at hnil
    rw [words_append_white hd, hnil]
    exact List.append_nil _

theorem words_unwords {ws : List (List Char)}
    (h : ∀ w ∈ ws, w ≠ [] ∧ ∀ c ∈ w, isWhiteSpace c = false) : words (unwords ws) = ws := by
  induction ws with
  | nil => rfl
  | cons w ws ih =>
    obtain ⟨⟨hne, hw⟩, hws⟩ := List.forall_mem_cons.mp h
    cases ws with
    | nil => simpa [unwords] using words_of_forall hne hw
    | cons v vs =>
      have hcons : unwords (w :: v :: vs) = w ++ ' ' :: unwords (v :: vs) := by simp [unwords]
      rw [hcons, words_append_white rfl, words_of_forall hne hw, ih hws]
      rfl

/-- The words are what is not white. -/
theorem flatten_words (cs : List Char) : (words cs).flatten = cs.filter (!isWhiteSpace ·) := by
  induction cs with
  | nil => rfl
  | cons c cs ih =>
    by_cases hc : isWhiteSpace c
    · rw [words_cons_of_white hc, ih, List.filter_cons_of_neg (by simp [hc])]
    · rw [Bool.not_eq_true] at hc
      rw [List.filter_cons_of_pos (by simp [hc]), ← ih]
      cases cs with
      | nil =>
        rw [words_cons_of_solid hc]
        rfl
      | cons d ds =>
        by_cases hd : isWhiteSpace d
        · rw [words_cons_white hc hd]
          rfl
        · rw [Bool.not_eq_true] at hd
          obtain ⟨w, ws, hw, heq⟩ := words_cons_cons hc hd ds
          rw [hw, heq]
          rfl

section Solid

variable {p : Char → Bool} (hp : ∀ c, isWhiteSpace c → p c = false)
include hp

theorem filter_of_white (h : ∀ c ∈ cs, isWhiteSpace c) : cs.filter p = [] := by
  apply List.filter_eq_nil_iff.mpr
  intro c hc
  simp [hp c (h c hc)]

theorem filter_trimStart (cs : List Char) : (trimStart cs).filter p = cs.filter p := by
  have hwhite : (cs.takeWhile isWhiteSpace).filter p = [] :=
    filter_of_white hp fun c hc => List.mem_takeWhile_imp hc
  calc (trimStart cs).filter p
      = (cs.takeWhile isWhiteSpace).filter p ++ (trimStart cs).filter p := by rw [hwhite]; rfl
    _ = cs.filter p := by
      rw [← List.filter_append, trimStart, List.takeWhile_append_dropWhile]

theorem filter_trimEnd (cs : List Char) : (trimEnd cs).filter p = cs.filter p := by
  have h := filter_trimStart hp cs.reverse
  rw [trimEnd, List.filter_reverse, ← trimStart, h, List.filter_reverse, List.reverse_reverse]

theorem filter_trim (cs : List Char) : (trim cs).filter p = cs.filter p := by
  rw [trim, filter_trimEnd hp, filter_trimStart hp]

theorem filter_flatten_words (cs : List Char) : (words cs).flatten.filter p = cs.filter p := by
  rw [flatten_words, List.filter_filter]
  apply List.filter_congr
  intro c _
  cases hc : isWhiteSpace c with
  | true => simp [hp c hc]
  | false => simp

theorem filter_unwords (ws : List (List Char)) :
    (unwords ws).filter p = ws.flatten.filter p := by
  have hspace : [' '].filter p = [] := filter_of_white hp (by simp; rfl)
  induction ws with
  | nil => rfl
  | cons w ws ih =>
    cases ws with
    | nil => simp [unwords]
    | cons v vs =>
      have hcons : unwords (w :: v :: vs) = w ++ [' '] ++ unwords (v :: vs) := by simp [unwords]
      rw [hcons, List.filter_append, List.filter_append, hspace, ih, List.append_nil,
        ← List.filter_append]
      rfl

theorem filter_padEnd (width : Nat) (cs : List Char) : (padEnd width cs).filter p = cs.filter p := by
  have hpad : (List.replicate (width - cs.length) ' ').filter p = [] := by
    apply filter_of_white hp
    intro c hc
    rw [List.eq_of_mem_replicate hc]
    rfl
  rw [padEnd, List.filter_append, hpad, List.append_nil]

end Solid

end WebIdl.Text

import Mathlib.Data.List.Forall2

/-! Texts that can be told apart from what follows them: words up to the end of their class, and
lists with a separator between their elements. -/

namespace Delimited

variable {α χ : Type}

theorem takeWhile_append {p : χ → Bool} {word rest : List χ} (hword : ∀ c ∈ word, p c = true)
    (hrest : ∀ c ∈ rest.head?, p c = false) : (word ++ rest).takeWhile p = word := by
  rw [List.takeWhile_append_of_pos hword]
  cases rest with
  | nil => simp
  | cons c rest => simp [hrest c rfl]

theorem dropWhile_append {p : χ → Bool} {word rest : List χ} (hword : ∀ c ∈ word, p c = true)
    (hrest : ∀ c ∈ rest.head?, p c = false) : (word ++ rest).dropWhile p = rest := by
  rw [List.dropWhile_append_of_pos hword]
  cases rest with
  | nil => rfl
  | cons c rest => simp [hrest c rfl]

/-- Two words in front of texts that do not go on with the class are the same. -/
theorem word_unique {p : χ → Bool} {word word' rest rest' : List χ}
    (hword : ∀ c ∈ word, p c = true) (hword' : ∀ c ∈ word', p c = true)
    (hrest : ∀ c ∈ rest.head?, p c = false) (hrest' : ∀ c ∈ rest'.head?, p c = false)
    (h : word ++ rest = word' ++ rest') : word = word' ∧ rest = rest' := by
  have heq := congrArg (List.takeWhile p) h
  rw [takeWhile_append hword hrest, takeWhile_append hword' hrest'] at heq
  subst heq
  exact ⟨rfl, List.append_cancel_left h⟩

theorem intercalate_cons (sep text : List χ) (texts : List (List χ)) :
    sep.intercalate (text :: texts) = text ++ texts.flatMap (sep ++ ·) := by
  induction texts generalizing text with
  | nil => simp
  | cons t texts ih => simp [List.intercalate_cons_cons, ih, List.flatMap_cons]

/-- Two lists are the same when their elements can be told apart from a separator after them. -/
theorem tail_unique {sep : List χ} {print : α → List χ} {same : α → α → Prop}
    {follow : List χ → Prop} {as as' : List α} {rest rest' : List χ}
    (hitem : ∀ a ∈ as, ∀ a' ∈ as', ∀ r r', follow r → follow r' →
      print a ++ r = print a' ++ r' → same a a' ∧ r = r')
    (hsep : ∀ r, follow (sep ++ r)) (hrest : follow rest) (hrest' : follow rest')
    (hend : ¬sep <+: rest) (hend' : ¬sep <+: rest')
    (h : (as.map print).flatMap (sep ++ ·) ++ rest = (as'.map print).flatMap (sep ++ ·) ++ rest') :
    List.Forall₂ same as as' ∧ rest = rest' := by
  have hfollow : ∀ (bs : List α) (r : List χ), follow r →
      follow ((bs.map print).flatMap (sep ++ ·) ++ r) := by
    intro bs r hr
    cases bs with
    | nil => exact hr
    | cons b bs =>
      rw [List.map_cons, List.flatMap_cons, List.append_assoc, List.append_assoc]
      exact hsep _
  have hcons : ∀ (b : α) (bs : List α) (r : List χ), ((b :: bs).map print).flatMap (sep ++ ·) ++ r =
      sep ++ (print b ++ ((bs.map print).flatMap (sep ++ ·) ++ r)) := fun b bs r => by simp
  induction as generalizing as' with
  | nil =>
    cases as' with
    | nil => exact ⟨.nil, h⟩
    | cons a' as' =>
      rw [hcons] at h
      exact absurd ⟨_, h.symm⟩ hend
  | cons a as ih =>
    cases as' with
    | nil =>
      rw [hcons] at h
      exact absurd ⟨_, h⟩ hend'
    | cons a' as' =>
      rw [hcons, hcons] at h
      obtain ⟨hsame, h⟩ := hitem a (by simp) a' (by simp) _ _ (hfollow as _ hrest)
        (hfollow as' _ hrest') (List.append_cancel_left h)
      obtain ⟨hall, hend⟩ := ih (fun b hb b' hb' => hitem b (by simp [hb]) b' (by simp [hb'])) h
      exact ⟨.cons hsame hall, hend⟩

theorem unique {sep : List χ} {print : α → List χ} {same : α → α → Prop}
    {follow : List χ → Prop} {as as' : List α} {rest rest' : List χ} (hne : as ≠ []) (hne' : as' ≠ [])
    (hitem : ∀ a ∈ as, ∀ a' ∈ as', ∀ r r', follow r → follow r' →
      print a ++ r = print a' ++ r' → same a a' ∧ r = r')
    (hsep : ∀ r, follow (sep ++ r)) (hrest : follow rest) (hrest' : follow rest')
    (hend : ¬sep <+: rest) (hend' : ¬sep <+: rest')
    (h : sep.intercalate (as.map print) ++ rest = sep.intercalate (as'.map print) ++ rest') :
    List.Forall₂ same as as' ∧ rest = rest' := by
  have hall : ∀ bs : List α, bs ≠ [] → ∀ r, sep ++ (sep.intercalate (bs.map print) ++ r) =
      (bs.map print).flatMap (sep ++ ·) ++ r := by
    intro bs hbs r
    cases bs with
    | nil => exact absurd rfl hbs
    | cons b bs => rw [List.map_cons, intercalate_cons]; simp
  refine tail_unique hitem hsep hrest hrest' hend hend' ?_
  rw [← hall as hne, ← hall as' hne', h]

/-- Lists of the same elements, up to what a function forgets. -/
theorem map_eq_of_forall₂ {β : Type} {same : α → α → Prop} {f : α → β} {as as' : List α}
    (h : List.Forall₂ same as as') (hf : ∀ a a', same a a' → f a = f a') :
    as.map f = as'.map f := by
  induction h with
  | nil => rfl
  | cons hab _ ih => rw [List.map_cons, List.map_cons, hf _ _ hab, ih]

/-- Words that end at a mark are told apart by it. -/
theorem terminated_unique [DecidableEq χ] {mark : χ} {words words' : List (List χ)}
    (hwords : ∀ word ∈ words, mark ∉ word) (hwords' : ∀ word ∈ words', mark ∉ word)
    (h : words.flatMap (· ++ [mark]) = words'.flatMap (· ++ [mark])) : words = words' := by
  have hword : ∀ word : List χ, mark ∉ word → ∀ c ∈ word, decide (c ≠ mark) = true := by
    intro word hmark c hc
    exact decide_eq_true fun h => hmark (h ▸ hc)
  have hend : ∀ rest : List χ, ∀ c ∈ (mark :: rest).head?, decide (c ≠ mark) = false := by
    intro rest c hc
    simp at hc
    simp [hc]
  induction words generalizing words' with
  | nil =>
    cases words' with
    | nil => rfl
    | cons word' words' => simp at h
  | cons word words ih =>
    cases words' with
    | nil => simp at h
    | cons word' words' =>
      rw [List.forall_mem_cons] at hwords hwords'
      simp only [List.flatMap_cons, List.append_assoc, List.singleton_append] at h
      obtain ⟨rfl, hrest⟩ := word_unique (hword word hwords.1) (hword word' hwords'.1) (hend _)
        (hend _) h
      rw [ih hwords.2 hwords'.2 (List.cons_inj_right mark |>.mp hrest)]

end Delimited

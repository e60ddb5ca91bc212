import SqlOptimizer.Library.Pairs

/-! All the ways to choose one value for each index of a list: the cartesian product of a family of
lists, as functions on the indices.  The order of the indices only permutes the choices, and
joining one more list extends them. -/

namespace Assignment

variable {ι α : Type} [DecidableEq ι]

/-- The choices of an element of `dom i` for each `i` of the list, over the default `base`. -/
def all (base : ι → α) (dom : ι → List α) : List ι → List (ι → α)
  | [] => [base]
  | i :: is => (dom i).flatMap fun a => (all base dom is).map fun e => Function.update e i a

variable {base : ι → α} {dom : ι → List α}

theorem all_cons (i : ι) (is : List ι) : all base dom (i :: is) =
    (dom i).flatMap fun a => (all base dom is).map fun e => Function.update e i a := rfl

theorem mem_dom_of_mem_all {is : List ι} {e : ι → α} (he : e ∈ all base dom is) {i : ι}
    (hi : i ∈ is) : e i ∈ dom i := by
  induction is generalizing e with
  | nil => cases hi
  | cons j is ih =>
    simp only [all_cons, List.mem_flatMap, List.mem_map] at he
    obtain ⟨a, ha, e, he, rfl⟩ := he
    by_cases hij : i = j
    · subst hij
      simpa using ha
    · rw [Function.update_of_ne hij]
      exact ih he ((List.mem_cons.mp hi).resolve_left hij)

/-- The order of the indices only permutes the choices. -/
theorem all_perm {is js : List ι} (h : is.Perm js) (hn : is.Nodup) :
    (all base dom is).Perm (all base dom js) := by
  induction h with
  | nil => exact .refl _
  | cons i _ ih =>
    rw [all_cons, all_cons]
    exact List.Perm.flatMap_left _ fun a _ => (ih hn.of_cons).map _
  | swap i j is =>
    have hij : j ≠ i := by
      rintro rfl
      simp at hn
    simp only [all_cons, List.map_flatMap, List.map_map, Function.comp_def]
    rw [← Multiset.coe_eq_coe]
    simp only [← Multiset.coe_bind]
    rw [Multiset.bind_bind]
    refine Multiset.bind_congr fun a _ => Multiset.bind_congr fun b _ => ?_
    simp only [Function.update_comm hij]
  | trans h1 _ ih1 ih2 => exact (ih1 hn).trans (ih2 (h1.nodup_iff.mp hn))

omit [DecidableEq ι] in
theorem all_congr_mem {l : List ι} {f g : ι → Bool} (h : ∀ a ∈ l, f a = g a) :
    l.all f = l.all g := by
  rw [Bool.eq_iff_iff, List.all_eq_true, List.all_eq_true]
  exact forall₂_congr fun a ha => by rw [h a ha]

/-- Restricting the lists restricts the choices. -/
theorem all_filter (q : ι → α → Bool) {is : List ι} (hn : is.Nodup) :
    all base (fun i => (dom i).filter (q i)) is =
      (all base dom is).filter fun e => is.all fun i => q i (e i) := by
  induction is with
  | nil => simp [all]
  | cons i is ih =>
    have hi : i ∉ is := (List.nodup_cons.mp hn).1
    rw [all_cons, all_cons, List.filter_flatMap]
    have hkeep : ∀ (a : α) (e : ι → α),
        (is.all fun j => q j (Function.update e i a j)) = is.all fun j => q j (e j) := by
      intro a e
      refine all_congr_mem fun j hj => ?_
      rw [Function.update_of_ne (ne_of_mem_of_not_mem hj hi)]
    simp only [List.filter_map, Function.comp_def, List.all_cons, Function.update_self, hkeep,
      ih (List.nodup_cons.mp hn).2]
    induction dom i with
    | nil => rfl
    | cons a as iha =>
      by_cases ha : q i a = true
      · simp [ha, iha]
      · simp [ha, iha]

/-- Renumbering the indices renumbers the choices. -/
theorem all_map {κ : Type} [DecidableEq κ] {σ : κ → ι} (hσ : Function.Injective σ) (is : List κ) :
    (all base dom (is.map σ)).map (· ∘ σ) = all (base ∘ σ) (dom ∘ σ) is := by
  induction is with
  | nil => rfl
  | cons i is ih =>
    rw [List.map_cons, all_cons, all_cons, ← ih, List.map_flatMap]
    apply List.flatMap_congr
    intro a _
    rw [List.map_map, List.map_map]
    apply List.map_congr_left
    intro e _
    exact Function.update_comp_eq_of_injective e hσ i a

/-- Joining the choices for `is`, restricted by `p` and laid out by `u`, with the list of one more
index gives the choices for both. -/
theorem joinBy_all {γ δ : Type} {f : α → γ → δ} {c : α → γ → Bool} {i : ι} {is : List ι}
    {p q : (ι → α) → Bool} {u : (ι → α) → γ} {w : (ι → α) → δ}
    (hw : ∀ a ∈ dom i, ∀ e ∈ all base dom is, w (Function.update e i a) = f a (u e))
    (hq : ∀ a ∈ dom i, ∀ e ∈ all base dom is,
      q (Function.update e i a) = (p e && c a (u e))) :
    Pairs.joinBy f c (dom i) (((all base dom is).filter p).map u) =
      ((all base dom (i :: is)).filter q).map w := by
  rw [Pairs.joinBy, all_cons, List.filter_flatMap, List.map_flatMap]
  apply List.flatMap_congr
  intro a ha
  rw [List.filter_map, List.filter_filter, List.map_map, List.filter_map, List.map_map]
  have hfilter : (all base dom is).filter (fun e => ((c a) ∘ u) e && p e) =
      (all base dom is).filter (q ∘ fun e => Function.update e i a) := by
    apply List.filter_congr
    intro e he
    simp only [Function.comp, hq a ha e he, Bool.and_comm]
  rw [hfilter]
  apply List.map_congr_left
  intro e he
  exact (hw a ha e (List.mem_of_mem_filter he)).symm

end Assignment

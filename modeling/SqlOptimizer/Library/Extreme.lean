import Mathlib.Data.List.Induction
import Mathlib.Order.Lattice

/-! The first of the foremost elements of a list, found by keeping one element and replacing it when
a later one comes strictly before it. -/

namespace Extreme

variable {α : Type} (before : α → α → Bool)

/-- The kept element after one more. -/
def keep (kept : Option α) (a : α) : Option α :=
  match kept with
  | none => some a
  | some m => if before a m then some a else some m

def extreme (l : List α) : Option α := l.foldl (keep before) none

variable {before}

theorem foldl_keep_some (l : List α) (m : α) : ∃ m', l.foldl (keep before) (some m) = some m' := by
  induction l generalizing m with
  | nil => exact ⟨m, rfl⟩
  | cons a l ih =>
    simp only [List.foldl_cons, keep]
    split
    · exact ih a
    · exact ih m

theorem extreme_eq_none {l : List α} : extreme before l = none ↔ l = [] := by
  cases l with
  | nil => simp [extreme]
  | cons a l =>
    obtain ⟨m, hm⟩ := @foldl_keep_some _ before l a
    simp [extreme, keep, hm]

theorem extreme_mem {l : List α} {m : α} (h : extreme before l = some m) : m ∈ l := by
  have hfold : ∀ (l : List α) (k m : α), l.foldl (keep before) (some k) = some m →
      m = k ∨ m ∈ l := by
    intro l
    induction l with
    | nil =>
      intro k m h
      simp only [List.foldl_nil, Option.some.injEq] at h
      exact .inl h.symm
    | cons a l ih =>
      intro k m h
      simp only [List.foldl_cons, keep] at h
      split at h
      · rcases ih a m h with rfl | hm
        · simp
        · simp [hm]
      · rcases ih k m h with rfl | hm
        · simp
        · simp [hm]
  cases l with
  | nil => cases h
  | cons a l =>
    rcases hfold l a m h with rfl | hm
    · simp
    · simp [hm]

/-- Coming before and not coming before are both transitive on `l`: a strict weak order. -/
def Ordered (before : α → α → Bool) (l : List α) : Prop :=
  ∀ a ∈ l, ∀ b ∈ l, ∀ c ∈ l,
    (before a b = true → before b c = true → before a c = true) ∧
      (before a b = false → before b c = false → before a c = false)

theorem Ordered.of_subset {l l' : List α} (h : Ordered before l') (hsub : l ⊆ l') :
    Ordered before l :=
  fun a ha b hb c hc => h a (hsub ha) b (hsub hb) c (hsub hc)

theorem Ordered.flip {l : List α} (h : Ordered before l) :
    Ordered (fun a b => before b a) l :=
  fun a ha b hb c hc => ⟨fun h1 h2 => (h c hc b hb a ha).1 h2 h1,
    fun h1 h2 => (h c hc b hb a ha).2 h2 h1⟩

/-- The order of a key, the greatest first. -/
theorem ordered_key {K : Type} [LinearOrder K] (key : α → K) (l : List α) :
    Ordered (fun a b => decide (key b < key a)) l := by
  intro a _ b _ c _
  simp only [decide_eq_true_eq, decide_eq_false_iff_not, not_lt]
  exact ⟨fun hab hbc => lt_trans hbc hab, fun hab hbc => le_trans hab hbc⟩

/-- It comes strictly before all elements in front of it, and none behind it comes before it. -/
theorem extreme_split {l : List α} (h : Ordered before l) {m : α} (hm : extreme before l = some m) :
    ∃ l1 l2, l = l1 ++ m :: l2 ∧ (∀ a ∈ l1, before m a = true) ∧ ∀ a ∈ l2, before a m = false := by
  induction l using List.reverseRecOn generalizing m with
  | nil => cases hm
  | append_singleton l a ih =>
    have hcat : extreme before (l ++ [a]) = keep before (extreme before l) a := by simp [extreme]
    rw [hcat] at hm
    rcases hl : extreme before l with _ | m'
    · rw [hl] at hm
      cases hm
      rw [extreme_eq_none.mp hl]
      exact ⟨[], [], rfl, by simp, by simp⟩
    · obtain ⟨l1, l2, rfl, h1, h2⟩ := ih (h.of_subset (List.subset_append_left l [a])) hl
      rw [hl, keep] at hm
      split at hm
      case isTrue hbefore =>
        cases hm
        refine ⟨l1 ++ m' :: l2, [], rfl, fun x hx => ?_, by simp⟩
        have hord := h a (by simp) m' (by simp) x (List.mem_append_left _ hx)
        rcases List.mem_append.mp hx with hx | hx
        · exact hord.1 hbefore (h1 x hx)
        rcases List.mem_cons.mp hx with rfl | hx
        · exact hbefore
        · by_contra hnot
          have hback := (h a (by simp) x (by simp [hx]) m' (by simp)).2 (by simpa using hnot) (h2 x hx)
          rw [hbefore] at hback
          cases hback
      case isFalse hbefore =>
        cases hm
        refine ⟨l1, l2 ++ [a], by simp, h1, fun x hx => ?_⟩
        rcases List.mem_append.mp hx with hx | hx
        · exact h2 x hx
        · rw [List.mem_singleton.mp hx]
          simpa using hbefore

/-- The foremost element does not depend on the order, if no two are level. -/
theorem extreme_perm {l l' : List α} (h : Ordered before l) (hperm : l.Perm l')
    (hirrefl : ∀ a ∈ l, before a a = false)
    (hlevel : ∀ a ∈ l, ∀ b ∈ l, before a b = false → before b a = false → a = b) :
    extreme before l = extreme before l' := by
  have hfirst : ∀ {l' : List α}, l.Perm l' → ∀ {m : α}, extreme before l' = some m →
      ∀ a ∈ l, before a m = false := by
    intro l' hperm m hm a ha
    obtain ⟨l1, l2, rfl, h1, h2⟩ := extreme_split (h.of_subset hperm.symm.subset) hm
    rcases List.mem_append.mp (hperm.mem_iff.mp ha) with ha' | ha'
    · by_contra hbefore
      have hm' : m ∈ l := hperm.mem_iff.mpr (by simp)
      have hback := (h m hm' a ha m hm').1 (h1 a ha') (by simpa using hbefore)
      rw [hirrefl m hm'] at hback
      cases hback
    rcases List.mem_cons.mp ha' with rfl | ha'
    · exact hirrefl a ha
    · exact h2 a ha'
  rcases hm : extreme before l with _ | m
  · rw [extreme_eq_none.mp hm] at hperm
    rw [List.nil_perm.mp hperm]
    rfl
  rcases hm' : extreme before l' with _ | m'
  · rw [extreme_eq_none.mp hm'] at hperm
    rw [List.perm_nil.mp hperm] at hm
    cases hm
  · have hmem := extreme_mem hm
    have hmem' := hperm.mem_iff.mpr (extreme_mem hm')
    rw [hlevel m hmem m' hmem' (hfirst hperm hm' m hmem) (hfirst (.refl l) hm m' hmem')]

/-- The foremost element of a longer list is that of the foremost ones of its parts. -/
theorem keep_assoc {l : List α} (h : Ordered before l) {a b c : α} (ha : a ∈ l) (hb : b ∈ l)
    (hc : c ∈ l) :
    keep before (keep before (some a) b) c =
      (keep before (some b) c).bind fun m => keep before (some a) m := by
  simp only [keep]
  cases hba : before b a with
  | true =>
    cases hcb : before c b with
    | true => simp [hcb, (h c hc b hb a ha).1 hcb hba]
    | false => simp [hcb, hba]
  | false =>
    cases hcb : before c b with
    | true => simp
    | false => simp [hba, (h c hc b hb a ha).2 hcb hba]

theorem foldl_keep {l l' : List α} (h : Ordered before l') (hsub : l ⊆ l') {a : α} (ha : a ∈ l') :
    l.foldl (keep before) (some a) =
      match extreme before l with
      | none => some a
      | some m => keep before (some a) m := by
  induction l using List.reverseRecOn with
  | nil => rfl
  | append_singleton l b ih =>
    have hl : l ⊆ l' := fun x hx => hsub (by simp [hx])
    have hb : b ∈ l' := hsub (by simp)
    have hcat : extreme before (l ++ [b]) = keep before (extreme before l) b := by
      simp [extreme]
    rw [List.foldl_append, List.foldl_cons, List.foldl_nil, ih hl, hcat]
    cases hm : extreme before l with
    | none => rfl
    | some m =>
      have hmem := hl (extreme_mem hm)
      simp only
      rw [keep_assoc h ha hmem hb]
      simp only [keep]
      split <;> rfl

theorem extreme_append {l l' : List α} (h : Ordered before (l ++ l')) :
    extreme before (l ++ l') =
      match extreme before l, extreme before l' with
      | none, x => x
      | some m, none => some m
      | some m, some m' => keep before (some m) m' := by
  rw [extreme, List.foldl_append, ← extreme]
  cases hm : extreme before l with
  | none => rfl
  | some m =>
    have hmem := extreme_mem hm
    rw [foldl_keep h (List.subset_append_right l l') (List.mem_append_left l' hmem)]
    cases extreme before l' <;> rfl

/-- The foremost of the foremost elements of some lists. -/
theorem extreme_flatten {ls : List (List α)} (h : Ordered before ls.flatten) :
    extreme before (ls.filterMap (extreme before)) = extreme before ls.flatten := by
  induction ls with
  | nil => rfl
  | cons l ls ih =>
    rw [List.flatten_cons] at h ⊢
    have ih := ih (h.of_subset (List.subset_append_right l _))
    rw [extreme_append h, ← ih]
    cases hm : extreme before l with
    | none => simp [hm]
    | some m =>
      rw [List.filterMap_cons_some hm]
      have hone : extreme before [m] = some m := rfl
      have hsub : m :: ls.filterMap (extreme before) ⊆ l ++ ls.flatten := by
        intro x hx
        rcases List.mem_cons.mp hx with rfl | hx
        · exact List.mem_append_left _ (extreme_mem hm)
        · obtain ⟨l', hl', hx⟩ := List.mem_filterMap.mp hx
          exact List.mem_append_right _ (List.mem_flatten.mpr ⟨l', hl', extreme_mem hx⟩)
      rw [← List.singleton_append, extreme_append (h.of_subset hsub), hone]

/-! ### Elements that come neither before nor after another -/

section Inert

variable {inert : α → Bool}

/-- What counts of a list: an inert element at its head hides the rest. -/
def heard (inert : α → Bool) : List α → List α
  | [] => []
  | a :: l => if inert a then [a] else a :: l

theorem heard_eq_self {l : List α} (h : ∀ a ∈ l, inert a = false) : heard inert l = l := by
  cases l with
  | nil => rfl
  | cons a l => simp [heard, h a (by simp)]

theorem heard_eq_nil {l : List α} : heard inert l = [] ↔ l = [] := by
  cases l with
  | nil => exact Iff.rfl
  | cons a l =>
    rw [heard]
    split <;> simp

/-- An inert element stays once it is kept. -/
theorem extreme_cons_inert (h : ∀ a, inert a = true → ∀ x, before x a = false) {a : α}
    (ha : inert a = true) (l : List α) : extreme before (a :: l) = some a := by
  have hfold : l.foldl (keep before) (some a) = some a := by
    induction l with
    | nil => rfl
    | cons b l ih => simpa [keep, h a ha] using ih
  exact hfold

theorem foldl_keep_live (h : ∀ a, inert a = true → ∀ x, before a x = false) (l : List α) (m : α) :
    l.foldl (keep before) (some m) =
      (l.filter fun a => !inert a).foldl (keep before) (some m) := by
  induction l generalizing m with
  | nil => rfl
  | cons a l ih =>
    cases ha : inert a with
    | true => simpa [ha, keep, h a ha] using ih m
    | false =>
      simp only [List.filter_cons, ha, Bool.not_false, if_true, List.foldl_cons, keep]
      split
      · exact ih a
      · exact ih m

/-- The inert elements behind another element do not count. -/
theorem extreme_cons_live (h : ∀ a, inert a = true → ∀ x, before a x = false) {a : α}
    (ha : inert a = false) (l : List α) :
    extreme before (a :: l) = extreme before ((a :: l).filter fun a => !inert a) := by
  simpa [extreme, ha, keep] using foldl_keep_live h l a

theorem exists_extreme_cons (a : α) (l : List α) : ∃ m, extreme before (a :: l) = some m :=
  Option.ne_none_iff_exists'.mp fun hnone => List.cons_ne_nil a l (extreme_eq_none.mp hnone)

theorem inert_of_extreme_cons (h : ∀ a, inert a = true → ∀ x, before a x = false) {a m : α}
    (ha : inert a = false) {l : List α} (hm : extreme before (a :: l) = some m) :
    inert m = false := by
  rw [extreme_cons_live h ha] at hm
  simpa using (List.mem_filter.mp (extreme_mem hm)).2

theorem heard_subset (l : List α) : heard inert l ⊆ l := by
  cases l with
  | nil => exact List.Subset.refl _
  | cons a l =>
    cases ha : inert a with
    | true => simp [heard, ha]
    | false => simp [heard, ha]

variable (h : ∀ a, inert a = true → ∀ x, before x a = false ∧ before a x = false) {bot : α}
  (hbot : inert bot = true)

include h hbot

/-- What a list reports, if that is not inert, is the foremost of what is heard of it. -/
theorem live_report (l : List α) : ([(extreme before l).getD bot].filter fun a => !inert a) =
    (extreme before ((heard inert l).filter fun a => !inert a)).toList := by
  cases l with
  | nil => simp [extreme, heard, hbot]
  | cons a l =>
    cases ha : inert a with
    | true =>
      rw [extreme_cons_inert (fun a ha x => (h a ha x).1) ha]
      simp [heard, ha, extreme]
    | false =>
      have hbefore := fun a ha x => (h a ha x).2
      obtain ⟨m, hm⟩ := @exists_extreme_cons α before a l
      have hmlive := inert_of_extreme_cons hbefore ha hm
      have hlive := hm
      rw [extreme_cons_live hbefore ha] at hlive
      rw [heard, if_neg (by simp [ha]), hlive, hm]
      simp [hmlive]

theorem live_reports (ls : List (List α)) :
    ((ls.map fun l => (extreme before l).getD bot).filter fun a => !inert a) =
      (ls.map fun l => (heard inert l).filter fun a => !inert a).filterMap (extreme before) := by
  induction ls with
  | nil => rfl
  | cons l ls ih =>
    rw [List.map_cons, ← List.singleton_append, List.filter_append, live_report h hbot, ih,
      List.map_cons]
    cases hl : extreme before ((heard inert l).filter fun a => !inert a) with
    | none => rw [List.filterMap_cons_none hl]; rfl
    | some m => rw [List.filterMap_cons_some hl]; rfl

/-- The foremost of the foremost elements, where an empty list stands for `bot`: it is `bot` when the
first list is empty, and a list with an inert head is heard with that alone. -/
theorem extreme_reported [DecidableEq α] {ls : List (List α)}
    (hord : Ordered before (ls.flatten.filter fun a => !inert a)) :
    (extreme before (ls.map fun l => (extreme before l).getD bot)).getD bot =
      if ls.head? = some [] then bot else (extreme before (ls.flatMap (heard inert))).getD bot := by
  have hafter := fun a ha x => (h a ha x).1
  have hbefore := fun a ha x => (h a ha x).2
  rcases ls with _ | ⟨_ | ⟨a, l⟩, ls⟩
  · rfl
  · rw [List.map_cons, extreme_cons_inert hafter (by simpa [extreme] using hbot)]
    rfl
  rw [if_neg (by simp)]
  cases ha : inert a with
  | true =>
    rw [List.map_cons, extreme_cons_inert hafter ha, Option.getD_some,
      extreme_cons_inert hafter ha, List.flatMap_cons, heard, if_pos ha, List.singleton_append,
      extreme_cons_inert hafter ha]
  | false =>
    -- both are the foremost of the elements that are heard and are not inert
    have hsub : (((a :: l) :: ls).flatMap (heard inert)).filter (fun a => !inert a) ⊆
        (((a :: l) :: ls).flatten.filter fun a => !inert a) := by
      refine List.filter_subset _ fun x hx => ?_
      obtain ⟨l', hl', hx⟩ := List.mem_flatMap.mp hx
      exact List.mem_flatten.mpr ⟨l', hl', heard_subset l' hx⟩
    obtain ⟨m, hm⟩ := @exists_extreme_cons α before a l
    have hleft : extreme before (((a :: l) :: ls).map fun l => (extreme before l).getD bot) =
        extreme before ((((a :: l) :: ls).map fun l => (extreme before l).getD bot).filter
          fun a => !inert a) := by
      rw [List.map_cons, hm]
      exact extreme_cons_live hbefore (inert_of_extreme_cons hbefore ha hm) _
    have hright : extreme before (((a :: l) :: ls).flatMap (heard inert)) =
        extreme before ((((a :: l) :: ls).flatMap (heard inert)).filter fun a => !inert a) := by
      rw [List.flatMap_cons, heard, if_neg (by simp [ha]), List.cons_append]
      exact extreme_cons_live hbefore ha _
    rw [List.filter_flatMap] at hsub hright
    rw [hleft, hright, live_reports h hbot, List.flatMap_def,
      extreme_flatten (hord.of_subset (by rwa [← List.flatMap_def]))]

end Inert

/-! ### Picking one of two -/

/-- What is kept along a list when one of two is picked at each step, where some elements stand in
no order and are never kept. -/
theorem foldl_pick (valid : α → Prop) (rel : α → α → Prop) (hrefl : ∀ x, valid x → rel x x)
    (htrans : ∀ {x y z}, rel x y → rel y z → rel x z) (pick : α → α → α)
    (hpick : ∀ x d, valid x → (pick x d = x ∨ pick x d = d) ∧ valid (pick x d) ∧
      rel x (pick x d) ∧ (valid d → rel d (pick x d)))
    (rest : List α) {first : α} (hfirst : valid first) :
    rest.foldl pick first ∈ first :: rest ∧ valid (rest.foldl pick first) ∧
      ∀ d ∈ first :: rest, valid d → rel d (rest.foldl pick first) := by
  induction rest generalizing first with
  | nil => exact ⟨List.mem_cons_self, hfirst, by simp [hrefl first hfirst]⟩
  | cons d rest ih =>
    obtain ⟨hor, hvalid, hleft, hright⟩ := hpick first d hfirst
    obtain ⟨hmem, hkept, hall⟩ := ih hvalid
    have hlast := hall _ List.mem_cons_self hvalid
    refine ⟨?_, hkept, ?_⟩
    · rw [List.foldl_cons]
      rcases List.mem_cons.mp hmem with hpicked | hmem
      · rcases hor with hor | hor <;> rw [hpicked, hor] <;> simp
      · simp [hmem]
    · intro x hx hxvalid
      rcases List.mem_cons.mp hx with rfl | hx
      · exact htrans hleft hlast
      rcases List.mem_cons.mp hx with rfl | hx
      · exact htrans (hright hxvalid) hlast
      · exact hall x (List.mem_cons_of_mem _ hx) hxvalid

end Extreme

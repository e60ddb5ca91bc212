import Mathlib.Data.List.Perm.Basic
import Mathlib.Data.Multiset.Bind

/-! Joins of two lists as bags of pairs: which pairs of a left and a right element are combined. -/

namespace Pairs

variable {α β γ : Type}

/-- The combinations of the pairs that `p` selects, left element by left element. -/
def joinBy (f : α → β → γ) (p : α → β → Bool) (l : List α) (r : List β) : List γ :=
  l.flatMap fun a => (r.filter (p a)).map (f a)

/-- `f` gives different results to different pairs of elements of `l` and `r`. -/
def Separates (f : α → β → γ) (l : List α) (r : List β) : Prop :=
  ∀ a ∈ l, ∀ b ∈ r, ∀ a' ∈ l, ∀ b' ∈ r, f a b = f a' b' → a = a' ∧ b = b'

theorem mem_joinBy {f : α → β → γ} {p : α → β → Bool} {l : List α} {r : List β} {c : γ} :
    c ∈ joinBy f p l r ↔ ∃ a ∈ l, ∃ b ∈ r, p a b = true ∧ f a b = c := by
  simp [joinBy, and_assoc]

theorem map_joinBy {δ : Type} (g : γ → δ) (f : α → β → γ) (p : α → β → Bool) (l : List α)
    (r : List β) : (joinBy f p l r).map g = joinBy (fun a b => g (f a b)) p l r := by
  simp [joinBy, List.map_flatMap, List.map_map, Function.comp_def]

theorem joinBy_map {α' β' : Type} (f : α → β → γ) (p : α → β → Bool) (u : α' → α) (v : β' → β)
    (l : List α') (r : List β') : joinBy f p (l.map u) (r.map v) =
      joinBy (fun a b => f (u a) (v b)) (fun a b => p (u a) (v b)) l r := by
  simp [joinBy, List.flatMap_map, List.filter_map, Function.comp_def]

theorem joinBy_congr {f : α → β → γ} {p q : α → β → Bool} {l : List α} {r : List β}
    (h : ∀ a ∈ l, ∀ b ∈ r, p a b = q a b) : joinBy f p l r = joinBy f q l r := by
  apply List.flatMap_congr
  intro a ha
  rw [List.filter_congr (h a ha)]

/-- When combinations identify their pairs, two joins are the same bag exactly when they select the
same pairs. -/
theorem joinBy_perm_iff {f : α → β → γ} {p q : α → β → Bool} {l : List α} {r : List β}
    (hf : Separates f l r) :
    (joinBy f p l r).Perm (joinBy f q l r) ↔ ∀ a ∈ l, ∀ b ∈ r, p a b = q a b := by
  constructor
  · intro h a ha b hb
    have selected : ∀ s : α → β → Bool, f a b ∈ joinBy f s l r ↔ s a b = true := by
      intro s
      rw [mem_joinBy]
      constructor
      · rintro ⟨a', ha', b', hb', hs, heq⟩
        obtain ⟨rfl, rfl⟩ := hf a' ha' b' hb' a ha b hb heq
        exact hs
      · exact fun hs => ⟨a, ha, b, hb, hs, rfl⟩
    exact Bool.eq_iff_iff.mpr ((selected p).symm.trans (h.mem_iff.trans (selected q)))
  · intro h
    rw [joinBy_congr h]

theorem separates_append {l r : List (List γ)} {n : Nat} (hl : ∀ a ∈ l, a.length = n) :
    Separates (· ++ ·) l r :=
  fun a ha _ _ a' ha' _ _ h => List.append_inj h ((hl a ha).trans (hl a' ha').symm)

theorem joinBy_perm_left (f : α → β → γ) (p : α → β → Bool) {l l' : List α} (r : List β)
    (h : l.Perm l') : (joinBy f p l r).Perm (joinBy f p l' r) :=
  h.flatMap_right _

theorem joinBy_perm_right (f : α → β → γ) (p : α → β → Bool) (l : List α) {r r' : List β}
    (h : r.Perm r') : (joinBy f p l r).Perm (joinBy f p l r') :=
  List.Perm.flatMap_left l fun a _ => (h.filter (p a)).map (f a)

/-- A join may be enumerated from either side. -/
theorem joinBy_swap (f : α → β → γ) (p : α → β → Bool) (l : List α) (r : List β) :
    (joinBy f p l r).Perm (joinBy (fun b a => f a b) (fun b a => p a b) r l) := by
  have expand : ∀ {δ : Type} (q : δ → Bool) (g : δ → γ) (ds : List δ),
      (ds.filter q).map g = ds.flatMap fun d => if q d then [g d] else [] := by
    intro δ q g ds
    induction ds with
    | nil => rfl
    | cons d ds ih => by_cases hd : q d <;> simp [hd, ih]
  simp only [joinBy, expand]
  rw [← Multiset.coe_eq_coe]
  simp only [← Multiset.coe_bind]
  exact Multiset.bind_bind _ _

/-- The right side in parts. -/
theorem flatMap_joinBy_right_perm {ι : Type} (f : α → β → γ) (p : α → β → Bool) (l : List α)
    (is : List ι) (r : ι → List β) :
    (is.flatMap fun i => joinBy f p l (r i)).Perm (joinBy f p l (is.flatMap r)) := by
  calc (is.flatMap fun i => joinBy f p l (r i)).Perm _ :=
        List.Perm.flatMap_left is fun i _ => joinBy_swap f p l (r i)
    _ = joinBy (fun b a => f a b) (fun b a => p a b) (is.flatMap r) l := by
        simp only [joinBy, List.flatMap_assoc]
    List.Perm _ (joinBy f p l (is.flatMap r)) := (joinBy_swap f p l (is.flatMap r)).symm

section Tagged

variable [DecidableEq α] [DecidableEq γ]

theorem count_flatMap_tagged {l : List α} {g : α → List γ} (tag : γ → α)
    (hg : ∀ a ∈ l, ∀ c ∈ g a, tag c = a) (c : γ) :
    (l.flatMap g).count c = l.count (tag c) * (g (tag c)).count c := by
  induction l with
  | nil => simp
  | cons a l ih =>
    rw [List.flatMap_cons, List.count_append, ih fun a' ha' => hg a' (by simp [ha']),
      List.count_cons]
    by_cases ha : a = tag c
    · simp [← ha, Nat.add_mul, Nat.add_comm]
    · have hc : c ∉ g a := fun hc => ha (hg a (by simp) c hc).symm
      simp [ha, List.count_eq_zero_of_not_mem hc]

/-- When each result tells the element it comes from, two flat maps are the same bag exactly when
they agree on each element. -/
theorem flatMap_perm_iff {l : List α} {g h : α → List γ} (tag : γ → α)
    (hg : ∀ a ∈ l, ∀ c ∈ g a, tag c = a) (hh : ∀ a ∈ l, ∀ c ∈ h a, tag c = a) :
    (l.flatMap g).Perm (l.flatMap h) ↔ ∀ a ∈ l, (g a).Perm (h a) := by
  refine ⟨fun hp a ha => ?_, List.Perm.flatMap_left l⟩
  rw [List.perm_iff_count]
  intro c
  by_cases hc : tag c = a
  · have hcount := hp.count_eq c
    rw [count_flatMap_tagged tag hg, count_flatMap_tagged tag hh, hc] at hcount
    exact Nat.eq_of_mul_eq_mul_left (List.count_pos_iff.mpr ha) hcount
  · rw [List.count_eq_zero_of_not_mem fun h => hc (hg a ha c h),
      List.count_eq_zero_of_not_mem fun h => hc (hh a ha c h)]

end Tagged

/-! ### Outer joins -/

/-- The matching combinations and, for each left element without a match, its padding. -/
def leftOuter (f : α → β → γ) (pad : α → γ) (m : α → β → Bool) (l : List α) (r : List β) :
    List γ :=
  joinBy f m l r ++ (l.filter fun a => !r.any (m a)).map pad

/-- The matching combinations and, for each right element without a match, its padding. -/
def rightOuter (f : α → β → γ) (pad : β → γ) (m : α → β → Bool) (l : List α) (r : List β) :
    List γ :=
  joinBy f m l r ++ (r.filter fun b => !l.any (m · b)).map pad

theorem rightOuter_perm (f : α → β → γ) (pad : β → γ) (m : α → β → Bool) (l : List α)
    (r : List β) :
    (rightOuter f pad m l r).Perm (leftOuter (fun b a => f a b) pad (fun b a => m a b) r l) :=
  (joinBy_swap f m l r).append_right _

/-- The left outer join, left element by left element. -/
theorem leftOuter_perm (f : α → β → γ) (pad : α → γ) (m : α → β → Bool) (l : List α)
    (r : List β) :
    (leftOuter f pad m l r).Perm (l.flatMap fun a =>
      if r.any (m a) then (r.filter (m a)).map (f a) else [pad a]) := by
  have hpads : (l.filter fun a => !r.any (m a)).map pad =
      l.flatMap fun a => if r.any (m a) then [] else [pad a] := by
    induction l with
    | nil => rfl
    | cons a l ih =>
      rw [List.flatMap_cons, ← ih, List.filter_cons]
      cases r.any (m a) <;> rfl
  rw [leftOuter, hpads]
  refine (List.flatMap_append_perm l _ _).trans (List.Perm.flatMap_left l fun a _ => ?_)
  by_cases ha : r.any (m a) = true
  · simp [ha]
  · have hnone : r.filter (m a) = [] := by simpa using ha
    simp [ha, hnone]

/-- A selection `p` gives the left outer join of `m` exactly when, for each left element, it selects
the matches if there are any and else one element that combines to the padding. -/
theorem joinBy_perm_leftOuter_iff [DecidableEq α] [DecidableEq β] [DecidableEq γ] {f : α → β → γ}
    {pad : β} {p m : α → β → Bool} {l : List α} {r : List β} (tag : γ → α)
    (ht : ∀ a ∈ l, ∀ b ∈ pad :: r, tag (f a b) = a)
    (hf : ∀ a ∈ l, Function.Injective (f a)) :
    (joinBy f p l r).Perm (leftOuter f (f · pad) m l r) ↔
      ∀ a ∈ l, if ∃ b ∈ r, m a b = true then ∀ b ∈ r, p a b = m a b
        else r.filter (p a) = [pad] := by
  rw [(leftOuter_perm f _ m l r).congr_right, joinBy, flatMap_perm_iff tag]
  · refine forall₂_congr fun a ha => ?_
    by_cases hm : ∃ b ∈ r, m a b = true
    · rw [if_pos hm, if_pos (List.any_eq_true.mpr hm), List.map_perm_map_iff (hf a ha)]
      constructor
      · intro h b hb
        have hmem := h.mem_iff (a := b)
        simp only [List.mem_filter, hb, true_and] at hmem
        exact Bool.eq_iff_iff.mpr hmem
      · intro h
        rw [List.filter_congr h]
    · rw [if_neg hm, if_neg (fun h => hm (List.any_eq_true.mp h)), List.perm_singleton,
        ← List.map_singleton (f := f a), (List.map_injective_iff.mpr (hf a ha)).eq_iff]
  · intro a ha c hc
    obtain ⟨b, hb, rfl⟩ := List.mem_map.mp hc
    exact ht a ha b (List.mem_cons_of_mem _ (List.mem_filter.mp hb).1)
  · intro a ha c hc
    split at hc
    · obtain ⟨b, hb, rfl⟩ := List.mem_map.mp hc
      exact ht a ha b (List.mem_cons_of_mem _ (List.mem_filter.mp hb).1)
    · rw [List.mem_singleton.mp hc]
      exact ht a ha pad List.mem_cons_self

/-! ### Selections below a join -/

theorem filter_joinBy (f : α → β → γ) (p : α → β → Bool) (q : γ → Bool) (l : List α)
    (r : List β) :
    (joinBy f p l r).filter q = joinBy f (fun a b => p a b && q (f a b)) l r := by
  simp only [joinBy, List.filter_flatMap, List.filter_map, List.filter_filter, Function.comp_def,
    Bool.and_comm]

theorem joinBy_filter_sides (f : α → β → γ) (p : α → β → Bool) (pl : α → Bool) (pr : β → Bool)
    (l : List α) (r : List β) :
    joinBy f p (l.filter pl) (r.filter pr) =
      joinBy f (fun a b => p a b && (pl a && pr b)) l r := by
  simp only [joinBy, List.filter_filter]
  induction l with
  | nil => rfl
  | cons a l ih =>
    by_cases ha : pl a = true
    · simp [ha, ih, List.flatMap_cons]
    · simp [ha, ih, List.flatMap_cons]

section Push

variable {f : α → β → γ} {m : α → β → Bool} {q q' : γ → Bool} {pl : α → Bool} {pr : β → Bool}
  {l : List α} {r : List β}

/-- A selection that splits into parts for the two sides and a rest may be made below the join. -/
theorem filter_joinBy_push
    (hq : ∀ a ∈ l, ∀ b ∈ r, q (f a b) = (pl a && pr b && q' (f a b))) :
    (joinBy f m l r).filter q = (joinBy f m (l.filter pl) (r.filter pr)).filter q' := by
  rw [joinBy_filter_sides, filter_joinBy, filter_joinBy]
  apply joinBy_congr
  intro a ha b hb
  rw [hq a ha b hb]
  simp only [Bool.and_assoc]

/-- The padding that a selection keeps, among the elements that have no match. -/
theorem filter_pads (pad : α → γ) (u : α → Bool) (q : γ → Bool) (l : List α) :
    ((l.filter u).map pad).filter q = (l.filter fun a => u a && q (pad a)).map pad := by
  simp only [List.filter_map, List.filter_filter, Function.comp_def, Bool.and_comm]

/-- The padding that stays when the selection is made below the join. -/
def padsKept (pad : α → γ) (m : α → β → Bool) (pl : α → Bool) (pr : β → Bool) (n : Bool)
    (q' : γ → Bool) (l : List α) (r : List β) : Prop :=
  ∀ a ∈ l, pl a = true → q' (pad a) = true →
    (∃ b ∈ r, m a b = true ∧ pr b = true) ∨ ((∀ b ∈ r, m a b = false) ∧ n = true)

/-- A smaller selection gives the same bag exactly when it is not smaller. -/
theorem filter_map_perm_iff {p p' : α → Bool} {g : α → γ} (himp : ∀ a ∈ l, p a = true → p' a = true) :
    ((l.filter p).map g).Perm ((l.filter p').map g) ↔ ∀ a ∈ l, p' a = true → p a = true := by
  constructor
  · intro hperm
    have hlen := hperm.length_eq
    rw [List.length_map, List.length_map] at hlen
    clear hperm
    induction l with
    | nil => simp
    | cons a l ih =>
      have hle : (l.filter p).length ≤ (l.filter p').length := by
        rw [← List.countP_eq_length_filter, ← List.countP_eq_length_filter]
        exact List.countP_mono_left fun b hb => himp b (by simp [hb])
      have hrest := ih fun b hb => himp b (by simp [hb])
      intro b hb hp'
      simp only [List.filter_cons] at hlen
      cases hpa : p a with
      | true =>
        rw [hpa, himp a (by simp) hpa] at hlen
        rcases List.mem_cons.mp hb with rfl | hb
        · exact hpa
        · exact hrest (by simpa using hlen) b hb hp'
      | false =>
        cases hpa' : p' a with
        | true =>
          simp only [hpa, hpa', if_true, Bool.false_eq_true, if_false, List.length_cons] at hlen
          omega
        | false =>
          rw [hpa, hpa'] at hlen
          rcases List.mem_cons.mp hb with rfl | hb
          · rw [hpa'] at hp'
            cases hp'
          · exact hrest (by simpa using hlen) b hb hp'
  · intro hback
    rw [List.filter_congr fun a ha => Bool.eq_iff_iff.mpr ⟨himp a ha, hback a ha⟩]

section Pads

variable {pad : α → γ} {n : Bool}

/-- The elements whose padding is selected above the join and below it. -/
def paddedAbove (pad : α → γ) (m : α → β → Bool) (q : γ → Bool) (r : List β) (a : α) : Bool :=
  !r.any (m a) && q (pad a)

def paddedBelow (pad : α → γ) (m : α → β → Bool) (pl : α → Bool) (pr : β → Bool) (q' : γ → Bool)
    (r : List β) (a : α) : Bool :=
  (!(r.filter pr).any (m a) && q' (pad a)) && pl a

theorem filter_pads_above : ((l.filter fun a => !r.any (m a)).map pad).filter q =
    (l.filter (paddedAbove pad m q r)).map pad :=
  filter_pads pad _ q l

theorem filter_pads_below :
    (((l.filter pl).filter fun a => !(r.filter pr).any (m a)).map pad).filter q' =
      (l.filter (paddedBelow pad m pl pr q' r)).map pad := by
  rw [filter_pads, List.filter_filter]
  rfl

theorem paddedBelow_of_above (hq : ∀ a ∈ l, q (pad a) = (pl a && n && q' (pad a))) {a : α}
    (ha : a ∈ l) (h : paddedAbove pad m q r a = true) :
    paddedBelow pad m pl pr q' r a = true := by
  simp only [paddedAbove, paddedBelow, hq a ha, Bool.and_eq_true, Bool.not_eq_true',
    List.any_eq_false] at h ⊢
  exact ⟨⟨fun b hb => h.1 b (List.mem_filter.mp hb).1, h.2.2⟩, h.2.1.1⟩

/-- Below the join a selection of the padded side keeps the padding of the elements whose matches it
drops. -/
theorem padsKept_iff (hq : ∀ a ∈ l, q (pad a) = (pl a && n && q' (pad a))) :
    padsKept pad m pl pr n q' l r ↔ ∀ a ∈ l, paddedBelow pad m pl pr q' r a = true →
      paddedAbove pad m q r a = true := by
  refine forall₂_congr fun a ha => ?_
  simp only [paddedAbove, paddedBelow, hq a ha, Bool.and_eq_true, Bool.not_eq_true',
    List.any_eq_false, List.mem_filter]
  constructor
  · rintro h ⟨⟨hnone, hq'⟩, hpl⟩
    rcases h hpl hq' with ⟨b, hb, hm, hpr⟩ | ⟨hno, hn⟩
    · exact absurd hm (hnone b ⟨hb, hpr⟩)
    · exact ⟨fun b hb => by simp [hno b hb], ⟨hpl, hn⟩, hq'⟩
  · intro h hpl hq'
    by_cases hex : ∃ b ∈ r, m a b = true ∧ pr b = true
    · exact .inl hex
    · have hnone : ∀ b, b ∈ r ∧ pr b = true → ¬ m a b = true := fun b hb hm =>
        hex ⟨b, hb.1, hm, hb.2⟩
      obtain ⟨hno, ⟨-, hn⟩, -⟩ := h ⟨⟨hnone, hq'⟩, hpl⟩
      exact .inr ⟨fun b hb => by simpa using hno b hb, hn⟩

theorem pads_eq (hq : ∀ a ∈ l, q (pad a) = (pl a && n && q' (pad a)))
    (h : padsKept pad m pl pr n q' l r) :
    ((l.filter fun a => !r.any (m a)).map pad).filter q =
      (((l.filter pl).filter fun a => !(r.filter pr).any (m a)).map pad).filter q' := by
  rw [filter_pads_below, filter_pads_above]
  congr 1
  exact List.filter_congr fun a ha => Bool.eq_iff_iff.mpr
    ⟨paddedBelow_of_above hq ha, (padsKept_iff hq).mp h a ha⟩

theorem pads_perm_iff (hq : ∀ a ∈ l, q (pad a) = (pl a && n && q' (pad a))) :
    (((l.filter fun a => !r.any (m a)).map pad).filter q).Perm
        ((((l.filter pl).filter fun a => !(r.filter pr).any (m a)).map pad).filter q') ↔
      padsKept pad m pl pr n q' l r := by
  rw [filter_pads_below, filter_pads_above, padsKept_iff hq]
  exact filter_map_perm_iff fun a ha => paddedBelow_of_above hq ha

end Pads

/-- A selection above a left outer join against its parts below it. -/
theorem filter_leftOuter_push {pad : α → γ} {n : Bool}
    (hq : ∀ a ∈ l, ∀ b ∈ r, q (f a b) = (pl a && pr b && q' (f a b)))
    (hpad : ∀ a ∈ l, q (pad a) = (pl a && n && q' (pad a))) :
    (padsKept pad m pl pr n q' l r → (leftOuter f pad m l r).filter q =
        (leftOuter f pad m (l.filter pl) (r.filter pr)).filter q') ∧
      (((leftOuter f pad m l r).filter q).Perm
          ((leftOuter f pad m (l.filter pl) (r.filter pr)).filter q') ↔
        padsKept pad m pl pr n q' l r) := by
  simp only [leftOuter, List.filter_append, filter_joinBy_push hq, List.perm_append_left_iff]
  exact ⟨fun h => by rw [pads_eq hpad h], pads_perm_iff hpad⟩

/-- A selection above a right outer join against its parts below it. -/
theorem filter_rightOuter_push {pad : β → γ} {n : Bool}
    (hq : ∀ a ∈ l, ∀ b ∈ r, q (f a b) = (pl a && pr b && q' (f a b)))
    (hpad : ∀ b ∈ r, q (pad b) = (pr b && n && q' (pad b))) :
    (padsKept pad (fun b a => m a b) pr pl n q' r l → (rightOuter f pad m l r).filter q =
        (rightOuter f pad m (l.filter pl) (r.filter pr)).filter q') ∧
      (((rightOuter f pad m l r).filter q).Perm
          ((rightOuter f pad m (l.filter pl) (r.filter pr)).filter q') ↔
        padsKept pad (fun b a => m a b) pr pl n q' r l) := by
  simp only [rightOuter, List.filter_append, filter_joinBy_push hq, List.perm_append_left_iff]
  exact ⟨fun h => by rw [pads_eq hpad h], pads_perm_iff hpad⟩

end Push

end Pairs

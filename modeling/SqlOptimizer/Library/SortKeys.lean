import Mathlib.Data.Set.Basic

/-! Comparing by a list of sort keys, each ascending or descending.  A value that is not the same as
itself has no place in the order: it is neither the same as a value nor below or above one.  The
comparator that asks `below` for an ascending key and denies it for a descending one is a strict weak
order on a set exactly when such values are harmless there. -/

/-- A strict weak order on a set. -/
structure StrictWeakOn {α : Type*} (S : Set α) (r : α → α → Prop) : Prop where
  irrefl : ∀ a ∈ S, ¬r a a
  asymm : ∀ a ∈ S, ∀ b ∈ S, r a b → ¬r b a
  trans : ∀ a ∈ S, ∀ b ∈ S, ∀ c ∈ S, r a b → r b c → r a c
  incomparable_trans : ∀ a ∈ S, ∀ b ∈ S, ∀ c ∈ S, ¬r a b ∧ ¬r b a → ¬r b c ∧ ¬r c b →
    ¬r a c ∧ ¬r c a

theorem StrictWeakOn.congr {α : Type*} {S : Set α} {r s : α → α → Prop} (hr : StrictWeakOn S r)
    (h : ∀ a ∈ S, ∀ b ∈ S, (r a b ↔ s a b)) : StrictWeakOn S s where
  irrefl a ha := by
    rw [← h a ha a ha]
    exact hr.irrefl a ha
  asymm a ha b hb := by
    rw [← h a ha b hb, ← h b hb a ha]
    exact hr.asymm a ha b hb
  trans a ha b hb c hc := by
    rw [← h a ha b hb, ← h b hb c hc, ← h a ha c hc]
    exact hr.trans a ha b hb c hc
  incomparable_trans a ha b hb c hc := by
    rw [← h a ha b hb, ← h b hb a ha, ← h b hb c hc, ← h c hc b hb, ← h a ha c hc, ← h c hc a ha]
    exact hr.incomparable_trans a ha b hb c hc

theorem StrictWeakOn.subset {α : Type*} {S T : Set α} {r : α → α → Prop} (hr : StrictWeakOn S r)
    (h : ∀ a ∈ T, a ∈ S) : StrictWeakOn T r where
  irrefl a ha := hr.irrefl a (h a ha)
  asymm a ha b hb := hr.asymm a (h a ha) b (h b hb)
  trans a ha b hb c hc := hr.trans a (h a ha) b (h b hb) c (h c hc)
  incomparable_trans a ha b hb c hc := hr.incomparable_trans a (h a ha) b (h b hb) c (h c hc)

/-- The images of values that are in order. -/
theorem StrictWeakOn.image {α β : Type*} {S : Set β} {f : β → α} {r : α → α → Prop}
    (hr : StrictWeakOn S fun a b => r (f a) (f b)) : StrictWeakOn (Set.image f S) r where
  irrefl := by
    rintro _ ⟨a, ha, rfl⟩
    exact hr.irrefl a ha
  asymm := by
    rintro _ ⟨a, ha, rfl⟩ _ ⟨b, hb, rfl⟩
    exact hr.asymm a ha b hb
  trans := by
    rintro _ ⟨a, ha, rfl⟩ _ ⟨b, hb, rfl⟩ _ ⟨c, hc, rfl⟩
    exact hr.trans a ha b hb c hc
  incomparable_trans := by
    rintro _ ⟨a, ha, rfl⟩ _ ⟨b, hb, rfl⟩ _ ⟨c, hc, rfl⟩
    exact hr.incomparable_trans a ha b hb c hc

/-- Which values are the same and which are below others. -/
structure PartialValues (V : Type*) where
  same : V → V → Bool
  below : V → V → Bool
  same_symm : ∀ {u v}, same u v = true → same v u = true
  same_trans : ∀ {u v w}, same u v = true → same v w = true → same u w = true
  below_trans : ∀ {u v w}, below u v = true → below v w = true → below u w = true
  below_irrefl : ∀ {u}, below u u = false
  below_of_same_left : ∀ {u v w}, same u v = true → below v w = true → below u w = true
  below_of_same_right : ∀ {u v w}, below u v = true → same v w = true → below u w = true
  placed_left : ∀ {u v}, below u v = true → same u u = true
  placed_right : ∀ {u v}, below u v = true → same v v = true

structure SortKey (α V : Type*) where
  value : α → V
  ascending : Bool

namespace SortKey

variable {α V : Type*} (O : PartialValues V)

/-- The comparator. -/
def less : List (SortKey α V) → α → α → Bool
  | [], _, _ => false
  | k :: ks, a, b =>
    if O.same (k.value a) (k.value b) then less ks a b
    else if k.ascending then O.below (k.value a) (k.value b)
    else !O.below (k.value a) (k.value b)

/-- Whether a key puts the value `u` in front of `v`. -/
def ahead (k : SortKey α V) (u v : V) : Bool := if k.ascending then O.below u v else O.below v u

/-- The first key on which two elements differ puts the first of them first. -/
def Precedes : List (SortKey α V) → α → α → Prop
  | [], _, _ => False
  | k :: ks, a, b =>
    if O.same (k.value a) (k.value b) then Precedes ks a b
    else k.ahead O (k.value a) (k.value b) = true

/-- The first key on which the value of an element has no place, if there is one, is ascending. -/
def Ascends : List (SortKey α V) → α → Prop
  | [], _ => True
  | k :: ks, a => if O.same (k.value a) (k.value a) then Ascends ks a else k.ascending = true

/-- Two elements do not differ, or on the first key on which they do, the value of one of them has
no place. -/
def Tied : List (SortKey α V) → α → α → Prop
  | [], _, _ => True
  | k :: ks, a, b =>
    if O.same (k.value a) (k.value b) then Tied ks a b
    else O.same (k.value a) (k.value a) = false ∨ O.same (k.value b) (k.value b) = false

/-- On some key the value of `b` has no place, and `a` is the same as `b` on every key before. -/
def Meets : List (SortKey α V) → α → α → Prop
  | [], _, _ => False
  | k :: ks, a, b =>
    O.same (k.value b) (k.value b) = true →
      O.same (k.value a) (k.value b) = true ∧ Meets ks a b

/-- On the first key on which two elements differ, one value is below the other if both have a
place. -/
def Decided : List (SortKey α V) → α → α → Prop
  | [], _, _ => True
  | k :: ks, a, b =>
    if O.same (k.value a) (k.value b) then Decided ks a b
    else O.same (k.value a) (k.value a) = true → O.same (k.value b) (k.value b) = true →
      O.below (k.value a) (k.value b) = true ∨ O.below (k.value b) (k.value a) = true

variable {O} {ks : List (SortKey α V)} {a b c : α}

theorem placed_of_same {u v : V} (h : O.same u v = true) :
    O.same u u = true ∧ O.same v v = true :=
  ⟨O.same_trans h (O.same_symm h), O.same_trans (O.same_symm h) h⟩

theorem below_asymm {u v : V} (h : O.below u v = true) : O.below v u = false := by
  by_contra hvu
  have hself := O.below_trans h (Bool.eq_true_of_not_eq_false hvu)
  rw [O.below_irrefl] at hself
  cases hself

theorem less_self : less O ks a a = false ↔ Ascends O ks a := by
  induction ks with
  | nil => exact iff_of_true rfl trivial
  | cons k ks ih =>
    rw [less, Ascends]
    split
    · exact ih
    · rw [O.below_irrefl]
      cases k.ascending <;> decide

section

variable {k : SortKey α V} {u v w : V}

theorem ahead_trans (huv : k.ahead O u v = true) (hvw : k.ahead O v w = true) :
    k.ahead O u w = true := by
  rcases k with ⟨value, _ | _⟩
  · exact O.below_trans hvw huv
  · exact O.below_trans huv hvw

theorem ahead_of_same_left (huv : O.same u v = true) (hvw : k.ahead O v w = true) :
    k.ahead O u w = true := by
  rcases k with ⟨value, _ | _⟩
  · exact O.below_of_same_right hvw (O.same_symm huv)
  · exact O.below_of_same_left huv hvw

theorem ahead_of_same_right (huv : k.ahead O u v = true) (hvw : O.same v w = true) :
    k.ahead O u w = true := by
  rcases k with ⟨value, _ | _⟩
  · exact O.below_of_same_left (O.same_symm hvw) huv
  · exact O.below_of_same_right huv hvw

theorem not_same_of_ahead (h : k.ahead O u v = true) : O.same u v = false := by
  by_contra hsame
  have hself := ahead_of_same_left (O.same_symm (Bool.eq_true_of_not_eq_false hsame)) h
  rw [ahead, O.below_irrefl, ite_self] at hself
  cases hself

theorem ahead_asymm (h : k.ahead O u v = true) : k.ahead O v u = false := by
  rcases k with ⟨value, _ | _⟩ <;> exact below_asymm h

theorem placed_of_ahead (h : k.ahead O u v = true) :
    O.same u u = true ∧ O.same v v = true := by
  rcases k with ⟨value, _ | _⟩
  · exact ⟨O.placed_right h, O.placed_left h⟩
  · exact ⟨O.placed_left h, O.placed_right h⟩

theorem ahead_or (h : O.below u v = true ∨ O.below v u = true) :
    k.ahead O u v = true ∨ k.ahead O v u = true := by
  rcases k with ⟨value, _ | _⟩
  · exact h.symm
  · exact h

/-- Where one value has no place, the comparison ends in a tie. -/
theorem tied_of_unplaced
    (h : O.same (k.value a) (k.value a) = false ∨ O.same (k.value b) (k.value b) = false) :
    Tied O (k :: ks) a b := by
  rw [Tied]
  split
  · next hab =>
    rw [(placed_of_same hab).1, (placed_of_same hab).2] at h
    cases h <;> contradiction
  · exact h

end

theorem Precedes.trans (hab : Precedes O ks a b) (hbc : Precedes O ks b c) : Precedes O ks a c := by
  induction ks with
  | nil => exact hab
  | cons k ks ih =>
    have hahead : k.ahead O (k.value a) (k.value c) = true → Precedes O (k :: ks) a c := by
      intro h
      rw [Precedes, not_same_of_ahead h]
      exact h
    rw [Precedes] at hab hbc
    split at hab <;> split at hbc
    · next hsab hsbc =>
      rw [Precedes, O.same_trans hsab hsbc]
      exact ih hab hbc
    · next hsab _ => exact hahead (ahead_of_same_left hsab hbc)
    · next _ hsbc => exact hahead (ahead_of_same_right hab hsbc)
    · exact hahead (ahead_trans hab hbc)

theorem Precedes.asymm (hab : Precedes O ks a b) : ¬Precedes O ks b a := by
  intro hba
  have hself := hab.trans hba
  clear hab hba
  induction ks with
  | nil => exact hself
  | cons k ks ih =>
    rw [Precedes] at hself
    split at hself
    · exact ih hself
    · exact absurd (ahead_asymm hself) (by rw [hself]; decide)

/-- Between elements that are decided and whose unplaced values ascend, the comparator tells which
one precedes. -/
theorem less_iff_precedes (hd : Decided O ks a b) (ha : Ascends O ks a) (hb : Ascends O ks b) :
    less O ks a b = true ↔ Precedes O ks a b := by
  induction ks with
  | nil => exact iff_of_false Bool.false_ne_true id
  | cons k ks ih =>
    rw [Decided] at hd
    rw [Ascends] at ha hb
    rw [less, Precedes]
    by_cases hab : O.same (k.value a) (k.value b) = true
    · rw [if_pos hab] at hd ⊢
      rw [if_pos (placed_of_same hab).1] at ha
      rw [if_pos (placed_of_same hab).2] at hb
      rw [if_pos hab]
      exact ih hd ha hb
    · rw [if_neg hab] at hd ⊢
      rw [if_neg hab, ahead]
      cases hasc : k.ascending with
      | true => rfl
      | false =>
        -- a descending key has placed values on both sides
        have hpa : O.same (k.value a) (k.value a) = true := by
          by_contra hpa
          rw [if_neg hpa, hasc] at ha
          cases ha
        have hpb : O.same (k.value b) (k.value b) = true := by
          by_contra hpb
          rw [if_neg hpb, hasc] at hb
          cases hb
        rcases hd hpa hpb with h | h
        · simp [h, below_asymm h]
        · simp [h, below_asymm h]

theorem Tied.symm (h : Tied O ks a b) : Tied O ks b a := by
  induction ks with
  | nil => trivial
  | cons k ks ih =>
    rw [Tied] at h ⊢
    by_cases hab : O.same (k.value a) (k.value b) = true
    · rw [if_pos hab] at h
      rw [if_pos (O.same_symm hab)]
      exact ih h
    · rw [if_neg hab] at h
      rw [if_neg fun hba => hab (O.same_symm hba)]
      exact h.symm

/-- A tie is what neither of two decided elements breaks. -/
theorem tied_iff (hd : Decided O ks a b) :
    Tied O ks a b ↔ ¬Precedes O ks a b ∧ ¬Precedes O ks b a := by
  induction ks with
  | nil => exact iff_of_true trivial ⟨id, id⟩
  | cons k ks ih =>
    rw [Decided] at hd
    rw [Tied, Precedes, Precedes]
    by_cases hab : O.same (k.value a) (k.value b) = true
    · rw [if_pos hab] at hd
      rw [if_pos hab, if_pos hab, if_pos (O.same_symm hab)]
      exact ih hd
    · rw [if_neg hab] at hd
      rw [if_neg hab, if_neg hab, if_neg fun hba => hab (O.same_symm hba)]
      constructor
      · rintro (h | h)
        · exact ⟨fun hlt => absurd (placed_of_ahead hlt).1 (by rw [h]; decide),
            fun hlt => absurd (placed_of_ahead hlt).2 (by rw [h]; decide)⟩
        · exact ⟨fun hlt => absurd (placed_of_ahead hlt).2 (by rw [h]; decide),
            fun hlt => absurd (placed_of_ahead hlt).1 (by rw [h]; decide)⟩
      · rintro ⟨hlt, hgt⟩
        by_contra hplaced
        rw [not_or, Bool.not_eq_false, Bool.not_eq_false] at hplaced
        rcases ahead_or (k := k) (hd hplaced.1 hplaced.2) with h | h
        · exact hlt h
        · exact hgt h

/-- Ties chain, unless the element in the middle has a value without a place. -/
theorem Tied.trans (hab : Tied O ks a b) (hbc : Tied O ks b c) :
    Tied O ks a c ∨ (Meets O ks a b ∧ Meets O ks c b) := by
  induction ks with
  | nil => exact .inl trivial
  | cons k ks ih =>
    rw [Tied] at hab hbc
    by_cases hsab : O.same (k.value a) (k.value b) = true
    · rw [if_pos hsab] at hab
      by_cases hsbc : O.same (k.value b) (k.value c) = true
      · rw [if_pos hsbc] at hbc
        rcases ih hab hbc with h | ⟨ha, hc⟩
        · left
          rw [Tied, if_pos (O.same_trans hsab hsbc)]
          exact h
        · exact .inr ⟨fun _ => ⟨hsab, ha⟩, fun _ => ⟨O.same_symm hsbc, hc⟩⟩
      · rw [if_neg hsbc] at hbc
        have hc := hbc.resolve_left (by rw [(placed_of_same hsab).2]; decide)
        exact .inl (tied_of_unplaced (.inr hc))
    · rw [if_neg hsab] at hab
      by_cases hb : O.same (k.value b) (k.value b) = true
      · have ha := hab.resolve_right (by rw [hb]; decide)
        exact .inl (tied_of_unplaced (.inl ha))
      · exact .inr ⟨fun h => absurd h hb, fun h => absurd h hb⟩

theorem Meets.tied (h : Meets O ks a b) : Tied O ks a b := by
  induction ks with
  | nil => trivial
  | cons k ks ih =>
    by_cases hb : O.same (k.value b) (k.value b) = true
    · obtain ⟨hsame, hrest⟩ := h hb
      rw [Tied, if_pos hsame]
      exact ih hrest
    · exact tied_of_unplaced (.inr (Bool.eq_false_of_not_eq_true hb))

/-- The comparator leaves two elements in either order when they are tied. -/
theorem not_less_iff_tied (hd : Decided O ks a b) (hd' : Decided O ks b a) (ha : Ascends O ks a)
    (hb : Ascends O ks b) :
    ¬less O ks a b = true ∧ ¬less O ks b a = true ↔ Tied O ks a b := by
  rw [less_iff_precedes hd ha hb, less_iff_precedes hd' hb ha, tied_iff hd]

/-- The comparator is a strict weak order on a set whose elements it decides if and only if the
first unplaced value of each element is ascending, and the elements that meet it are tied. -/
theorem strictWeakOn_less {S : Set α} (hd : ∀ a ∈ S, ∀ b ∈ S, Decided O ks a b) :
    StrictWeakOn S (fun a b => less O ks a b = true) ↔
      (∀ a ∈ S, Ascends O ks a) ∧
        ∀ a ∈ S, ∀ b ∈ S, ∀ c ∈ S, Meets O ks a b → Meets O ks c b → Tied O ks a c := by
  constructor
  · intro h
    have hasc : ∀ a ∈ S, Ascends O ks a := fun a ha =>
      less_self.mp (Bool.eq_false_of_not_eq_true (h.irrefl a ha))
    refine ⟨hasc, fun a ha b hb c hc hab hcb => ?_⟩
    have htied : ∀ x ∈ S, ∀ y ∈ S, _ := fun x hx y hy =>
      not_less_iff_tied (hd x hx y hy) (hd y hy x hx) (hasc x hx) (hasc y hy)
    exact (htied a ha c hc).mp (h.incomparable_trans a ha b hb c hc
      ((htied a ha b hb).mpr hab.tied) ((htied b hb c hc).mpr hcb.tied.symm))
  · rintro ⟨hasc, hmeets⟩
    have hlt : ∀ a ∈ S, ∀ b ∈ S, (less O ks a b = true ↔ Precedes O ks a b) := fun a ha b hb =>
      less_iff_precedes (hd a ha b hb) (hasc a ha) (hasc b hb)
    have htied : ∀ x ∈ S, ∀ y ∈ S, _ := fun x hx y hy =>
      not_less_iff_tied (hd x hx y hy) (hd y hy x hx) (hasc x hx) (hasc y hy)
    refine ⟨fun a ha => ?_, fun a ha b hb hab => ?_, fun a ha b hb c hc hab hbc => ?_,
      fun a ha b hb c hc hab hbc => ?_⟩
    · rw [less_self.mpr (hasc a ha)]
      exact Bool.false_ne_true
    · rw [hlt b hb a ha]
      exact ((hlt a ha b hb).mp hab).asymm
    · rw [hlt a ha c hc]
      exact ((hlt a ha b hb).mp hab).trans ((hlt b hb c hc).mp hbc)
    · rw [htied a ha c hc]
      rcases ((htied a ha b hb).mp hab).trans ((htied b hb c hc).mp hbc) with h | ⟨h, h'⟩
      · exact h
      · exact hmeets a ha b hb c hc h h'

end SortKey

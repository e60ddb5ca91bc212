import SqlOptimizer.Library.Failure

/-! The positions of a list that a mask keeps, and computations over lists that read only those
positions. -/

namespace Mask

variable {α β : Type}

/-- The elements of a list at the positions that the mask keeps. -/
def select : List Bool → List α → List α
  | b :: m, x :: xs => if b then x :: select m xs else select m xs
  | _, _ => []

@[simp] theorem select_nil (m : List Bool) : select m ([] : List α) = [] := by
  cases m <;> rfl

theorem select_cons (b : Bool) (m : List Bool) (x : α) (xs : List α) :
    select (b :: m) (x :: xs) = if b then x :: select m xs else select m xs := rfl

theorem select_append {m m' : List Bool} {xs ys : List α} (h : m.length = xs.length) :
    select (m ++ m') (xs ++ ys) = select m xs ++ select m' ys := by
  induction xs generalizing m with
  | nil => simp [List.length_eq_zero_iff.mp h]
  | cons x xs ih =>
    cases m with
    | nil => cases h
    | cons b m =>
      simp only [List.cons_append, select_cons, ih (Nat.succ.inj h)]
      cases b <;> rfl

/-- The positions kept are as many in any list as long as the mask. -/
theorem length_select {m : List Bool} {xs : List α} (h : m.length = xs.length) :
    (select m xs).length = m.count true := by
  induction xs generalizing m with
  | nil => simp [List.length_eq_zero_iff.mp h]
  | cons x xs ih =>
    cases m with
    | nil => cases h
    | cons b m => cases b <;> simp [select_cons, ih (Nat.succ.inj h)]

theorem select_replicate (m : List Bool) (x : α) :
    select m (List.replicate m.length x) = List.replicate (m.count true) x := by
  induction m with
  | nil => rfl
  | cons b m ih => cases b <;> simp [select_cons, List.replicate_succ, ih]

theorem select_map (f : α → β) (m : List Bool) (xs : List α) :
    select m (xs.map f) = (select m xs).map f := by
  induction xs generalizing m with
  | nil => simp
  | cons x xs ih =>
    cases m with
    | nil => rfl
    | cons b m => cases b <;> simp [select_cons, ih]

theorem select_zip {m : List Bool} {xs : List α} {ys : List β} (h : m.length = xs.length)
    (h' : m.length = ys.length) :
    (select m xs).zip (select m ys) = select m (xs.zip ys) := by
  induction m generalizing xs ys with
  | nil => rfl
  | cons b m ih =>
    cases xs with
    | nil => cases h
    | cons x xs => cases ys with
      | nil => cases h'
      | cons y ys =>
        simp only [List.zip_cons_cons, select_cons,
          ← ih (Nat.succ.inj h) (Nat.succ.inj h')]
        cases b <;> rfl

/-- A mask keeps all of a list when it drops no position. -/
theorem select_eq_self {m : List Bool} {xs : List α} (h : m.length = xs.length) :
    select m xs = xs ↔ ∀ b ∈ m, b = true := by
  induction xs generalizing m with
  | nil => simp [List.length_eq_zero_iff.mp h]
  | cons x xs ih =>
    cases m with
    | nil => cases h
    | cons b m =>
      rw [select_cons, List.forall_mem_cons]
      cases b with
      | true => simp [ih (Nat.succ.inj h)]
      | false =>
        refine iff_of_false (fun heq => ?_) (by simp)
        have hlen : (select m xs).length = xs.length + 1 := congrArg List.length heq
        rw [length_select (Nat.succ.inj h)] at hlen
        have hle : m.count true ≤ m.length := List.count_le_length
        have hm : m.length = xs.length := Nat.succ.inj h
        omega

/-- The mask keeps every element of the list that satisfies `p`. -/
def Keeps (p : α → Prop) (m : List Bool) (xs : List α) : Prop := ∀ x ∈ m.zip xs, p x.2 → x.1 = true

theorem Keeps.append {p : α → Prop} {m m' : List Bool} {xs ys : List α} (hm : m.length = xs.length)
    (h : Keeps p m xs) (h' : Keeps p m' ys) : Keeps p (m ++ m') (xs ++ ys) := by
  intro x hx
  rw [List.zip_append hm] at hx
  exact (List.mem_append.mp hx).elim (h x) (h' x)

theorem Keeps.mono {p q : α → Prop} {m : List Bool} {xs : List α} (h : Keeps p m xs)
    (hqp : ∀ x, q x → p x) : Keeps q m xs := fun x hx hq => h x hx (hqp _ hq)

theorem keeps_map {γ : Type} {p : α → Prop} {q : γ → Bool} {f : γ → α} {cs : List γ}
    (h : ∀ c ∈ cs, p (f c) → q c = true) : Keeps p (cs.map q) (cs.map f) := by
  intro x hx
  rw [List.zip_map'] at hx
  obtain ⟨c, hc, rfl⟩ := List.mem_map.mp hx
  exact h c hc

section

variable {p : α → Bool} {m : List Bool} {xs : List α}

theorem find?_select (hm : m.length = xs.length) (h : Keeps (p · = true) m xs) :
    (select m xs).find? p = xs.find? p := by
  induction xs generalizing m with
  | nil => simp
  | cons x xs ih =>
    cases m with
    | nil => cases hm
    | cons b m =>
      have htail := ih (Nat.succ.inj hm) fun y hy => h y (by simp [hy])
      cases b with
      | true => simp only [select_cons, if_true, List.find?_cons, htail]
      | false =>
        have hx : p x = false := by
          cases hp : p x with
          | false => rfl
          | true => exact absurd (h (false, x) (by simp) hp) (by simp)
        rw [select_cons, if_neg (by simp), htail, List.find?_cons_of_neg (by simp [hx])]

theorem countP_select (hm : m.length = xs.length) (h : Keeps (p · = true) m xs) :
    (select m xs).countP p = xs.countP p := by
  induction xs generalizing m with
  | nil => simp
  | cons x xs ih =>
    cases m with
    | nil => cases hm
    | cons b m =>
      have htail := ih (Nat.succ.inj hm) fun y hy => h y (by simp [hy])
      cases b with
      | true => simp only [select_cons, if_true, List.countP_cons, htail]
      | false =>
        have hx : p x = false := by
          cases hp : p x with
          | false => rfl
          | true => exact absurd (h (false, x) (by simp) hp) (by simp)
        rw [select_cons, if_neg (by simp), htail, List.countP_cons_of_neg (by simp [hx])]

end

/-- The value beside the first element that satisfies `p`. -/
theorem findIdx?_bind_getElem? {p : α → Bool} {xs : List α} {ys : List β}
    (h : xs.length = ys.length) :
    (xs.findIdx? p).bind (ys[·]?) = ((xs.zip ys).find? (p ·.1)).map (·.2) := by
  induction xs generalizing ys with
  | nil => rfl
  | cons x xs ih =>
    cases ys with
    | nil => cases h
    | cons y ys =>
      rw [List.findIdx?_cons, List.zip_cons_cons]
      cases hx : p x with
      | true => simp [hx]
      | false =>
        rw [List.find?_cons_of_neg (by simp [hx]), ← ih (Nat.succ.inj h)]
        cases xs.findIdx? p <;> simp

/-- A search for what the mask keeps finds the same value in the kept positions. -/
theorem findIdx?_select {p : α → Bool} {m : List Bool} {xs : List α} {ys : List β}
    (hx : m.length = xs.length) (hy : m.length = ys.length) (h : Keeps (p · = true) m xs) :
    ((select m xs).findIdx? p).bind ((select m ys)[·]?) = (xs.findIdx? p).bind (ys[·]?) := by
  have hlen : (select m xs).length = (select m ys).length := by
    rw [length_select hx, length_select hy]
  have hzip : m.length = (xs.zip ys).length := by simp [← hx, ← hy]
  have hkeeps : Keeps (fun z : α × β => p z.1 = true) m (xs.zip ys) := by
    intro z hz hp
    obtain ⟨i, hi, rfl⟩ := List.mem_iff_getElem.mp hz
    simp only [List.length_zip] at hi
    simp only [List.getElem_zip] at hp ⊢
    refine h (m[i], xs[i]) ?_ hp
    exact List.mem_iff_getElem.mpr ⟨i, by simp only [List.length_zip]; omega, List.getElem_zip⟩
  rw [findIdx?_bind_getElem? hlen, findIdx?_bind_getElem? (hx.symm.trans hy), select_zip hx hy,
    find?_select hzip hkeeps]

end Mask

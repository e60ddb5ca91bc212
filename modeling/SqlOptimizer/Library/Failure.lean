import Mathlib.Data.List.Forall2

/-! Computations that may fail, in `Except` and `Option`: when a sequence of them succeeds. -/

namespace Except

variable {ε α β γ : Type}

theorem bind_eq_ok {x : Except ε α} {f : α → Except ε β} {b : β} :
    x >>= f = .ok b ↔ ∃ a, x = .ok a ∧ f a = .ok b := by
  cases x <;> simp [bind, Except.bind]

theorem bind_eq_error {x : Except ε α} {f : α → Except ε β} {e : ε} :
    x >>= f = .error e ↔ x = .error e ∨ ∃ a, x = .ok a ∧ f a = .error e := by
  cases x <;> simp [bind, Except.bind]

@[simp] theorem ok_bind (a : α) (f : α → Except ε β) : (.ok a : Except ε α) >>= f = f a := rfl

@[simp] theorem pure_eq_ok (a : α) : (pure a : Except ε α) = .ok a := rfl

@[simp] theorem error_bind (e : ε) (f : α → Except ε β) :
    (.error e : Except ε α) >>= f = .error e := rfl

@[simp] theorem bind_ok (x : Except ε α) : (x >>= fun a => .ok a) = x := by
  cases x <;> rfl

theorem mapM_congr {f g : α → Except ε β} {as : List α} (h : ∀ a ∈ as, f a = g a) :
    as.mapM f = as.mapM g := by
  induction as with
  | nil => rfl
  | cons a as ih =>
    rw [List.mapM_cons, List.mapM_cons, h a (by simp), ih fun b hb => h b (by simp [hb])]

theorem foldlM_congr {f g : β → α → Except ε β} {as : List α} (h : ∀ s, ∀ a ∈ as, f s a = g s a)
    (s : β) : as.foldlM f s = as.foldlM g s := by
  induction as generalizing s with
  | nil => rfl
  | cons a as ih =>
    rw [List.foldlM_cons, List.foldlM_cons, h s a (by simp)]
    exact congrArg _ (funext fun s' => ih (fun s b hb => h s b (by simp [hb])) s')

/-- Lists made from elements that correspond under `f`, and that correspond under `h`. -/
theorem flatMapM_map {α' β' : Type} {f : α → α'} {h : β → β'} {g : α → Except ε (List β)}
    {g' : α' → Except ε (List β')} {as : List α}
    (hg : ∀ a ∈ as, g' (f a) = (g a).map (List.map h)) :
    (as.map f).flatMapM g' = (as.flatMapM g).map (List.map h) := by
  induction as with
  | nil => rfl
  | cons a as ih =>
    rw [List.map_cons, List.flatMapM_cons, List.flatMapM_cons, hg a (by simp),
      ih fun b hb => hg b (by simp [hb])]
    cases g a with
    | error e => rfl
    | ok bs => cases as.flatMapM g with
      | error e => rfl
      | ok cs => exact congrArg Except.ok (List.map_append).symm

theorem exists_of_mem_flatMapM {f : α → Except ε (List β)} {as : List α} {out : List β}
    (h : as.flatMapM f = .ok out) {b : β} (hb : b ∈ out) :
    ∃ a ∈ as, ∃ bs, f a = .ok bs ∧ b ∈ bs := by
  induction as generalizing out with
  | nil =>
    cases h
    cases hb
  | cons a as ih =>
    rw [List.flatMapM_cons] at h
    obtain ⟨bs, hbs, h⟩ := bind_eq_ok.mp h
    obtain ⟨rest, hrest, h⟩ := bind_eq_ok.mp h
    cases h
    rcases List.mem_append.mp hb with hb | hb
    · exact ⟨a, List.mem_cons_self, bs, hbs, hb⟩
    · obtain ⟨a', ha', h⟩ := ih hrest hb
      exact ⟨a', List.mem_cons_of_mem _ ha', h⟩

/-- A fold that reads each element through `read` first. -/
theorem foldlM_read {f : β → γ → Except ε β} (read : α → Except ε γ) (d : γ) {as : List α}
    {s s' : β} :
    as.foldlM (fun s a => read a >>= f s) s = .ok s' ↔
      (∀ a ∈ as, ∃ c, read a = .ok c) ∧
        (as.map fun a => (read a).toOption.getD d).foldlM f s = .ok s' := by
  induction as generalizing s with
  | nil => simp
  | cons a as ih =>
    rw [List.foldlM_cons, List.map_cons, List.foldlM_cons]
    cases hr : read a with
    | error e =>
      refine iff_of_false (by simp) fun h => ?_
      obtain ⟨c, hc⟩ := h.1 a (by simp)
      simp [hr] at hc
    | ok c =>
      have hget : (Except.ok c : Except ε γ).toOption.getD d = c := rfl
      rw [ok_bind, hget]
      cases hs : f s c with
      | error e => simp
      | ok s₁ =>
        rw [ok_bind, ok_bind, ih]
        simp [hr]

theorem mapM_cons_eq_ok {f : α → Except ε β} {a : α} {as : List α} {out : List β} :
    (a :: as).mapM f = .ok out ↔ ∃ b bs, f a = .ok b ∧ as.mapM f = .ok bs ∧ out = b :: bs := by
  rw [List.mapM_cons, bind_eq_ok]
  constructor
  · rintro ⟨b, hb, h⟩
    obtain ⟨bs, hbs, h⟩ := bind_eq_ok.mp h
    cases h
    exact ⟨b, bs, hb, hbs, rfl⟩
  · rintro ⟨b, bs, hb, hbs, rfl⟩
    exact ⟨b, hb, bind_eq_ok.mpr ⟨bs, hbs, rfl⟩⟩

/-- A `mapM` succeeds with the results of its elements. -/
theorem mapM_eq_ok {f : α → Except ε β} {as : List α} {out : List β} :
    as.mapM f = .ok out ↔ List.Forall₂ (fun a b => f a = .ok b) as out := by
  induction as generalizing out with
  | nil =>
    rw [List.mapM_nil, pure_eq_ok, List.forall₂_nil_left_iff, Except.ok.injEq, eq_comm]
  | cons a as ih =>
    rw [mapM_cons_eq_ok, List.forall₂_cons_left_iff]
    simp [ih]

/-- A `mapM` that succeeds with `f` succeeds with what agrees with `f` where `f` succeeds. -/
theorem mapM_eq_ok_of_imp {f g : α → Except ε β} {as : List α} {out : List β}
    (h : as.mapM f = .ok out) (himp : ∀ a ∈ as, ∀ b, f a = .ok b → g a = .ok b) :
    as.mapM g = .ok out := by
  induction as generalizing out with
  | nil => exact h
  | cons a as ih =>
    obtain ⟨b, bs, hb, hbs, rfl⟩ := mapM_cons_eq_ok.mp h
    refine mapM_cons_eq_ok.mpr ⟨b, bs, himp a List.mem_cons_self b hb, ?_, rfl⟩
    exact ih hbs fun a' ha' => himp a' (List.mem_cons_of_mem _ ha')

/-- A `mapM` that succeeds succeeds on each element. -/
theorem ok_of_mapM_eq_ok {f : α → Except ε β} {as : List α} {out : List β}
    (h : as.mapM f = .ok out) {a : α} (ha : a ∈ as) : ∃ b, f a = .ok b := by
  induction as generalizing out with
  | nil => cases ha
  | cons a' as ih =>
    obtain ⟨b, bs, hb, hbs, -⟩ := mapM_cons_eq_ok.mp h
    rcases List.mem_cons.mp ha with rfl | ha
    · exact ⟨b, hb⟩
    · exact ih hbs ha

/-- Each result of a `mapM` is that of an element. -/
theorem exists_of_mem_mapM {f : α → Except ε β} {as : List α} {out : List β}
    (h : as.mapM f = .ok out) {b : β} (hb : b ∈ out) : ∃ a ∈ as, f a = .ok b := by
  induction as generalizing out with
  | nil =>
    cases h
    cases hb
  | cons a as ih =>
    obtain ⟨b', bs, hb', hbs, rfl⟩ := mapM_cons_eq_ok.mp h
    rcases List.mem_cons.mp hb with rfl | hb
    · exact ⟨a, List.mem_cons_self, hb'⟩
    · obtain ⟨a', ha', hfa'⟩ := ih hbs hb
      exact ⟨a', List.mem_cons_of_mem _ ha', hfa'⟩

theorem mapM_eq_ok_map {f : α → Except ε β} {g : α → β} {as : List α}
    (h : ∀ a ∈ as, f a = .ok (g a)) : as.mapM f = .ok (as.map g) := by
  rw [mapM_eq_ok, List.forall₂_map_right_iff, List.forall₂_same]
  exact h

/-- The result at an index is that of the element there. -/
theorem getElem?_of_mapM_eq_ok {f : α → Except ε β} {as : List α} {out : List β}
    (h : as.mapM f = .ok out) {i : Nat} {a : α} (ha : as[i]? = some a) :
    ∃ b, out[i]? = some b ∧ f a = .ok b := by
  induction as generalizing out i with
  | nil => cases ha
  | cons a' as ih =>
    obtain ⟨b, bs, hb, hbs, rfl⟩ := mapM_cons_eq_ok.mp h
    cases i with
    | zero =>
      cases ha
      exact ⟨b, rfl, hb⟩
    | succ i => exact ih hbs ha

/-- A `mapM` that succeeds is the map of a function that gives the results. -/
theorem exists_map_of_mapM_eq_ok [Nonempty β] {f : α → Except ε β} {as : List α} {out : List β}
    (h : as.mapM f = .ok out) : ∃ g : α → β, (∀ a ∈ as, f a = .ok (g a)) ∧ out = as.map g := by
  have hall : ∀ a, ∃ b, a ∈ as → f a = .ok b := by
    intro a
    by_cases ha : a ∈ as
    · obtain ⟨b, hb⟩ := ok_of_mapM_eq_ok h ha
      exact ⟨b, fun _ => hb⟩
    · exact ⟨Classical.arbitrary β, fun ha' => absurd ha' ha⟩
  choose g hg using hall
  refine ⟨g, hg, ?_⟩
  rw [mapM_eq_ok_map hg] at h
  exact (Except.ok.inj h).symm

/-- A `mapM` that succeeds does on the elements in any order. -/
theorem mapM_perm {f : α → Except ε β} {as as' : List α} {out : List β}
    (h : as.mapM f = .ok out) (hperm : as'.Perm as) :
    ∃ out', as'.mapM f = .ok out' ∧ out'.Perm out := by
  rcases as with _ | ⟨a, as⟩
  · rw [List.perm_nil.mp hperm]
    exact ⟨out, h, .refl _⟩
  · obtain ⟨b, bs, -⟩ := mapM_cons_eq_ok.mp h
    have : Nonempty β := ⟨b⟩
    obtain ⟨g, hg, rfl⟩ := exists_map_of_mapM_eq_ok h
    exact ⟨_, mapM_eq_ok_map fun a ha => hg a (hperm.mem_iff.mp ha), hperm.map g⟩

/-- Both computations succeed, with results that `R` relates, or both fail. -/
inductive Agree {δ : Type} (R : α → β → Prop) : Except ε α → Except δ β → Prop
  | ok {a : α} {b : β} (h : R a b) : Agree R (.ok a) (.ok b)
  | error {e : ε} {e' : δ} : Agree R (.error e) (.error e')

section Agree

variable {δ α' β' : Type} {R : α → β → Prop} {x : Except ε α} {y : Except δ β}

theorem Agree.bind {S : α' → β' → Prop} {f : α → Except ε α'} {g : β → Except δ β'}
    (h : Agree R x y) (hfg : ∀ a b, x = .ok a → R a b → Agree S (f a) (g b)) :
    Agree S (x >>= f) (y >>= g) := by
  cases h with
  | ok h => exact hfg _ _ rfl h
  | error => exact .error

theorem Agree.of_imp (hxy : ∀ a, x = .ok a → ∃ b, y = .ok b ∧ R a b)
    (hyx : ∀ b, y = .ok b → ∃ a, x = .ok a) : Agree R x y := by
  cases x with
  | ok a =>
    obtain ⟨b, rfl, hab⟩ := hxy a rfl
    exact .ok hab
  | error e =>
    cases y with
    | ok b =>
      obtain ⟨a, ha⟩ := hyx b rfl
      cases ha
    | error e' => exact .error

theorem Agree.imp {S : α → β → Prop} (h : Agree R x y) (hRS : ∀ a b, R a b → S a b) :
    Agree S x y := by
  cases h with
  | ok h => exact .ok (hRS _ _ h)
  | error => exact .error

/-- Two computations that agree with a third. -/
theorem Agree.meet {η γ : Type} {z : Except η γ} {S : α → γ → Prop} {T : β → γ → Prop}
    (h : Agree R x y) (h' : Agree S x z) (hT : ∀ a b c, R a b → S a c → T b c) : Agree T y z := by
  cases h with
  | ok h =>
    cases h' with
    | ok h' => exact .ok (hT _ _ _ h h')
  | error =>
    cases h' with
    | error => exact .error

theorem Agree.refl (x : Except ε α) : Agree Eq x x := by
  cases x with
  | ok a => exact .ok rfl
  | error e => exact .error

theorem Agree.of_ok {a : α} (h : Agree R x y) (hx : x = .ok a) : ∃ b, y = .ok b ∧ R a b := by
  cases h with
  | ok h =>
    cases hx
    exact ⟨_, rfl, h⟩
  | error => cases hx

theorem Agree.of_ok_right {b : β} (h : Agree R x y) (hy : y = .ok b) : ∃ a, x = .ok a ∧ R a b := by
  cases h with
  | ok h =>
    cases hy
    exact ⟨_, rfl, h⟩
  | error => cases hy

end Agree

end Except

namespace Option

variable {α β : Type}

/-- A `mapM` that succeeds has a result for each element, and an element for each result. -/
theorem mapM_eq_some {f : α → Option β} {as : List α} {out : List β} (h : as.mapM f = some out) :
    (∀ a ∈ as, ∃ b ∈ out, f a = some b) ∧ ∀ b ∈ out, ∃ a ∈ as, f a = some b := by
  induction as generalizing out with
  | nil =>
    cases h
    simp
  | cons a as ih =>
    simp only [List.mapM_cons, Option.bind_eq_bind, Option.bind_eq_some_iff] at h
    obtain ⟨b, hb, bs, hbs, h⟩ := h
    cases h
    obtain ⟨h1, h2⟩ := ih hbs
    constructor
    · intro x hx
      rcases List.mem_cons.mp hx with rfl | hx
      · exact ⟨b, by simp, hb⟩
      · obtain ⟨y, hy, hxy⟩ := h1 x hx
        exact ⟨y, by simp [hy], hxy⟩
    · intro y hy
      rcases List.mem_cons.mp hy with rfl | hy
      · exact ⟨a, by simp, hb⟩
      · obtain ⟨x, hx, hxy⟩ := h2 y hy
        exact ⟨x, by simp [hx], hxy⟩

/-- The elements come back when each of them does. -/
theorem mapM_map_eq_some {g : α → β} {f : β → Option α} {as : List α} :
    (as.map g).mapM f = some as ↔ ∀ a ∈ as, f (g a) = some a := by
  induction as with
  | nil => simp
  | cons a as ih =>
    simp only [List.map_cons, List.mapM_cons, Option.bind_eq_bind, Option.bind_eq_some_iff,
      List.forall_mem_cons, ← ih]
    constructor
    · rintro ⟨b, hb, bs, hbs, h⟩
      cases h
      exact ⟨hb, hbs⟩
    · rintro ⟨ha, has⟩
      exact ⟨a, ha, as, has, rfl⟩

end Option

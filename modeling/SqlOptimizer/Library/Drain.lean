import SqlOptimizer.Library.Failure

/-! What a pull iterator yields when it is pulled to its end: the rows it returns, then nothing or a
failure.  A consumer that stops early never meets a failure that comes later. -/

/-- The rows of an iterator, and the failure that follows them if there is one. -/
structure Drain (ε α : Type) where
  rows : List α
  fault : Option ε

namespace Drain

variable {ε α β : Type}

def ofList (rows : List α) : Drain ε α := ⟨rows, none⟩

/-- Each row gives its rows in order; the first row that fails ends the iteration. -/
def flatMapRows (f : α → Except ε (List β)) : List α → Option ε → Drain ε β
  | [], fault => ⟨[], fault⟩
  | a :: as, fault =>
    match f a with
    | .error e => ⟨[], some e⟩
    | .ok bs => ⟨bs ++ (flatMapRows f as fault).rows, (flatMapRows f as fault).fault⟩

def flatMap (f : α → Except ε (List β)) (d : Drain ε α) : Drain ε β :=
  flatMapRows f d.rows d.fault

/-- The rows that pass a test that may fail. -/
def filter (p : α → Except ε Bool) (d : Drain ε α) : Drain ε α :=
  d.flatMap fun a => do return if ← p a then [a] else []

def map (f : α → Except ε β) (d : Drain ε α) : Drain ε β :=
  d.flatMap fun a => do return [← f a]

/-- The first `n` rows.  A failure is met only when the consumer pulls past the rows. -/
def take (n : Nat) (d : Drain ε α) : Drain ε α :=
  if n ≤ d.rows.length then ⟨d.rows.take n, none⟩ else d

/-- Pulls every row; a failure fails the consumer. -/
def collect (d : Drain ε α) : Except ε (List α) :=
  match d.fault with
  | none => .ok d.rows
  | some e => .error e

/-- More rows in front of the others. -/
def prepend (rows : List α) (d : Drain ε α) : Drain ε α := ⟨rows ++ d.rows, d.fault⟩

theorem flatMap_cons (f : α → Except ε (List β)) (a : α) (rows : List α) (fault : Option ε) :
    (⟨a :: rows, fault⟩ : Drain ε α).flatMap f =
      match f a with
      | .error e => ⟨[], some e⟩
      | .ok bs => (flatMap f ⟨rows, fault⟩).prepend bs := rfl

theorem filter_cons (p : α → Except ε Bool) (a : α) (rows : List α) (fault : Option ε) :
    (⟨a :: rows, fault⟩ : Drain ε α).filter p =
      match p a with
      | .error e => ⟨[], some e⟩
      | .ok b => (filter p ⟨rows, fault⟩).prepend (if b then [a] else []) := by
  rw [filter, flatMap_cons]
  cases p a <;> rfl

theorem map_cons (f : α → Except ε β) (a : α) (rows : List α) (fault : Option ε) :
    (⟨a :: rows, fault⟩ : Drain ε α).map f =
      match f a with
      | .error e => ⟨[], some e⟩
      | .ok b => (map f ⟨rows, fault⟩).prepend [b] := by
  rw [map, flatMap_cons]
  cases f a <;> rfl

theorem take_cons (n : Nat) (a : α) (rows : List α) (fault : Option ε) :
    (⟨a :: rows, fault⟩ : Drain ε α).take (n + 1) = (take n ⟨rows, fault⟩).prepend [a] := by
  simp only [take, List.length_cons, Nat.add_le_add_iff_right, List.take_succ_cons]
  split <;> rfl

@[simp] theorem collect_ofList (rows : List α) : (ofList rows : Drain ε α).collect = .ok rows := rfl

theorem collect_eq_ok {d : Drain ε α} {rows : List α} :
    d.collect = .ok rows ↔ d.rows = rows ∧ d.fault = none := by
  cases d with
  | mk r fault => cases fault <;> simp [collect]

/-- A flat map succeeds exactly when its input does and every row does. -/
theorem collect_flatMap_eq_ok {f : α → Except ε (List β)} {d : Drain ε α} {out : List β} :
    (d.flatMap f).collect = .ok out ↔
      d.fault = none ∧ ∃ g : List (List β), d.rows.mapM f = .ok g ∧ out = g.flatten := by
  obtain ⟨rows, fault⟩ := d
  rw [collect_eq_ok]
  simp only [flatMap]
  induction rows generalizing out with
  | nil => simp [flatMapRows, eq_comm, and_comm]
  | cons a as ih =>
    simp only [flatMapRows]
    cases h : f a with
    | error e => simp [List.mapM_cons, h]
    | ok bs =>
      simp only [Except.mapM_cons_eq_ok, h, Except.ok.injEq]
      constructor
      · rintro ⟨rfl, hf⟩
        obtain ⟨hn, g, hg, hout⟩ := ih.mp ⟨rfl, hf⟩
        exact ⟨hn, bs :: g, ⟨bs, g, rfl, hg, rfl⟩, by simp [hout]⟩
      · rintro ⟨hn, _, ⟨_, g, rfl, hg, rfl⟩, rfl⟩
        obtain ⟨h1, h2⟩ := ih.mpr ⟨hn, g, hg, rfl⟩
        exact ⟨by rw [h1]; simp, h2⟩

/-- A filter succeeds exactly when its input does and the test succeeds on every row. -/
theorem collect_filter_eq_ok {p : α → Except ε Bool} {d : Drain ε α} {out : List α} :
    (d.filter p).collect = .ok out ↔
      d.fault = none ∧ (∀ a ∈ d.rows, ∃ b, p a = .ok b) ∧
        out = d.rows.filter fun a => (p a).toOption.getD false := by
  have hstep : ∀ a b, p a = .ok b →
      (do return if ← p a then [a] else [] : Except ε (List α)) =
        .ok (if (p a).toOption.getD false then [a] else []) := by
    intro a b hb
    simp [hb, Except.toOption]
  have hflatten : ∀ rows : List α,
      (rows.map fun a => if (p a).toOption.getD false then [a] else []).flatten =
        rows.filter fun a => (p a).toOption.getD false := by
    intro rows
    induction rows with
    | nil => rfl
    | cons a as ih => by_cases ha : (p a).toOption.getD false <;> simp [ha, ih]
  rw [filter, collect_flatMap_eq_ok]
  refine and_congr_right fun _ => ?_
  constructor
  · rintro ⟨g, hg, rfl⟩
    have hall : ∀ a ∈ d.rows, ∃ b, p a = .ok b := by
      intro a ha
      obtain ⟨_, hb⟩ := Except.ok_of_mapM_eq_ok hg ha
      obtain ⟨b, hb, -⟩ := Except.bind_eq_ok.mp hb
      exact ⟨b, hb⟩
    refine ⟨hall, ?_⟩
    rw [Except.mapM_eq_ok_map fun a ha => hstep a _ (hall a ha).choose_spec] at hg
    rw [← Except.ok.inj hg, hflatten]
  · rintro ⟨hall, rfl⟩
    exact ⟨_, Except.mapM_eq_ok_map fun a ha => hstep a _ (hall a ha).choose_spec,
      (hflatten _).symm⟩

theorem collect_map_eq_ok {f : α → Except ε β} {d : Drain ε α} {out : List β} :
    (d.map f).collect = .ok out ↔ d.fault = none ∧ d.rows.mapM f = .ok out := by
  rw [map, collect_flatMap_eq_ok]
  refine and_congr_right fun _ => ?_
  induction d.rows generalizing out with
  | nil => simp [eq_comm]
  | cons a as ih =>
    constructor
    · rintro ⟨_, hg, rfl⟩
      obtain ⟨bs, g, hbs, hrest, rfl⟩ := Except.mapM_cons_eq_ok.mp hg
      obtain ⟨b, hb, h⟩ := Except.bind_eq_ok.mp hbs
      cases h
      exact Except.mapM_cons_eq_ok.mpr ⟨b, g.flatten, hb, ih.mp ⟨g, hrest, rfl⟩, by simp⟩
    · intro h
      obtain ⟨b, bs, hb, hbs, rfl⟩ := Except.mapM_cons_eq_ok.mp h
      obtain ⟨g, hg, rfl⟩ := ih.mpr hbs
      exact ⟨[b] :: g, Except.mapM_cons_eq_ok.mpr ⟨[b], g, by rw [hb]; rfl, hg, rfl⟩, by simp⟩

theorem collect_map_ofList (f : α → Except ε β) (rows : List α) :
    ((ofList rows).map f).collect = rows.mapM f := by
  rw [ofList]
  induction rows with
  | nil => rfl
  | cons a rows ih =>
    rw [map_cons, List.mapM_cons, ← ih]
    cases f a with
    | error e => rfl
    | ok b =>
      simp only [prepend, collect, Except.ok_bind]
      cases ((⟨rows, none⟩ : Drain ε α).map f).fault <;> rfl

/-- When every row succeeds, so does the whole flat map, up to the failure of its input. -/
theorem flatMap_of_ok {f : α → Except ε (List β)} {g : α → List β} {d : Drain ε α}
    (h : ∀ a ∈ d.rows, f a = .ok (g a)) : d.flatMap f = ⟨d.rows.flatMap g, d.fault⟩ := by
  obtain ⟨rows, fault⟩ := d
  simp only [flatMap] at h ⊢
  induction rows with
  | nil => rfl
  | cons a as ih =>
    rw [flatMapRows, h a (by simp)]
    simp [ih fun b hb => h b (by simp [hb])]

theorem filter_of_ok {p : α → Except ε Bool} {q : α → Bool} {d : Drain ε α}
    (h : ∀ a ∈ d.rows, p a = .ok (q a)) : d.filter p = ⟨d.rows.filter q, d.fault⟩ := by
  rw [filter, flatMap_of_ok (g := fun a => if q a then [a] else [])
    (fun a ha => by simp [h a ha])]
  congr 1
  induction d.rows with
  | nil => rfl
  | cons a as ih => by_cases ha : q a <;> simp [ha, ih]

/-- Every row of a flat map comes from a row. -/
theorem mem_flatMap {f : α → Except ε (List β)} {d : Drain ε α} {b : β}
    (h : b ∈ (d.flatMap f).rows) : ∃ a ∈ d.rows, ∃ bs, f a = .ok bs ∧ b ∈ bs := by
  obtain ⟨rows, fault⟩ := d
  induction rows with
  | nil => cases h
  | cons a rows ih =>
    rw [flatMap_cons] at h
    cases hf : f a with
    | error e =>
      rw [hf] at h
      cases h
    | ok bs =>
      rw [hf] at h
      rcases List.mem_append.mp h with hb | hb
      · exact ⟨a, List.mem_cons_self, bs, hf, hb⟩
      · obtain ⟨a', ha', hbs⟩ := ih hb
        exact ⟨a', List.mem_cons_of_mem _ ha', hbs⟩

theorem mem_filter {p : α → Except ε Bool} {d : Drain ε α} {a : α} (h : a ∈ (d.filter p).rows) :
    a ∈ d.rows := by
  obtain ⟨a', ha', bs, hbs, ha⟩ := mem_flatMap h
  obtain ⟨b, -, hb⟩ := Except.bind_eq_ok.mp hbs
  cases b <;> cases hb
  · cases ha
  · rwa [List.mem_singleton.mp ha]

theorem mem_map {f : α → Except ε β} {d : Drain ε α} {b : β} (h : b ∈ (d.map f).rows) :
    ∃ a ∈ d.rows, f a = .ok b := by
  obtain ⟨a, ha, bs, hbs, hb⟩ := mem_flatMap h
  obtain ⟨b', hb', hbs⟩ := Except.bind_eq_ok.mp hbs
  cases hbs
  rw [List.mem_singleton.mp hb]
  exact ⟨a, ha, hb'⟩

theorem mem_take {n : Nat} {d : Drain ε α} {a : α} (h : a ∈ (d.take n).rows) : a ∈ d.rows := by
  unfold take at h
  split at h
  · exact List.mem_of_mem_take h
  · exact h

end Drain

import Mathlib.Logic.Function.Basic
import Mathlib.Data.List.AList
import Mathlib.Data.List.Basic

/-! Tables that are filled entry by entry. -/

namespace Table

variable {ι α : Type} [DecidableEq ι]

/-- Fills the entries of `order`, each with the value that the table has for it so far. -/
def fill (value : (ι → α) → ι → α) (order : List ι) (table : ι → α) : ι → α :=
  order.foldl (fun table i => Function.update table i (value table i)) table

variable {value : (ι → α) → ι → α} {order : List ι} {table : ι → α} {i : ι}

theorem fill_of_notMem (hi : i ∉ order) : fill value order table i = table i := by
  induction order generalizing table with
  | nil => rfl
  | cons j rest ih =>
    obtain ⟨hne, hrest⟩ := List.ne_and_not_mem_of_not_mem_cons hi
    exact (ih hrest).trans (Function.update_of_ne hne _ _)

/-- When each value reads only entries of a smaller rank, and the ranks grow along the order, each
entry is the value that the filled table has for it. -/
theorem fill_eq {rank : ι → Nat} (hsorted : order.Pairwise fun i j => i ≠ j ∧ rank i ≤ rank j)
    (hreads : ∀ i ∈ order, ∀ t t' : ι → α, (∀ j, rank j < rank i → t j = t' j) →
      value t i = value t' i)
    (hi : i ∈ order) : fill value order table i = value (fill value order table) i := by
  induction order generalizing table with
  | nil => cases hi
  | cons j rest ih =>
    obtain ⟨hfirst, hsorted⟩ := List.pairwise_cons.mp hsorted
    rcases List.mem_cons.mp hi with rfl | hi
    · have hnot : i ∉ rest := fun h => (hfirst i h).1 rfl
      have hself : fill value (i :: rest) table i = value table i :=
        (fill_of_notMem hnot).trans (Function.update_self ..)
      rw [hself]
      refine hreads i List.mem_cons_self _ _ fun j hj => ?_
      -- an entry of a smaller rank is not filled from here on
      have hlater : j ∉ i :: rest := by
        intro h
        rcases List.mem_cons.mp h with rfl | h
        · exact Nat.lt_irrefl _ hj
        · exact absurd (hfirst j h).2 (Nat.not_le.mpr hj)
      exact (fill_of_notMem hlater).symm
    · exact ih hsorted (fun i hi => hreads i (List.mem_cons_of_mem _ hi)) hi

/-- Entries with different keys, inserted one after another. -/
theorem lookup_foldl_insert {entries : List (Sigma fun _ : ι => α)} (hnodup : entries.NodupKeys)
    (t : AList fun _ : ι => α) (key : ι) :
    (entries.foldl (fun t e => t.insert e.1 e.2) t).lookup key =
      (entries.dlookup key).or (t.lookup key) := by
  induction entries generalizing t with
  | nil => rfl
  | cons e entries ih =>
    rw [List.nodupKeys_cons] at hnodup
    rw [List.foldl_cons, ih hnodup.2]
    by_cases h : key = e.1
    · subst h
      have hnone : entries.dlookup e.1 = none := List.dlookup_eq_none.mpr hnodup.1
      rw [hnone, AList.lookup_insert, List.dlookup_cons_eq]
      rfl
    · rw [AList.lookup_insert_ne h, List.dlookup_cons_ne _ _ h]

/-! ### Tables that are read -/

section Collect

variable {ε β : Type} {read : ι → Except ε (Option α)} {keys : List ι}

/-- Reads the keys in their order and stores what there is under each, up to the first failure. -/
def collect (read : ι → Except ε (Option α)) (keys : List ι) (t : AList fun _ : ι => α) :
    Except ε (AList fun _ : ι => α) :=
  keys.foldlM (fun t key => (read key).map fun a => a.elim t (t.insert key)) t

theorem collect_cons (key : ι) (keys : List ι) (t : AList fun _ : ι => α) :
    collect read (key :: keys) t =
      (read key).map (fun a => a.elim t (t.insert key)) >>= collect read keys :=
  rfl

theorem lookup_elim_insert (a : Option α) (t : AList fun _ : ι => α) (key other : ι) :
    (a.elim t (t.insert key)).lookup other =
      if other = key then a.or (t.lookup other) else t.lookup other := by
  cases a with
  | none => simp
  | some a =>
    by_cases h : other = key
    · subst h
      simp
    · simp [h]

/-- Keys that are looked up elsewhere, one after another, with what is found stored. -/
theorem lookup_foldl_elim (found : ι → Option α) (keys : List ι) (t : AList fun _ : ι => α)
    (key : ι) : (keys.foldl (fun t k => (found k).elim t (t.insert k)) t).lookup key =
      if key ∈ keys then (found key).or (t.lookup key) else t.lookup key := by
  induction keys generalizing t with
  | nil => rfl
  | cons first keys ih =>
    rw [List.foldl_cons, ih, lookup_elim_insert]
    by_cases hfirst : key = first
    · subst hfirst
      cases found key <;> simp
    · simp [hfirst]

/-- A table that is read holds what there is under its keys. -/
theorem lookup_collect {t t' : AList fun _ : ι => α} (h : collect read keys t = .ok t')
    (ht : ∀ key a, t.lookup key = some a → read key = .ok (some a)) {key : ι} {a : α} :
    t'.lookup key = some a ↔ (key ∈ keys ∧ read key = .ok (some a)) ∨ t.lookup key = some a := by
  induction keys generalizing t with
  | nil =>
    cases h
    simp
  | cons first keys ih =>
    rw [collect_cons] at h
    cases hread : read first with
    | error e =>
      rw [hread] at h
      cases h
    | ok o =>
      rw [hread] at h
      have hlookup := lookup_elim_insert o t first
      have hnext : ∀ key a, (o.elim t (t.insert first)).lookup key = some a ↔
          (key = first ∧ read key = .ok (some a)) ∨ t.lookup key = some a := by
        intro key a
        rw [hlookup]
        by_cases hkey : key = first
        · subst hkey
          cases o with
          | none => simp [hread]
          | some b =>
            -- what was stored before is what is read again
            have hsame : t.lookup key = some a → b = a := fun hold => by
              have := (ht key a hold).symm.trans hread
              simpa using this.symm
            simpa [hread] using hsame
        · simp [hkey]
      rw [ih h fun key a hold => ((hnext key a).mp hold).elim And.right (ht key a), hnext,
        List.mem_cons]
      tauto

theorem lookup_collect_empty {t : AList fun _ : ι => α} (h : collect read keys ∅ = .ok t) {key : ι}
    {a : α} : t.lookup key = some a ↔ key ∈ keys ∧ read key = .ok (some a) := by
  rw [lookup_collect h (by simp)]
  simp

/-- Reading what was changed by `g` stores what is read, changed by `g`. -/
theorem collect_map (g : α → β) (read : ι → Except ε (Option α)) (keys : List ι) :
    (collect (fun key => (read key).map (Option.map g)) keys ∅).map
        (fun t (key : ι) => t.lookup key) =
      (collect read keys ∅).map fun t key => (t.lookup key).map g := by
  have hfrom : ∀ (t : AList fun _ : ι => α) (t' : AList fun _ : ι => β),
      (∀ key, t'.lookup key = (t.lookup key).map g) →
      (collect (fun key => (read key).map (Option.map g)) keys t').map
          (fun t (key : ι) => t.lookup key) =
        (collect read keys t).map fun t key => (t.lookup key).map g := by
    induction keys with
    | nil => exact fun t t' h => congrArg Except.ok (funext h)
    | cons first keys ih =>
      intro t t' h
      rw [collect_cons, collect_cons]
      cases read first with
      | error e => rfl
      | ok o =>
        refine ih _ _ fun key => ?_
        rw [lookup_elim_insert, lookup_elim_insert]
        split
        · cases o with
          | none => exact h key
          | some a => rfl
        · exact h key
  exact hfrom ∅ ∅ fun key => by simp

end Collect

end Table

import Mathlib.Data.List.Perm.Basic

/-! A doubly linked list that hands out its elements, as Go's `container/list`. -/

namespace SqlOptimizer

/-- The elements, front first, each with its own identity. -/
structure LinkedList (α : Type*) where
  elements : List (Nat × α)
  fresh : Nat

namespace LinkedList

variable {α : Type*}

def empty : LinkedList α := ⟨[], 0⟩

def values (l : LinkedList α) : List α := l.elements.map (·.2)

/-- A new element at the front, with its identity. -/
def pushFront (l : LinkedList α) (value : α) : Nat × LinkedList α :=
  (l.fresh, ⟨(l.fresh, value) :: l.elements, l.fresh + 1⟩)

def remove (l : LinkedList α) (element : Nat) : LinkedList α :=
  { l with elements := l.elements.eraseP (·.1 == element) }

/-- An element of another list is left alone. -/
def moveToFront (l : LinkedList α) (element : Nat) : LinkedList α :=
  match l.elements.find? (·.1 == element) with
  | some e => { l with elements := e :: l.elements.eraseP (·.1 == element) }
  | none => l

def back (l : LinkedList α) : Option α := l.values.getLast?

/-- No two elements share an identity, and new identities are new. -/
structure Distinct (l : LinkedList α) : Prop where
  nodup : (l.elements.map (·.1)).Nodup
  old : ∀ e ∈ l.elements, e.1 < l.fresh

theorem distinct_empty : (empty : LinkedList α).Distinct := ⟨by simp [empty], by simp [empty]⟩

theorem mem_values {l : LinkedList α} {v : α} : v ∈ l.values ↔ ∃ id, (id, v) ∈ l.elements := by
  simp [values]

theorem Distinct.pushFront {l : LinkedList α} (h : l.Distinct) (v : α) :
    (l.pushFront v).2.Distinct := by
  refine ⟨List.nodup_cons.mpr ⟨?_, h.nodup⟩, ?_⟩
  · intro hmem
    obtain ⟨e, he, hid⟩ := List.mem_map.mp hmem
    have hlt : e.1 < l.fresh := h.old e he
    rw [show e.1 = l.fresh from hid] at hlt
    exact Nat.lt_irrefl _ hlt
  · intro e he
    show e.1 < l.fresh + 1
    rcases List.mem_cons.mp he with rfl | he
    · exact Nat.lt_succ_self _
    · have := h.old e he
      omega

theorem Distinct.remove {l : LinkedList α} (h : l.Distinct) (id : Nat) : (l.remove id).Distinct :=
  ⟨h.nodup.sublist (List.eraseP_sublist.map _), fun e he => h.old e (List.mem_of_mem_eraseP he)⟩

theorem Distinct.find? {l : LinkedList α} (h : l.Distinct) {id : Nat} {v : α}
    (hmem : (id, v) ∈ l.elements) : l.elements.find? (·.1 == id) = some (id, v) := by
  have hnodup := h.nodup
  generalize l.elements = es at hmem hnodup
  induction es with
  | nil => cases hmem
  | cons e es ih =>
    rw [List.map_cons, List.nodup_cons] at hnodup
    rcases List.mem_cons.mp hmem with rfl | hmem
    · simp
    · have hne : e.1 ≠ id := by
        rintro rfl
        exact hnodup.1 (List.mem_map_of_mem (f := (·.1)) hmem)
      rw [List.find?_cons_of_neg (by simpa using hne)]
      exact ih hmem hnodup.2

theorem Distinct.moveToFront {l : LinkedList α} (h : l.Distinct) {id : Nat} {v : α}
    (hmem : (id, v) ∈ l.elements) :
    (l.moveToFront id).elements = (id, v) :: (l.remove id).elements := by
  rw [LinkedList.moveToFront, h.find? hmem]
  rfl

/-- An element is gone after its removal, and the others stay. -/
theorem Distinct.mem_remove {l : LinkedList α} (h : l.Distinct) {id : Nat} {e : Nat × α} :
    e ∈ (l.remove id).elements ↔ e ∈ l.elements ∧ e.1 ≠ id := by
  have hnodup := h.nodup
  simp only [LinkedList.remove]
  generalize l.elements = es at hnodup
  induction es with
  | nil => simp
  | cons x es ih =>
    rw [List.map_cons, List.nodup_cons] at hnodup
    have ih : e ∈ es.eraseP (·.1 == id) ↔ e ∈ es ∧ e.1 ≠ id := ih hnodup.2
    by_cases hx : x.1 = id
    · rw [List.eraseP_cons_of_pos (by simpa using hx), List.mem_cons]
      constructor
      · intro he
        refine ⟨.inr he, ?_⟩
        rintro rfl
        exact hnodup.1 (hx ▸ List.mem_map_of_mem (f := (·.1)) he)
      · rintro ⟨rfl | he, hne⟩
        · exact absurd hx hne
        · exact he
    · rw [List.eraseP_cons_of_neg (by simpa using hx), List.mem_cons, List.mem_cons, ih]
      constructor
      · rintro (rfl | ⟨he, hne⟩)
        · exact ⟨.inl rfl, hx⟩
        · exact ⟨.inr he, hne⟩
      · rintro ⟨rfl | he, hne⟩
        · exact .inl rfl
        · exact .inr ⟨he, hne⟩

/-- Removal of the one element with a value, among the values. -/
theorem values_remove [BEq α] [LawfulBEq α] {l : LinkedList α} {id : Nat} {v : α}
    (h : ∀ e ∈ l.elements, e.1 = id ↔ e.2 = v) : (l.remove id).values = l.values.erase v := by
  simp only [values, LinkedList.remove]
  generalize l.elements = es at h
  induction es with
  | nil => rfl
  | cons x es ih =>
    have hx := h x List.mem_cons_self
    have ih := ih fun e he => h e (List.mem_cons_of_mem _ he)
    by_cases hid : x.1 = id
    · rw [List.eraseP_cons_of_pos (by simpa using hid), List.map_cons, hx.mp hid,
        List.erase_cons_head]
    · rw [List.eraseP_cons_of_neg (by simpa using hid), List.map_cons, List.map_cons, ih,
        List.erase_cons_tail (by simpa using fun hv => hid (hx.mpr hv))]

end LinkedList

end SqlOptimizer

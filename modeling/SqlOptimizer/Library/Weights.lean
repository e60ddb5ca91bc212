import Mathlib.Algebra.BigOperators.Group.Finset.Piecewise
import Mathlib.Algebra.BigOperators.Group.List.Basic
import Mathlib.Algebra.Order.BigOperators.Group.List
import Mathlib.Algebra.Order.Ring.Int
import Mathlib.Data.List.AList

/-! Sums of weights over the entries of an association list, and over the members of a family of
which one changes. -/

namespace SqlOptimizer

theorem sum_update_add {ι M γ : Type*} [Fintype ι] [DecidableEq ι] [AddCommMonoid M] (f : ι → γ)
    (w : γ → M) (i : ι) (a : γ) :
    ∑ j, w (Function.update f i a j) + w (f i) = w a + ∑ j, w (f j) := by
  have hcomp : ∀ j, w (Function.update f i a j) = Function.update (fun j => w (f j)) i (w a) j :=
    fun j => Function.apply_update (fun _ => w) f i a j
  simp only [hcomp]
  rw [Finset.sum_update_of_mem (Finset.mem_univ i),
    Finset.sum_eq_add_sum_sdiff_singleton_of_mem (Finset.mem_univ i) fun j => w (f j)]
  rw [add_assoc, add_comm (∑ _ ∈ _, _)]

variable {α : Type*} {β : α → Type*} [DecidableEq α]

/-- The entry of a key, taken out of its association list. -/
theorem perm_cons_erase {s : AList β} {a : α} {b : β a} (h : s.lookup a = some b) :
    s.entries.Perm (⟨a, b⟩ :: (s.erase a).entries) := by
  have hmem : a ∈ s.keys := AList.mem_keys.mp (AList.lookup_isSome.mp (by simp [h]))
  obtain ⟨b', l₁, l₂, -, hl, hk⟩ := List.exists_of_kerase hmem
  have hb : b' = b := by
    have := List.mem_dlookup (b := b') s.nodupKeys (by rw [hl]; simp)
    exact Option.some.inj ((Option.mem_def.mp this).symm.trans h)
  subst hb
  show s.entries.Perm (⟨a, b'⟩ :: List.kerase a s.entries)
  rw [hk, hl]
  exact List.perm_middle

theorem erase_of_lookup_none {s : AList β} {a : α} (h : s.lookup a = none) : s.erase a = s := by
  apply AList.ext
  exact List.kerase_of_notMem_keys fun hmem => AList.lookup_eq_none.mp h (AList.mem_keys.mpr hmem)

/-- The keys that are left, with any lawful `==`. -/
theorem keys_erase [i : BEq α] [LawfulBEq α] (s : AList β) (a : α) :
    (s.erase a).keys = s.keys.erase a := by
  rw [AList.keys_erase, lawful_beq_subsingleton i instBEqOfDecidableEq]

theorem keys_insert [BEq α] [LawfulBEq α] (s : AList β) (a : α) (b : β a) :
    (s.insert a b).keys = a :: s.keys.erase a := by
  rw [← keys_erase]
  exact congrArg List.keys AList.entries_insert

/-- The sum of the weights of the entries. -/
def totalWeight (w : Sigma β → Int) (s : AList β) : Int := (s.entries.map w).sum

variable {w : Sigma β → Int} {s : AList β} {a : α}

theorem totalWeight_erase {b : β a} (h : s.lookup a = some b) :
    totalWeight w (s.erase a) = totalWeight w s - w ⟨a, b⟩ := by
  rw [totalWeight, totalWeight, ((perm_cons_erase h).map w).sum_eq, List.map_cons, List.sum_cons]
  omega

theorem totalWeight_insert (b : β a) :
    totalWeight w (s.insert a b) = w ⟨a, b⟩ + totalWeight w (s.erase a) := by
  rw [totalWeight, AList.entries_insert, List.map_cons, List.sum_cons]
  rfl

theorem length_erase {b : β a} (h : s.lookup a = some b) :
    s.entries.length = (s.erase a).entries.length + 1 := by
  rw [(perm_cons_erase h).length_eq, List.length_cons]

theorem length_insert (b : β a) :
    (s.insert a b).entries.length = (s.erase a).entries.length + 1 := by
  rw [AList.entries_insert, List.length_cons]
  rfl

theorem mem_entries_insert {b : β a} {e : Sigma β} (h : e ∈ (s.insert a b).entries) :
    e = ⟨a, b⟩ ∨ e ∈ s.entries := by
  rw [AList.entries_insert, List.mem_cons] at h
  exact h.imp_right fun h => (List.kerase_sublist _ _).subset h

theorem mem_entries_erase {e : Sigma β} (h : e ∈ (s.erase a).entries) : e ∈ s.entries :=
  (List.kerase_sublist _ _).subset h

/-- Fewer entries weigh less, when no weight is negative. -/
theorem totalWeight_le {t : AList β} (hsub : ∀ a b, t.lookup a = some b → s.lookup a = some b)
    (hw : ∀ e ∈ s.entries, 0 ≤ w e) : totalWeight w t ≤ totalWeight w s := by
  have hsubset : t.entries ⊆ s.entries := fun ⟨a, b⟩ he =>
    AList.mem_lookup_iff.mp (hsub a b (AList.mem_lookup_iff.mpr he))
  obtain ⟨l, hperm, hsublist⟩ := List.subperm_of_subset t.nodupKeys.nodup hsubset
  rw [totalWeight, totalWeight, ← (hperm.map w).sum_eq]
  refine (hsublist.map w).sum_le_sum fun x hx => ?_
  obtain ⟨e, he, rfl⟩ := List.mem_map.mp hx
  exact hw e he

/-- The weight depends on what the keys are mapped to only. -/
theorem totalWeight_congr {t : AList β} (h : ∀ a, t.lookup a = s.lookup a) :
    totalWeight w t = totalWeight w s := by
  have hperm : t.entries.Perm s.entries :=
    List.lookup_ext t.nodupKeys s.nodupKeys fun a b => by
      show b ∈ t.lookup a ↔ b ∈ s.lookup a
      rw [h a]
  exact (hperm.map w).sum_eq

end SqlOptimizer

import Mathlib.Data.List.Perm.Subperm
import Mathlib.Data.List.Sublists
import Mathlib.Algebra.BigOperators.Group.List.Basic
import Mathlib.Algebra.GroupWithZero.Nat

/-! Contracting a hypergraph.  Conditions touch nodes; a contraction takes one condition away and
merges two nodes that it touches.  If the incidences of conditions and nodes form a forest, they do
so after a contraction; if some set of conditions touches no more nodes than it has members, the same
is true of a nonempty set of the conditions that remain. -/

namespace Contraction

variable {κ α : Type} (touch : κ → α → Bool)

/-- The number of nodes that a condition touches. -/
def degree (c : κ) (ns : List α) : Nat := ns.countP (touch c)

/-- The number of nodes that some condition of `S` touches. -/
def reach (S : List κ) (ns : List α) : Nat := ns.countP fun n => S.any (touch · n)

/-- Every condition touches two nodes or more, and the incidences form a forest: each set of
conditions has fewer incidences than it has members and touched nodes. -/
def Acyclic (cs : List κ) (ns : List α) : Prop :=
  (∀ c ∈ cs, 2 ≤ degree touch c ns) ∧
    ∀ S, S.Subperm cs → S ≠ [] →
      (S.map fun c => degree touch c ns).sum + 1 ≤ S.length + reach touch S ns

/-- Each set of conditions touches more nodes than it has members. -/
def Spread (cs : List κ) (ns : List α) : Prop :=
  ∀ S, S.Subperm cs → S ≠ [] → S.length < reach touch S ns

theorem countP_or_add_countP_and (p q : α → Bool) (l : List α) :
    l.countP (fun a => p a || q a) + l.countP (fun a => p a && q a) =
      l.countP p + l.countP q := by
  induction l with
  | nil => rfl
  | cons a l ih =>
    simp only [List.countP_cons]
    cases p a <;> cases q a <;> simp <;> omega

variable {touch}

theorem Acyclic.perm {cs cs' : List κ} {ns ns' : List α} (hc : cs.Perm cs') (hn : ns.Perm ns')
    (h : Acyclic touch cs ns) : Acyclic touch cs' ns' := by
  have hdeg : ∀ c, degree touch c ns' = degree touch c ns := fun c => (hn.countP_eq _).symm
  refine ⟨fun c hmem => ?_, fun S hS hne => ?_⟩
  · rw [hdeg]
    exact h.1 c (hc.mem_iff.mpr hmem)
  · have hreach : reach touch S ns' = reach touch S ns := (hn.countP_eq _).symm
    simp only [hdeg, hreach]
    exact h.2 S (hS.trans hc.symm.subperm) hne

theorem Spread.perm {cs cs' : List κ} {ns ns' : List α} (hc : cs.Perm cs') (hn : ns.Perm ns')
    (h : Spread touch cs ns) : Spread touch cs' ns' := by
  intro S hS hne
  have hreach : reach touch S ns' = reach touch S ns := (hn.countP_eq _).symm
  rw [hreach]
  exact h S (hS.trans hc.symm.subperm) hne

/-- A property of nonempty sets of conditions need only be looked at on the sublists. -/
theorem forall_subperm_iff {P : List κ → Prop} (hP : ∀ {S T : List κ}, S.Perm T → P S → P T)
    (cs : List κ) :
    (∀ S, S.Subperm cs → S ≠ [] → P S) ↔ ∀ T ∈ cs.sublists, T ≠ [] → P T := by
  constructor
  · intro h T hT hne
    exact h T (List.mem_sublists.mp hT).subperm hne
  · rintro h S ⟨T, hT, hsub⟩ hne
    refine hP hT (h T (List.mem_sublists.mpr hsub) fun hnil => hne ?_)
    exact List.nil_perm.mp (hnil ▸ hT)

theorem acyclic_iff_sublists {cs : List κ} {ns : List α} :
    Acyclic touch cs ns ↔ (∀ c ∈ cs, 2 ≤ degree touch c ns) ∧ ∀ T ∈ cs.sublists, T ≠ [] →
      (T.map fun c => degree touch c ns).sum + 1 ≤ T.length + reach touch T ns := by
  refine and_congr_right fun _ => forall_subperm_iff (fun {S T} hperm h => ?_) cs
  have hreach : reach touch T ns = reach touch S ns := by simp only [reach, hperm.any_eq]
  rwa [← (hperm.map _).sum_eq, ← hperm.length_eq, hreach]

instance (cs : List κ) (ns : List α) : Decidable (Acyclic touch cs ns) :=
  decidable_of_iff _ acyclic_iff_sublists.symm

section Map

variable {β : Type} {touch' : κ → β → Bool} {f : α → β}

theorem degree_map (hf : ∀ c n, touch' c (f n) = touch c n) (c : κ) (ns : List α) :
    degree touch' c (ns.map f) = degree touch c ns := by
  simp only [degree, List.countP_map, Function.comp_def, hf]

theorem reach_map (hf : ∀ c n, touch' c (f n) = touch c n) (S : List κ) (ns : List α) :
    reach touch' S (ns.map f) = reach touch S ns := by
  simp only [reach, List.countP_map, Function.comp_def, hf]

theorem acyclic_map_iff (hf : ∀ c n, touch' c (f n) = touch c n) {cs : List κ} {ns : List α} :
    Acyclic touch' cs (ns.map f) ↔ Acyclic touch cs ns := by
  simp only [Acyclic, degree_map hf, reach_map hf]

theorem spread_map_iff (hf : ∀ c n, touch' c (f n) = touch c n) {cs : List κ} {ns : List α} :
    Spread touch' cs (ns.map f) ↔ Spread touch cs ns := by
  simp only [Spread, reach_map hf]

end Map

/-- Conditions that touch at most two nodes each form a forest when they are spread. -/
theorem Spread.acyclic {cs : List κ} {ns : List α} (h : Spread touch cs ns)
    (htwo : ∀ c ∈ cs, degree touch c ns ≤ 2) : Acyclic touch cs ns := by
  have hdeg : ∀ c ∈ cs, degree touch c ns = 2 := by
    intro c hc
    have hone := h [c] (List.singleton_subperm_iff.mpr hc) (by simp)
    have : reach touch [c] ns = degree touch c ns := by simp [reach, degree]
    have := htwo c hc
    simp only [List.length_singleton] at hone
    omega
  refine ⟨fun c hc => Nat.le_of_eq (hdeg c hc).symm, fun S hS hne => ?_⟩
  have hsum : (S.map fun c => degree touch c ns).sum = S.length * 2 := by
    rw [List.map_congr_left fun c hc => hdeg c (hS.subset hc)]
    simp
  have := h S hS hne
  omega

section Merge

variable {a b m : α} {rest : List α}

/-- `m` is touched by what touches `a` or `b`. -/
def Merges (touch : κ → α → Bool) (a b m : α) : Prop :=
  ∀ d, touch d m = (touch d a || touch d b)

theorem Merges.any (h : Merges touch a b m) (S : List κ) :
    S.any (touch · m) = (S.any (touch · a) || S.any (touch · b)) := by
  induction S with
  | nil => rfl
  | cons d S ih =>
    simp only [List.any_cons, ih, h d]
    cases touch d a <;> cases touch d b <;> simp

theorem Merges.reach_add (h : Merges touch a b m) (rest : List α) (S : List κ) :
    reach touch S (a :: b :: rest) = reach touch S (m :: rest) +
      if S.any (touch · a) && S.any (touch · b) then 1 else 0 := by
  simp only [reach, List.countP_cons, h.any]
  cases S.any (touch · a) <;> cases S.any (touch · b) <;> simp

theorem Merges.degree_add (h : Merges touch a b m) (rest : List α) (d : κ) :
    degree touch d (a :: b :: rest) = degree touch d (m :: rest) +
      if touch d a && touch d b then 1 else 0 := by
  simp only [degree, List.countP_cons, h d]
  cases touch d a <;> cases touch d b <;> simp

/-- Two sets of conditions that both touch `a` and `b` share two of the nodes that they touch. -/
theorem reach_cons_le (rest : List α) {c : κ} {S : List κ} (hc : touch c a = true ∧ touch c b = true)
    (hS : S.any (touch · a) = true ∧ S.any (touch · b) = true) :
    reach touch (c :: S) (a :: b :: rest) + 2 ≤
      degree touch c (a :: b :: rest) + reach touch S (a :: b :: rest) := by
  have hsum := countP_or_add_countP_and (touch c) (fun n => S.any (touch · n)) (a :: b :: rest)
  have hboth : 2 ≤ (a :: b :: rest).countP fun n => touch c n && S.any (touch · n) := by
    simp [hc, hS]
  simp only [reach, degree, List.any_cons] at hsum ⊢
  omega

/-- A contraction keeps the forest. -/
theorem Acyclic.contract {c : κ} {cs : List κ} (h : Acyclic touch (c :: cs) (a :: b :: rest))
    (hc : touch c a = true ∧ touch c b = true) (hm : Merges touch a b m) :
    Acyclic touch cs (m :: rest) := by
  have hsub : ∀ {S : List κ}, S.Subperm cs → S.Subperm (c :: cs) := fun hS =>
    hS.trans (List.sublist_cons_self c cs).subperm
  -- no other condition touches both nodes, so no degree changes
  have hdeg : ∀ d ∈ cs, degree touch d (m :: rest) = degree touch d (a :: b :: rest) := by
    intro d hd
    have hnot : ¬ (touch d a = true ∧ touch d b = true) := by
      intro hboth
      have hle := reach_cons_le rest hc (S := [d]) (by simpa using hboth)
      have hpair : [c, d].Subperm (c :: cs) :=
        List.subperm_cons c |>.mpr (List.singleton_subperm_iff.mpr hd)
      have hcount := h.2 [c, d] hpair (by simp)
      have hone : reach touch [d] (a :: b :: rest) = degree touch d (a :: b :: rest) := by
        simp [reach, degree]
      simp only [List.map_cons, List.map_nil, List.sum_cons, List.sum_nil, List.length_cons,
        List.length_nil] at hcount
      omega
    have hadd := hm.degree_add rest d
    rw [if_neg (by simpa using hnot)] at hadd
    omega
  refine ⟨fun d hd => ?_, fun S hS hne => ?_⟩
  · rw [hdeg d hd]
    exact h.1 d (by simp [hd])
  · have hsum : (S.map fun d => degree touch d (m :: rest)) =
        S.map fun d => degree touch d (a :: b :: rest) :=
      List.map_congr_left fun d hd => hdeg d (hS.subset hd)
    have hadd := hm.reach_add rest S
    rw [hsum]
    by_cases hboth : S.any (touch · a) = true ∧ S.any (touch · b) = true
    · have hle := reach_cons_le rest hc hboth
      have hcount := h.2 (c :: S) ((List.subperm_cons c).mpr hS) (by simp)
      rw [if_pos (by simpa using hboth)] at hadd
      simp only [List.map_cons, List.sum_cons, List.length_cons] at hcount
      omega
    · have hcount := h.2 S (hsub hS) hne
      rw [if_neg (by simpa using hboth)] at hadd
      omega

/-- Merging two nodes spreads nothing. -/
theorem Spread.of_merge {cs : List κ} (h : Spread touch cs (m :: rest))
    (hm : Merges touch a b m) : Spread touch cs (a :: b :: rest) := by
  intro S hS hne
  have := h S hS hne
  have := hm.reach_add rest S
  omega

theorem reach_mono_cons (touch : κ → α → Bool) (c : κ) (S : List κ) (ns : List α) :
    reach touch S ns ≤ reach touch (c :: S) ns := by
  apply List.countP_mono_left
  intro n _ hn
  simp [hn]

/-- A contraction spreads nothing. -/
theorem Spread.of_contract {c : κ} {cs : List κ} (h : Spread touch cs (m :: rest))
    (hc : touch c a = true ∧ touch c b = true) (hm : Merges touch a b m) :
    Spread touch (c :: cs) (a :: b :: rest) := by
  rintro S ⟨T, hT, hsub⟩ hne
  have hreach : reach touch S (a :: b :: rest) = reach touch T (a :: b :: rest) := by
    simp only [reach, hT.any_eq]
  rw [← hT.length_eq, hreach]
  cases hsub with
  | cons _ hsub =>
    have hne' : T ≠ [] := fun h => hne (List.nil_perm.mp (h ▸ hT))
    have := h T hsub.subperm hne'
    have := hm.reach_add rest T
    omega
  | cons_cons _ hsub =>
    next U =>
    have hadd := hm.reach_add rest (c :: U)
    rw [if_pos (by simp [hc])] at hadd
    by_cases hU : U = []
    · have hpos : 0 < reach touch (c :: U) (m :: rest) := by
        simp [reach, hm c, hc]
      simp only [hU, List.length_cons, List.length_nil] at hadd hpos ⊢
      omega
    · have := h U hsub.subperm hU
      have := reach_mono_cons touch c U (m :: rest)
      simp only [List.length_cons]
      omega

end Merge

end Contraction

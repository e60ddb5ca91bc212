import SqlOptimizer.Library.Failure
import Mathlib.Data.List.Perm.Basic
import Mathlib.Data.List.Induction
import Mathlib.Data.Finset.Card

/-! Grouping by a key with a running state for each group.  The groups are kept in the order in
which their keys are first seen. -/

namespace Grouping

variable {ε K S α : Type} [DecidableEq K]

/-- Folds `step` into the state of group `k`, which starts as `init` when the group is new. -/
def upsert (k : K) (init : S) (step : S → Except ε S) : List (K × S) → Except ε (List (K × S))
  | [] => do return [(k, ← step init)]
  | (k', s) :: rest =>
    if k' = k then do return (k', ← step s) :: rest
    else do return (k', s) :: (← upsert k init step rest)

/-- The groups of `items`. -/
def groupFold (key : α → K) (init : α → S) (step : S → α → Except ε S) (items : List α) :
    Except ε (List (K × S)) :=
  items.foldlM (fun groups a => upsert (key a) (init a) (fun s => step s a) groups) []

/-- The members of group `k`. -/
def members (key : α → K) (items : List α) (k : K) : List α := items.filter fun a => key a = k

/-- What the fold of a group starts from: its first member. -/
def foldGroup (init : α → S) (step : S → α → Except ε S) : List α → Option (Except ε S)
  | [] => none
  | a :: as => some ((a :: as).foldlM step (init a))

/-- The groups hold the states of their members, one group for each key that occurs. -/
structure Groups (key : α → K) (init : α → S) (step : S → α → Except ε S) (items : List α)
    (gs : List (K × S)) : Prop where
  nodup : (gs.map (·.1)).Nodup
  keys : ∀ k, k ∈ gs.map (·.1) ↔ ∃ a ∈ items, key a = k
  states : ∀ g ∈ gs, foldGroup init step (members key items g.1) = some (.ok g.2)

/-- An update changes the one group of its key, or adds it at the end. -/
theorem upsert_eq_ok {k : K} {init : S} {step : S → Except ε S} {gs gs' : List (K × S)}
    (h : upsert k init step gs = .ok gs') :
    (∃ pre s s' post, gs = pre ++ (k, s) :: post ∧ step s = .ok s' ∧
        gs' = pre ++ (k, s') :: post) ∨
      (k ∉ gs.map (·.1) ∧ ∃ s', step init = .ok s' ∧ gs' = gs ++ [(k, s')]) := by
  induction gs generalizing gs' with
  | nil =>
    obtain ⟨s', hs', h⟩ := Except.bind_eq_ok.mp h
    cases h
    exact .inr ⟨by simp, s', hs', rfl⟩
  | cons g gs ih =>
    obtain ⟨k', s⟩ := g
    unfold upsert at h
    split at h
    case isTrue heq =>
      subst heq
      obtain ⟨s', hs', h⟩ := Except.bind_eq_ok.mp h
      cases h
      exact .inl ⟨[], s, s', gs, rfl, hs', rfl⟩
    case isFalse hne =>
      obtain ⟨rest, hrest, h⟩ := Except.bind_eq_ok.mp h
      cases h
      rcases ih hrest with ⟨pre, s₀, s', post, rfl, hs', rfl⟩ | ⟨hnot, s', hs', rfl⟩
      · exact .inl ⟨(k', s) :: pre, s₀, s', post, rfl, hs', rfl⟩
      · refine .inr ⟨?_, s', hs', rfl⟩
        simp only [List.map_cons, List.mem_cons, not_or]
        exact ⟨fun h => hne h.symm, hnot⟩

theorem upsert_ok {k : K} {init : S} {step : S → Except ε S} {gs : List (K × S)}
    (hinit : k ∉ gs.map (·.1) → ∃ s', step init = .ok s')
    (hstep : ∀ s, (k, s) ∈ gs → ∃ s', step s = .ok s') : ∃ gs', upsert k init step gs = .ok gs' := by
  induction gs with
  | nil =>
    obtain ⟨s', hs'⟩ := hinit (by simp)
    exact ⟨[(k, s')], by simp [upsert, hs']⟩
  | cons g gs ih =>
    obtain ⟨k', s⟩ := g
    unfold upsert
    by_cases heq : k' = k
    · subst heq
      obtain ⟨s', hs'⟩ := hstep s (by simp)
      exact ⟨(k', s') :: gs, by simp [hs']⟩
    · obtain ⟨gs', hgs'⟩ := ih
        (fun hnot => hinit (by simpa [hnot] using fun h => heq h.symm))
        (fun s₀ hs₀ => hstep s₀ (by simp [hs₀]))
      exact ⟨(k', s) :: gs', by simp [heq, hgs']⟩

/-- Of two keys with as many values, one that determines the other is determined by it. -/
theorem eq_of_card_eq {K' : Type} [DecidableEq K'] [DecidableEq α] {f : α → K} {g : α → K'}
    (items : Finset α)
    (hfg : ∀ a ∈ items, ∀ b ∈ items, f a = f b → g a = g b)
    (hcard : (items.image f).card = (items.image g).card) :
    ∀ a ∈ items, ∀ b ∈ items, g a = g b → f a = f b := by
  have hfst : ((items.image fun a => (f a, g a)).image Prod.fst) = items.image f := by
    rw [Finset.image_image]
    rfl
  have hsnd : ((items.image fun a => (f a, g a)).image Prod.snd) = items.image g := by
    rw [Finset.image_image]
    rfl
  have hpairs : (items.image fun a => (f a, g a)).card = (items.image f).card := by
    rw [← hfst]
    refine (Finset.card_image_of_injOn fun p hp q hq heq => ?_).symm
    obtain ⟨a, ha, rfl⟩ := Finset.mem_image.mp hp
    obtain ⟨b, hb, rfl⟩ := Finset.mem_image.mp hq
    exact Prod.ext heq (hfg a ha b hb heq)
  have hinj := Finset.card_image_iff.mp ((congrArg Finset.card hsnd).trans
    (hcard.symm.trans hpairs.symm))
  intro a ha b hb heq
  exact congrArg Prod.fst (hinj (Finset.mem_image_of_mem _ ha) (Finset.mem_image_of_mem _ hb) heq)

section Fold

variable {key : α → K} {init : α → S} {step : S → α → Except ε S}

theorem members_append_singleton (items : List α) (a : α) (k : K) :
    members key (items ++ [a]) k = if key a = k then members key items k ++ [a]
      else members key items k := by
  simp only [members, List.filter_append, List.filter_cons, List.filter_nil]
  split <;> simp_all

theorem foldGroup_append {as : List α} {a : α} {s s' : S}
    (h : foldGroup init step as = some (.ok s)) (ha : step s a = .ok s') :
    foldGroup init step (as ++ [a]) = some (.ok s') := by
  cases as with
  | nil => cases h
  | cons b bs =>
    simp only [foldGroup, Option.some.injEq, List.cons_append] at h ⊢
    rw [← List.cons_append, List.foldlM_append, h]
    simp [ha]

theorem groups_nil : Groups key init step [] [] := by
  refine ⟨by simp, by simp, by simp⟩

/-- One more item. -/
theorem Groups.snoc {items : List α} {gs gs' : List (K × S)} {a : α}
    (h : Groups key init step items gs)
    (hup : upsert (key a) (init a) (fun s => step s a) gs = .ok gs') :
    Groups key init step (items ++ [a]) gs' := by
  -- the members of the other groups do not change
  have hother : ∀ g ∈ gs, g.1 ≠ key a →
      foldGroup init step (members key (items ++ [a]) g.1) = some (.ok g.2) := by
    intro g hg hne
    rw [members_append_singleton, if_neg fun heq => hne heq.symm]
    exact h.states g hg
  rcases upsert_eq_ok hup with ⟨pre, s, s', post, rfl, hs', rfl⟩ | ⟨hnot, s', hs', rfl⟩
  · have hkeys : (pre ++ (key a, s') :: post).map (·.1) =
        (pre ++ (key a, s) :: post).map (·.1) := by simp
    have hnodup := h.nodup
    rw [List.map_append, List.map_cons, List.nodup_append] at hnodup
    obtain ⟨-, hpost, hdisj⟩ := hnodup
    rw [List.nodup_cons] at hpost
    refine ⟨hkeys ▸ h.nodup, ?_, ?_⟩
    · intro k
      rw [hkeys, h.keys k]
      constructor
      · rintro ⟨b, hb, hk⟩
        exact ⟨b, by simp [hb], hk⟩
      · rintro ⟨b, hb, hk⟩
        rcases List.mem_append.mp hb with hb | hb
        · exact ⟨b, hb, hk⟩
        · rw [List.mem_singleton.mp hb] at hk
          exact (h.keys k).mp (by simp [hk])
    · intro g hg
      rcases List.mem_append.mp hg with hg | hg
      · refine hother g (by simp [hg]) fun heq => ?_
        exact hdisj g.1 (List.mem_map_of_mem hg) (key a) (by simp) heq
      · rcases List.mem_cons.mp hg with rfl | hg
        · rw [members_append_singleton, if_pos rfl]
          exact foldGroup_append (h.states (key a, s) (by simp)) hs'
        · refine hother g (by simp [hg]) fun heq => ?_
          have hmem := List.mem_map_of_mem (f := (·.1)) hg
          exact hpost.1 (heq ▸ hmem)
  · have hnone : members key items (key a) = [] := by
      rw [members, List.filter_eq_nil_iff]
      intro b hb hk
      exact hnot ((h.keys _).mpr ⟨b, hb, by simpa using hk⟩)
    refine ⟨?_, ?_, ?_⟩
    · rw [List.map_append, List.nodup_append]
      exact ⟨h.nodup, by simp, fun x hx y hy hxy => hnot (by simp_all)⟩
    · intro k
      rw [List.map_append, List.mem_append, h.keys k]
      constructor
      · rintro (⟨b, hb, hk⟩ | hk)
        · exact ⟨b, by simp [hb], hk⟩
        · exact ⟨a, by simp, by simpa [eq_comm] using hk⟩
      · rintro ⟨b, hb, hk⟩
        rcases List.mem_append.mp hb with hb | hb
        · exact .inl ⟨b, hb, hk⟩
        · rw [List.mem_singleton.mp hb] at hk
          exact .inr (by simp [hk])
    · intro g hg
      rcases List.mem_append.mp hg with hg | hg
      · exact hother g hg fun heq => hnot (heq ▸ List.mem_map_of_mem hg)
      · rw [List.mem_singleton.mp hg, members_append_singleton, if_pos rfl, hnone]
        simp [foldGroup, hs']

theorem groupFold_append (items : List α) (a : α) :
    groupFold key init step (items ++ [a]) =
      groupFold key init step items >>= upsert (key a) (init a) fun s => step s a := by
  simp [groupFold, List.foldlM_append]

theorem groupFold_groups {items : List α} {gs : List (K × S)}
    (h : groupFold key init step items = .ok gs) : Groups key init step items gs := by
  induction items using List.reverseRecOn generalizing gs with
  | nil =>
    cases h
    exact groups_nil
  | append_singleton items a ih =>
    rw [groupFold_append] at h
    obtain ⟨gs₀, h₀, hup⟩ := Except.bind_eq_ok.mp h
    exact (ih h₀).snoc hup

/-- The fold succeeds when the fold of each group does. -/
theorem groupFold_ok {items : List α}
    (h : ∀ k, ∀ r ∈ foldGroup init step (members key items k), ∃ s, r = .ok s) :
    ∃ gs, groupFold key init step items = .ok gs := by
  induction items using List.reverseRecOn with
  | nil => exact ⟨[], rfl⟩
  | append_singleton items a ih =>
    -- a group whose longer fold succeeds had a state before
    have hbefore : ∀ k, ∀ r ∈ foldGroup init step (members key items k), ∃ s, r = .ok s := by
      intro k r hr
      have hk := h k
      rw [members_append_singleton] at hk
      split at hk
      · cases hm : members key items k with
        | nil => simp [hm, foldGroup] at hr
        | cons b bs =>
          simp only [hm, foldGroup, Option.mem_def, Option.some.injEq, List.cons_append] at hr hk
          rw [← List.cons_append] at hk
          obtain ⟨s, hs⟩ := hk _ rfl
          rw [List.foldlM_append] at hs
          obtain ⟨s₀, hs₀, -⟩ := Except.bind_eq_ok.mp hs
          exact ⟨s₀, hr ▸ hs₀⟩
      · exact hk r hr
    obtain ⟨gs, hgs⟩ := ih hbefore
    have hgroups := groupFold_groups hgs
    have hk := h (key a)
    rw [members_append_singleton, if_pos rfl] at hk
    have hup : ∃ gs', upsert (key a) (init a) (fun s => step s a) gs = .ok gs' := by
      apply upsert_ok
      · intro hnot
        have hnone : members key items (key a) = [] := by
          rw [members, List.filter_eq_nil_iff]
          intro b hb hkb
          exact hnot ((hgroups.keys _).mpr ⟨b, hb, by simpa using hkb⟩)
        rw [hnone] at hk
        obtain ⟨s, hs⟩ := hk _ rfl
        exact ⟨s, by simpa using hs⟩
      · intro s hs
        have hstate := hgroups.states _ hs
        cases hm : members key items (key a) with
        | nil => simp [hm, foldGroup] at hstate
        | cons b bs =>
          simp only [hm, foldGroup, Option.some.injEq, List.cons_append] at hstate hk
          rw [← List.cons_append] at hk
          obtain ⟨s', hs'⟩ := hk _ rfl
          rw [List.foldlM_append, hstate] at hs'
          exact ⟨s', by simpa using hs'⟩
    obtain ⟨gs', hgs'⟩ := hup
    exact ⟨gs', by rw [groupFold_append, hgs]; exact hgs'⟩

/-- A new key leaves the groups before it alone. -/
theorem upsert_append {k : K} {init : S} {step : S → Except ε S} {ga gb : List (K × S)}
    (hk : k ∉ ga.map (·.1)) :
    upsert k init step (ga ++ gb) = (do return ga ++ (← upsert k init step gb)) := by
  induction ga with
  | nil => simp
  | cons g ga ih =>
    obtain ⟨k', s⟩ := g
    rw [List.map_cons, List.mem_cons, not_or] at hk
    rw [List.cons_append, upsert, if_neg fun h => hk.1 h.symm, ih hk.2]
    cases upsert k init step gb <;> rfl

/-- Items without a common key are grouped apart. -/
theorem groupFold_append_of_disjoint {as bs : List α}
    (hdisj : ∀ a ∈ as, ∀ b ∈ bs, key a ≠ key b) :
    groupFold key init step (as ++ bs) = (do
      let ga ← groupFold key init step as
      let gb ← groupFold key init step bs
      return ga ++ gb) := by
  cases hga : groupFold key init step as with
  | error e =>
    rw [groupFold, List.foldlM_append, ← groupFold, hga]
    rfl
  | ok ga =>
    rw [Except.ok_bind]
    induction bs using List.reverseRecOn with
    | nil => simp [groupFold, ← hga]
    | append_singleton bs b ih =>
      have hnew : key b ∉ ga.map (·.1) := by
        intro h
        obtain ⟨a, ha, hab⟩ := ((groupFold_groups hga).keys _).mp h
        exact hdisj a ha b (by simp) hab
      rw [← List.append_assoc, groupFold_append, groupFold_append,
        ih fun a ha b hb => hdisj a ha b (by simp [hb])]
      cases groupFold key init step bs with
      | error e => rfl
      | ok gb =>
        simp only [Except.ok_bind, Except.pure_eq_ok]
        exact upsert_append hnew

/-- Parts without a common key are grouped apart. -/
theorem groupFold_flatMap_of_disjoint {ι : Type} {is : List ι} {f : ι → List α}
    (hdisj : is.Pairwise fun i j => ∀ a ∈ f i, ∀ b ∈ f j, key a ≠ key b) :
    groupFold key init step (is.flatMap f) = (do
      return (← is.mapM fun i => groupFold key init step (f i)).flatten) := by
  induction is with
  | nil => rfl
  | cons i is ih =>
    rw [List.pairwise_cons] at hdisj
    rw [List.flatMap_cons, groupFold_append_of_disjoint, ih hdisj.2, List.mapM_cons]
    · cases groupFold key init step (f i) with
      | error e => rfl
      | ok gi => cases is.mapM fun i => groupFold key init step (f i) <;> rfl
    · intro a ha b hb
      obtain ⟨j, hj, hb⟩ := List.mem_flatMap.mp hb
      exact hdisj.1 j hj a ha b hb

end Fold

/-! ### Several accumulators side by side -/

section Parallel

variable {P A R : Type}

theorem mapM_zip_map (f : P → A → Except ε A) (F : P → A) (ps : List P) :
    (ps.zip (ps.map F)).mapM (fun p => f p.1 p.2) = ps.mapM fun p => f p (F p) := by
  induction ps with
  | nil => rfl
  | cons p ps ih =>
    rw [List.map_cons, List.zip_cons_cons, List.mapM_cons, List.mapM_cons, ih]

/-- One accumulator for each of `ps`, all fed the same items, as so many separate folds. -/
theorem foldlM_parallel (step : P → A → R → Except ε A) {ps : List P} {rows : List R}
    {F : P → A} {out : List A} :
    rows.foldlM (fun accs r => (ps.zip accs).mapM fun p => step p.1 p.2 r) (ps.map F) = .ok out ↔
      ps.mapM (fun p => rows.foldlM (step p) (F p)) = .ok out := by
  induction rows generalizing F with
  | nil =>
    simp only [List.foldlM_nil, Except.pure_eq_ok]
    rw [Except.mapM_eq_ok_map (g := F) fun p _ => rfl]
  | cons r rows ih =>
    simp only [List.foldlM_cons, mapM_zip_map (fun p a => step p a r)]
    -- the results of one item, where all of them succeed, are again a function of `ps`
    by_cases hall : ∀ p ∈ ps, ∃ a, step p (F p) r = .ok a
    · have hF : ∀ p ∈ ps, step p (F p) r = .ok ((step p (F p) r).toOption.getD (F p)) := by
        intro p hp
        obtain ⟨a, ha⟩ := hall p hp
        simp [ha, Except.toOption]
      have hrest : ps.mapM (fun p => step p (F p) r >>= fun a => rows.foldlM (step p) a) =
          ps.mapM fun p => rows.foldlM (step p) ((step p (F p) r).toOption.getD (F p)) := by
        apply Except.mapM_congr
        intro p hp
        rw [hF p hp]
        rfl
      rw [Except.mapM_eq_ok_map hF, Except.ok_bind, ih, hrest]
    · refine iff_of_false (fun h => hall fun p hp => ?_) fun h => hall fun p hp => ?_
      · obtain ⟨accs, haccs, -⟩ := Except.bind_eq_ok.mp h
        exact Except.ok_of_mapM_eq_ok haccs hp
      · obtain ⟨b, hb⟩ := Except.ok_of_mapM_eq_ok h hp
        obtain ⟨a, ha, -⟩ := Except.bind_eq_ok.mp hb
        exact ⟨a, ha⟩

/-- A fold that changes one field of its state only. -/
theorem foldlM_field (f : A → R → Except ε A) (get : S → A) (put : S → A → S)
    (hget : ∀ s a, get (put s a) = a) (hput : ∀ s a b, put (put s a) b = put s b)
    (hsame : ∀ s, put s (get s) = s) {rows : List R} {s s' : S} :
    rows.foldlM (fun s r => do return put s (← f (get s) r)) s = .ok s' ↔
      ∃ a, rows.foldlM f (get s) = .ok a ∧ s' = put s a := by
  induction rows generalizing s with
  | nil => simp [hsame, @eq_comm _ s']
  | cons r rows ih =>
    rw [List.foldlM_cons, List.foldlM_cons]
    cases hf : f (get s) r with
    | error e => simp
    | ok a =>
      refine (ih (s := put s a)).trans ?_
      simp only [hget, hput, Except.ok_bind]

end Parallel

end Grouping

import SqlOptimizer.Library.Extreme
import SqlOptimizer.Library.Machine
import Mathlib.Algebra.Order.Field.Rat
import Mathlib.Data.List.AList
import Mathlib.Tactic.FieldSimp
import Mathlib.Tactic.Ring

/-! `adaptive/bandit.cpp`: an epsilon-greedy choice between strategies, by the average reward that
each has had in its context.  The source computes with `double`; the model computes in any
arithmetic, and its results on choices are about exact arithmetic in an ordered field.  The draws of
the random generator are given from outside. -/

namespace SqlOptimizer.Adaptive

/-- The arithmetic of the rewards. -/
class Arithmetic (K : Type) where
  zero : K
  ofNat : Nat → K
  add : K → K → K
  mul : K → K → K
  div : K → K → K
  neg : K → K
  lt : K → K → Bool

/-- Exact arithmetic. -/
@[reducible] instance exactArithmetic {K : Type} [Field K] [LinearOrder K] : Arithmetic K where
  zero := 0
  ofNat n := n
  add x y := x + y
  mul x y := x * y
  div x y := x / y
  neg x := -x
  lt x y := decide (x < y)

@[simp] theorem zero_exact {K : Type} [Field K] [LinearOrder K] : (Arithmetic.zero : K) = 0 := rfl

@[simp] theorem lt_exact {K : Type} [Field K] [LinearOrder K] (x y : K) :
    Arithmetic.lt x y = decide (x < y) := rfl

variable {K : Type}

/-- `BanditModel::ArmStats` -/
structure ArmStats (K : Type) where
  count : Nat
  averageReward : K

abbrev ArmTable (K : Type) := AList fun _ : String => ArmStats K

/-- The model without its random generator. -/
structure BanditModel (K : Type) where
  epsilon : K
  stats : AList fun _ : String => ArmTable K

/-- A model that has learned nothing. -/
def newBandit (epsilon : K) : BanditModel K := ⟨epsilon, ∅⟩

/-- What one choice draws: a number from the unit interval, and an index among the arms. -/
structure Draws (K : Type) where
  unit : K
  pick : Nat

section

variable [Arithmetic K]

namespace BanditModel

/-- `stats_[context]` -/
def contextStats (model : BanditModel K) (context : String) : ArmTable K :=
  (model.stats.lookup context).getD ∅

/-- `stats_[context][arm]` -/
def armStats (model : BanditModel K) (context arm : String) : ArmStats K :=
  ((model.contextStats context).lookup arm).getD ⟨0, Arithmetic.zero⟩

/-- One round of the loop over the arms, with the best arm so far and its reward. -/
def better (stats : ArmTable K) (best : Option (String × K)) (arm : String) : Option (String × K) :=
  match stats.lookup arm with
  | none => best
  | some s =>
    if s.count = 0 then best
    else
      match best with
      | none => some (arm, s.averageReward)
      | some (b, bestReward) =>
        if Arithmetic.lt bestReward s.averageReward then some (arm, s.averageReward)
        else some (b, bestReward)

def choose (model : BanditModel K) (context : String) (arms : List String) (draws : Draws K) :
    String × BanditModel K :=
  let contextStats := model.contextStats context
  let model := { model with stats := model.stats.insert context contextStats }
  let explore := Arithmetic.lt draws.unit model.epsilon
  match if explore then none else arms.foldl (better contextStats) none with
  | some best => (best.1, model)
  | none => (arms.getD draws.pick "", model)

def update (model : BanditModel K) (context arm : String) (reward : K) : BanditModel K :=
  let s := model.armStats context arm
  let sum := Arithmetic.add (Arithmetic.mul s.averageReward (Arithmetic.ofNat s.count)) reward
  let s : ArmStats K := ⟨s.count + 1, Arithmetic.div sum (Arithmetic.ofNat (s.count + 1))⟩
  { model with stats :=
      model.stats.insert context ((model.contextStats context).insert arm s) }

end BanditModel

/-! ### Runs -/

inductive BanditEvent (K : Type) where
  | choose (context : String) (arms : List String) (draws : Draws K)
  | update (context arm : String) (reward : K)

/-- A model that answers the choices. -/
def banditStep : Machine (BanditModel K) (BanditEvent K) (Option String)
  | model, .choose context arms draws =>
    let (arm, model) := model.choose context arms draws
    (some arm, model)
  | model, .update context arm reward => (none, model.update context arm reward)

variable {model : BanditModel K} {context context' arm arm' : String} {reward : K}

theorem stats_choose (model : BanditModel K) (context : String) (arms : List String)
    (draws : Draws K) : (model.choose context arms draws).2.stats =
      model.stats.insert context (model.contextStats context) := by
  unfold BanditModel.choose
  dsimp only
  split <;> rfl

theorem armStats_choose (arms : List String) (draws : Draws K) :
    (model.choose context arms draws).2.armStats context' arm = model.armStats context' arm := by
  unfold BanditModel.armStats BanditModel.contextStats
  rw [stats_choose]
  by_cases h : context' = context
  · rw [h, AList.lookup_insert]
    rfl
  · rw [AList.lookup_insert_ne h]

theorem armStats_update_ne (h : ¬ (context = context' ∧ arm = arm')) :
    (model.update context arm reward).armStats context' arm' = model.armStats context' arm' := by
  unfold BanditModel.update BanditModel.armStats BanditModel.contextStats
  by_cases hc : context' = context
  · subst hc
    have ha : arm' ≠ arm := fun ha => h ⟨rfl, ha.symm⟩
    simp only [AList.lookup_insert, Option.getD_some, AList.lookup_insert_ne ha]
  · simp only [AList.lookup_insert_ne hc]

theorem epsilon_choose (model : BanditModel K) (context : String) (arms : List String)
    (draws : Draws K) : (model.choose context arms draws).2.epsilon = model.epsilon := by
  unfold BanditModel.choose
  dsimp only
  split <;> rfl

theorem epsilon_after (model : BanditModel K) (events : List (BanditEvent K)) :
    (banditStep.after model events).epsilon = model.epsilon := by
  refine Machine.after_keeps (P := fun m : BanditModel K => m.epsilon = model.epsilon)
    (fun m event h => ?_) rfl events
  cases event with
  | choose c arms draws => exact (epsilon_choose m c arms draws).trans h
  | update => exact h

/-! ### The greedy choice -/

/-- An arm that had a reward, with its average. -/
def candidate (stats : ArmTable K) (arm : String) : Option (String × K) :=
  match stats.lookup arm with
  | none => none
  | some s => if s.count = 0 then none else some (arm, s.averageReward)

/-- The loop keeps the first of the greatest averages. -/
theorem foldl_better (stats : ArmTable K) (arms : List String) :
    arms.foldl (BanditModel.better stats) none =
      Extreme.extreme (fun a b => Arithmetic.lt b.2 a.2) (arms.filterMap (candidate stats)) := by
  rw [Extreme.extreme, List.foldl_filterMap]
  congr 1
  funext best arm
  unfold BanditModel.better candidate
  rcases stats.lookup arm with _ | s
  · rfl
  dsimp only
  split
  · rfl
  · rcases best with _ | ⟨b, bestReward⟩ <;> simp [Extreme.keep]

theorem choose_fst (model : BanditModel K) (context : String) (arms : List String)
    (draws : Draws K) : (model.choose context arms draws).1 =
      match if Arithmetic.lt draws.unit model.epsilon then none
        else arms.foldl (BanditModel.better (model.contextStats context)) none with
      | some best => best.1
      | none => arms.getD draws.pick "" := by
  unfold BanditModel.choose
  dsimp only
  generalize (if Arithmetic.lt draws.unit model.epsilon then none
    else arms.foldl (BanditModel.better (model.contextStats context)) none) = best
  rcases best with _ | best <;> rfl

theorem choose_mem (model : BanditModel K) (context : String) (arms : List String)
    {draws : Draws K} (hpick : draws.pick < arms.length) :
    (model.choose context arms draws).1 ∈ arms := by
  have hdrawn : arms.getD draws.pick "" ∈ arms := by
    rw [List.getD_eq_getElem?_getD, List.getElem?_eq_getElem hpick, Option.getD_some]
    exact List.getElem_mem hpick
  rw [choose_fst, foldl_better]
  split
  case h_2 => exact hdrawn
  case h_1 best hbest =>
    split at hbest
    · cases hbest
    · obtain ⟨arm, harm, hcandidate⟩ := List.mem_filterMap.mp (Extreme.extreme_mem hbest)
      unfold candidate at hcandidate
      split at hcandidate
      · cases hcandidate
      · split at hcandidate
        · cases hcandidate
        · cases hcandidate
          exact harm

end

/-! ### Rewards -/

/-- The reward of an event, if it is one of this arm in this context. -/
def BanditEvent.reward (context arm : String) : BanditEvent K → Option K
  | .choose _ _ _ => none
  | .update c a reward => if c = context ∧ a = arm then some reward else none

/-- The rewards of an arm in a context. -/
def rewardsOf (context arm : String) (events : List (BanditEvent K)) : List K :=
  events.filterMap (BanditEvent.reward context arm)

variable [Field K]

/-- The mean of some numbers; 0 if there are none. -/
def mean (xs : List K) : K := xs.sum / (xs.length : K)

/-- The count and the average are those of the rewards. -/
def Summarizes (s : ArmStats K) (rewards : List K) : Prop :=
  s.count = rewards.length ∧ s.averageReward = mean rewards

section

variable [LinearOrder K] {model : BanditModel K} {context arm : String} {reward : K}

theorem armStats_update_self : (model.update context arm reward).armStats context arm =
    ⟨(model.armStats context arm).count + 1, ((model.armStats context arm).averageReward *
      (model.armStats context arm).count + reward) / ((model.armStats context arm).count + 1 : Nat)⟩ := by
  unfold BanditModel.update BanditModel.armStats BanditModel.contextStats
  simp only [AList.lookup_insert, Option.getD_some]
  rfl

variable [IsStrictOrderedRing K]

/-- The running average of one more reward. -/
theorem mean_concat (rewards : List K) (reward : K) : mean (rewards ++ [reward]) =
    (mean rewards * (rewards.length : Nat) + reward) / (rewards.length + 1 : Nat) := by
  have hnext : ((rewards.length + 1 : Nat) : K) ≠ 0 := Nat.cast_ne_zero.mpr (by omega)
  unfold mean
  rw [List.sum_append, List.sum_singleton, List.length_append, List.length_singleton]
  rcases Nat.eq_zero_or_pos rewards.length with hnone | hsome
  · rw [List.length_eq_zero_iff.mp hnone]
    simp
  · have hlength : (rewards.length : K) ≠ 0 := Nat.cast_ne_zero.mpr (by omega)
    rw [div_mul_cancel₀ _ hlength]

theorem Summarizes.update {s : ArmStats K} {rewards : List K} (h : Summarizes s rewards)
    (reward : K) : Summarizes
      ⟨s.count + 1, (s.averageReward * s.count + reward) / (s.count + 1 : Nat)⟩
      (rewards ++ [reward]) := by
  obtain ⟨hcount, haverage⟩ := h
  refine ⟨by simp [hcount], ?_⟩
  dsimp only
  rw [mean_concat, hcount, haverage]

end

variable [LinearOrder K] [IsStrictOrderedRing K]

omit [Field K] [LinearOrder K] [IsStrictOrderedRing K] in
theorem rewardsOf_concat (context arm : String) (events : List (BanditEvent K))
    (event : BanditEvent K) : rewardsOf context arm (events ++ [event]) =
      rewardsOf context arm events ++ (event.reward context arm).toList := by
  rw [rewardsOf, List.filterMap_append]
  cases h : event.reward context arm <;> simp [rewardsOf, h]

/-- After a run from a new model, each arm has the count and the mean of its rewards; neither the
choices nor the other arms and contexts matter. -/
theorem summarizes_run (epsilon : K) (events : List (BanditEvent K)) (context arm : String) :
    Summarizes ((banditStep.after (newBandit epsilon) events).armStats context arm)
      (rewardsOf context arm events) := by
  induction events using List.reverseRecOn with
  | nil => exact ⟨rfl, by simp [rewardsOf, mean, newBandit, BanditModel.armStats,
      BanditModel.contextStats]⟩
  | append_singleton events event ih =>
    rw [Machine.after_append, rewardsOf_concat]
    cases event with
    | choose c arms draws =>
      show Summarizes ((BanditModel.choose _ c arms draws).2.armStats context arm) _
      rw [armStats_choose, BanditEvent.reward, Option.toList_none, List.append_nil]
      exact ih
    | update c a reward =>
      show Summarizes ((BanditModel.update _ c a reward).armStats context arm) _
      rw [BanditEvent.reward]
      by_cases h : c = context ∧ a = arm
      · obtain ⟨rfl, rfl⟩ := h
        rw [armStats_update_self, if_pos ⟨rfl, rfl⟩]
        exact ih.update reward
      · rw [armStats_update_ne h, if_neg h, Option.toList_none, List.append_nil]
        exact ih

/-! ### Exact arithmetic -/

/-- `arm` is the first of the arms with the greatest mean reward, of those that had one. -/
def FirstBest (rewards : String → List K) (arms : List String) (arm : String) : Prop :=
  rewards arm ≠ [] ∧ ∃ before after, arms = before ++ arm :: after ∧
    (∀ a ∈ before, rewards a ≠ [] → mean (rewards a) < mean (rewards arm)) ∧
    ∀ a ∈ after, rewards a ≠ [] → mean (rewards a) ≤ mean (rewards arm)

section

variable {model : BanditModel K} {context : String} {rewards : String → List K}

omit [IsStrictOrderedRing K] in
/-- The candidates are the arms with a reward, each with its mean. -/
theorem candidate_eq (h : ∀ arm, Summarizes (model.armStats context arm) (rewards arm))
    (arm : String) : candidate (model.contextStats context) arm =
      if rewards arm = [] then none else some (arm, mean (rewards arm)) := by
  obtain ⟨hcount, haverage⟩ := h arm
  unfold BanditModel.armStats at hcount haverage
  unfold candidate
  rcases hs : (model.contextStats context).lookup arm with _ | s
  · rw [hs] at hcount
    rw [if_pos (List.length_eq_zero_iff.mp hcount.symm)]
  · rw [hs] at hcount haverage
    rw [Option.getD_some] at hcount haverage
    dsimp only
    rw [hcount, haverage]
    simp only [List.length_eq_zero_iff]

omit [IsStrictOrderedRing K] in
/-- Without exploration a model that knows a reward of one of the arms takes the first arm of
greatest mean reward; otherwise it takes the arm that was drawn. -/
theorem choose_summarizes (h : ∀ arm, Summarizes (model.armStats context arm) (rewards arm))
    (arms : List String) {draws : Draws K} (hpick : draws.pick < arms.length) :
    if model.epsilon ≤ draws.unit ∧ ∃ a ∈ arms, rewards a ≠ [] then
      FirstBest rewards arms (model.choose context arms draws).1
    else arms[draws.pick]? = some (model.choose context arms draws).1 := by
  have hdrawn : arms[draws.pick]? = some (arms.getD draws.pick "") := by
    rw [List.getD_eq_getElem?_getD, List.getElem?_eq_getElem hpick, Option.getD_some]
  have hcandidate := candidate_eq h
  generalize harm : (model.choose context arms draws).1 = arm
  rw [choose_fst, foldl_better] at harm
  simp only [lt_exact, decide_eq_true_eq] at harm
  by_cases hexplore : draws.unit < model.epsilon
  · rw [if_neg fun hexploit => absurd hexploit.1 (not_le.mpr hexplore), ← harm, if_pos hexplore]
    exact hdrawn
  rw [if_neg hexplore] at harm
  rcases hbest : Extreme.extreme (fun a b => decide (b.2 < a.2))
      (arms.filterMap (candidate (model.contextStats context))) with _ | ⟨best, reward⟩
  · -- no arm had a reward
    have hnone := List.filterMap_eq_nil_iff.mp (Extreme.extreme_eq_none.mp hbest)
    rw [hbest] at harm
    rw [if_neg, ← harm]
    · exact hdrawn
    · rintro ⟨-, a, ha, hrewards⟩
      have := hnone a ha
      rw [hcandidate, if_neg hrewards] at this
      cases this
  · obtain ⟨l1, l2, hsplit, hbefore, hafter⟩ :=
      Extreme.extreme_split (Extreme.ordered_key Prod.snd _) hbest
    obtain ⟨before, rest, rfl, rfl, hrest⟩ := List.filterMap_eq_append_iff.mp hsplit
    obtain ⟨skipped, a, after, rfl, hskipped, ha, rfl⟩ := List.filterMap_eq_cons_iff.mp hrest
    have hcandidates : ∀ a, rewards a ≠ [] →
        candidate (model.contextStats context) a = some (a, mean (rewards a)) :=
      fun a h => (hcandidate a).trans (if_neg h)
    obtain ⟨hne, hpair⟩ : rewards a ≠ [] ∧ (best, reward) = (a, mean (rewards a)) := by
      rw [hcandidate] at ha
      split at ha
      case isTrue => cases ha
      case isFalse hne => exact ⟨hne, (Option.some.inj ha).symm⟩
    obtain ⟨rfl, rfl⟩ := Prod.mk.inj hpair
    rw [hbest] at harm
    rw [if_pos ⟨not_lt.mp hexplore, best, by simp, hne⟩, ← harm]
    refine ⟨hne, before ++ skipped, after, by simp, fun a ha h => ?_, fun a ha h => ?_⟩
    · rcases List.mem_append.mp ha with ha | ha
      · exact of_decide_eq_true (hbefore _ (List.mem_filterMap.mpr ⟨a, ha, hcandidates a h⟩))
      · have := hskipped a ha
        rw [hcandidates a h] at this
        cases this
    · have := hafter _ (List.mem_filterMap.mpr ⟨a, ha, hcandidates a h⟩)
      exact not_lt.mp (of_decide_eq_false this)

end

/-- After any run of choices and updates, a choice without exploration takes the first arm of
greatest mean reward in its context; with exploration, or before any reward, the arm that was
drawn. -/
theorem choose_run (epsilon : K) (events : List (BanditEvent K)) (context : String)
    (arms : List String) (draws : Draws K) (hpick : draws.pick < arms.length) :
    let rewards := fun arm => rewardsOf context arm events
    let arm := ((banditStep.after (newBandit epsilon) events).choose context arms draws).1
    if epsilon ≤ draws.unit ∧ ∃ a ∈ arms, rewards a ≠ [] then FirstBest rewards arms arm
    else arms[draws.pick]? = some arm := by
  have hchoose := choose_summarizes (summarizes_run epsilon events context) arms hpick
  rw [epsilon_after] at hchoose
  exact hchoose

/-- After one reward the greedy choice is between two arms. -/
theorem choose_run_one :
    let events : List (BanditEvent ℚ) := [.update "a:b" "shuffle" (-3)]
    let rewards := fun arm => rewardsOf "a:b" arm events
    let arm := ((banditStep.after (newBandit (1 / 10)) events).choose "a:b"
      ["broadcast", "shuffle"] ⟨1 / 2, 0⟩).1
    if 1 / 10 ≤ (1 / 2 : ℚ) ∧ ∃ a ∈ ["broadcast", "shuffle"], rewards a ≠ [] then
      FirstBest rewards ["broadcast", "shuffle"] arm
    else ["broadcast", "shuffle"][0]? = some arm :=
  choose_run (1 / 10) _ "a:b" ["broadcast", "shuffle"] ⟨1 / 2, 0⟩ (by decide)

end SqlOptimizer.Adaptive

import SqlOptimizer.Adaptive.Bandit
import SqlOptimizer.Adaptive.Calibration
import SqlOptimizer.Integration.PlanRoundTrip
import SqlOptimizer.Library.Table
import SqlOptimizer.Util.JsonRoundTrip

/-! The files between two starts of a process: `save_bandit` and `load_bandit`, `save_calibration` and
`load_calibration`.  Here the numbers are doubles, as they are in the files. -/

namespace SqlOptimizer.Adaptive

open PlanSerializer

variable {α : Type}

/-! ### Tables as objects -/

/-- An object with a field for each entry of a table. -/
def tableJson (toJson : α → JsonValue) (t : AList fun _ : String => α) : JsonValue :=
  .object (t.entries.map fun e => (e.1, toJson e.2))

/-- Assigns the fields of an object to a table, one after another. -/
def assignFields (read : JsonValue → α) (fields : List (String × JsonValue))
    (t : AList fun _ : String => α) : AList fun _ : String => α :=
  fields.foldl (fun t field => t.insert field.1 (read field.2)) t

/-! ### The bandit -/

/-- `static_cast<size_t>(v->as_number())`, which is undefined in C++ for a double outside the range. -/
def sizeOfNumber (v : JsonValue) : Nat := (castSize v.asNumber).toOption.getD 0

def numberField (j : JsonValue) (key : String) : Binary64 :=
  (j.find key).elim Binary64.zero JsonValue.asNumber

def sizeField (j : JsonValue) (key : String) : Nat := (j.find key).elim 0 sizeOfNumber

def ArmStats.toJson (s : ArmStats Binary64) : JsonValue :=
  .object [("count", ofSize s.count), ("average_reward", .number s.averageReward)]

def ArmStats.ofJson (j : JsonValue) : ArmStats Binary64 :=
  ⟨sizeField j "count", numberField j "average_reward"⟩

/-- The object that `save_bandit` writes. -/
def BanditModel.toJson (model : BanditModel Binary64) : JsonValue :=
  tableJson (tableJson ArmStats.toJson) model.stats

/-- The loop of `load_bandit`: `stats[context][arm] = s`. -/
def loadArms (stats : AList fun _ : String => ArmTable Binary64) (field : String × JsonValue) :
    AList fun _ : String => ArmTable Binary64 :=
  match field.2 with
  | .object arms => arms.foldl (fun stats arm => stats.insert field.1
      (((stats.lookup field.1).getD ∅).insert arm.1 (ArmStats.ofJson arm.2))) stats
  | _ => stats

def BanditModel.ofJson (epsilon : Binary64) (root : JsonValue) : BanditModel Binary64 :=
  match root with
  | .object contexts => ⟨epsilon, contexts.foldl loadArms ∅⟩
  | _ => newBandit epsilon

def Fit.toJson (f : Fit Binary64) : JsonValue :=
  .object [("n", ofSize f.n), ("sum_x", .number f.sumX), ("sum_y", .number f.sumY),
    ("sum_xx", .number f.sumXX), ("sum_xy", .number f.sumXY)]

def Fit.ofJson (j : JsonValue) : Fit Binary64 :=
  ⟨sizeField j "n", numberField j "sum_x", numberField j "sum_y", numberField j "sum_xx",
    numberField j "sum_xy"⟩

section

variable [NumberText]

/-- The contents of the file. -/
def saveBandit (model : BanditModel Binary64) : List Char := writeJson model.toJson

/-- Without a file, or with one that does not parse, the model is a new one. -/
def loadBandit (file : Option (List Char)) (epsilon : Binary64) : BanditModel Binary64 :=
  match file with
  | none => newBandit epsilon
  | some text =>
    match parseJson text with
    | .error _ => newBandit epsilon
    | .ok root => BanditModel.ofJson epsilon root

def saveCalibration (model : CalibrationModel Binary64) : List Char :=
  writeJson (tableJson Fit.toJson model)

def loadCalibration (file : Option (List Char)) : CalibrationModel Binary64 :=
  match file with
  | none => ∅
  | some text =>
    match parseJson text with
    | .ok (.object kinds) => assignFields Fit.ofJson kinds ∅
    | _ => ∅

end

/-! ### Fields come back -/

theorem lookup_assignFields {read : JsonValue → α} {toJson : α → JsonValue}
    {table : AList fun _ : String => α} (hread : ∀ e ∈ table.entries, read (toJson e.2) = e.2)
    (key : String) :
    (assignFields read (table.entries.map fun e => (e.1, toJson e.2)) ∅).lookup key =
      table.lookup key := by
  have hinsert : assignFields read (table.entries.map fun e => (e.1, toJson e.2)) ∅ =
      table.entries.foldl (fun t e => t.insert e.1 e.2) ∅ := by
    rw [assignFields, List.foldl_map]
    exact List.foldl_ext _ _ _ fun t e he => by rw [hread e he]
  rw [hinsert, Table.lookup_foldl_insert table.nodupKeys, AList.lookup_empty, Option.or_none]
  rfl

theorem sizeField_eq {j : JsonValue} {key : String} {n : Nat} (h : j.find key = some (ofSize n))
    (hexact : SizeExact n) : sizeField j key = n := by
  rw [sizeField, h, Option.elim, sizeOfNumber, ofSize, JsonValue.asNumber,
    castSize_ofInt.mpr hexact]
  rfl

theorem ArmStats.ofJson_toJson {s : ArmStats Binary64} (h : SizeExact s.count) :
    ArmStats.ofJson s.toJson = s := by
  have hcount : sizeField s.toJson "count" = s.count := sizeField_eq rfl h
  have haverage : numberField s.toJson "average_reward" = s.averageReward := rfl
  rw [ArmStats.ofJson, hcount, haverage]

theorem Fit.ofJson_toJson {f : Fit Binary64} (h : SizeExact f.n) : Fit.ofJson f.toJson = f := by
  have hn : sizeField f.toJson "n" = f.n := sizeField_eq rfl h
  rw [Fit.ofJson, hn]
  rfl

/-! ### Texts come back -/

section

variable [NumberText]

/-- A table that survives as a JSON object: its names have no control characters, and each entry
comes back as JSON. -/
def TableKept (Kept : α → Prop) (t : AList fun _ : String => α) : Prop :=
  ∀ e ∈ t.entries, Clean e.1 ∧ Kept e.2

/-- A JSON value that comes back from its text. -/
def Kept (v : JsonValue) : Prop :=
  v.Sound ∧ v.Everywhere JsonValue.KeysDistinct ∧ v.Everywhere JsonValue.CleanTexts

theorem Kept.parse {v : JsonValue} (h : Kept v) : parseJson (writeJson v) = .ok v := by
  rw [parseJson_writeJson h.1, (JsonValue.received_eq_self_iff v h.2.1).mpr h.2.2]

theorem kept_object {es : List (String × JsonValue)} (hdistinct : (es.map (·.1)).Nodup)
    (h : ∀ e ∈ es, Clean e.1 ∧ Kept e.2) : Kept (.object es) := by
  refine ⟨⟨nofun, ?_⟩, ⟨?_, ?_⟩, ⟨⟨nofun, ?_⟩, ?_⟩⟩
  · exact JsonValue.everywhereEntries_iff.mpr fun e he => (h e he).2.1
  · rintro _ ⟨⟩
    exact hdistinct
  · exact JsonValue.everywhereEntries_iff.mpr fun e he => (h e he).2.2.1
  · rintro _ ⟨⟩
    exact fun e he => (h e he).1
  · exact JsonValue.everywhereEntries_iff.mpr fun e he => (h e he).2.2.2

theorem kept_number {x : Binary64} (h : Carries x) : Kept (.number x) := by
  refine ⟨?_, nofun, nofun, nofun⟩
  rintro _ ⟨⟩
  exact h

theorem kept_tableJson {toJson : α → JsonValue} {t : AList fun _ : String => α}
    (h : TableKept (fun a => Kept (toJson a)) t) : Kept (tableJson toJson t) := by
  refine kept_object ?_ fun e he => ?_
  · rw [List.map_map]
    exact t.nodupKeys
  · obtain ⟨entry, hentry, rfl⟩ := List.mem_map.mp he
    exact h entry hentry

/-- The count is exact as a double, and the texts of both numbers give them back. -/
structure ArmStats.Persists (s : ArmStats Binary64) : Prop where
  exact : SizeExact s.count
  count : Carries (Binary64.ofInt s.count)
  average : Carries s.averageReward

theorem ArmStats.Persists.kept {s : ArmStats Binary64} (h : s.Persists) : Kept s.toJson := by
  refine kept_object (by simp) fun e he => ?_
  simp only [List.mem_cons, List.not_mem_nil, or_false] at he
  rcases he with rfl | rfl
  · exact ⟨show Clean "count" by decide, kept_number h.count⟩
  · exact ⟨show Clean "average_reward" by decide, kept_number h.average⟩

structure Fit.Persists (f : Fit Binary64) : Prop where
  exact : SizeExact f.n
  count : Carries (Binary64.ofInt f.n)
  sums : ∀ x ∈ [f.sumX, f.sumY, f.sumXX, f.sumXY], Carries x

theorem Fit.Persists.kept {f : Fit Binary64} (h : f.Persists) : Kept f.toJson := by
  refine kept_object (by simp) fun e he => ?_
  simp only [List.mem_cons, List.not_mem_nil, or_false] at he
  rcases he with rfl | rfl | rfl | rfl | rfl
  · exact ⟨show Clean "n" by decide, kept_number h.count⟩
  · exact ⟨show Clean "sum_x" by decide, kept_number (h.sums _ (by simp))⟩
  · exact ⟨show Clean "sum_y" by decide, kept_number (h.sums _ (by simp))⟩
  · exact ⟨show Clean "sum_xx" by decide, kept_number (h.sums _ (by simp))⟩
  · exact ⟨show Clean "sum_xy" by decide, kept_number (h.sums _ (by simp))⟩

end

/-! ### Models come back -/

/-- What the loops of `load_bandit` do to one context. -/
theorem contextStats_loadArms {arms : List (Sigma fun _ : String => ArmStats Binary64)}
    (hread : ∀ e ∈ arms, SizeExact e.2.count) (context : String)
    (stats : AList fun _ : String => ArmTable Binary64) (c : String) :
    ((loadArms stats (context, .object (arms.map fun e => (e.1, e.2.toJson)))).lookup c).getD ∅ =
      if c = context then arms.foldl (fun t e => t.insert e.1 e.2) ((stats.lookup c).getD ∅)
      else (stats.lookup c).getD ∅ := by
  unfold loadArms
  dsimp only
  induction arms generalizing stats with
  | nil => simp
  | cons e arms ih =>
    have hfirst : ArmStats.ofJson e.2.toJson = e.2 :=
      ArmStats.ofJson_toJson (hread e List.mem_cons_self)
    rw [List.map_cons, List.foldl_cons, ih fun e he => hread e (List.mem_cons_of_mem _ he), hfirst]
    by_cases h : c = context
    · subst h
      rw [if_pos rfl, if_pos rfl, AList.lookup_insert]
      rfl
    · rw [if_neg h, if_neg h, AList.lookup_insert_ne h]

theorem contextStats_loadContexts {contexts : List (Sigma fun _ : String => ArmTable Binary64)}
    (hnodup : contexts.NodupKeys)
    (hread : ∀ e ∈ contexts, ∀ a ∈ e.2.entries, SizeExact a.2.count)
    (stats : AList fun _ : String => ArmTable Binary64) (c arm : String) :
    ((((contexts.map fun e => (e.1, tableJson ArmStats.toJson e.2)).foldl loadArms stats).lookup
        c).getD ∅).lookup arm =
      (((contexts.dlookup c).getD ∅).lookup arm).or (((stats.lookup c).getD ∅).lookup arm) := by
  induction contexts generalizing stats with
  | nil => rfl
  | cons e contexts ih =>
    rw [List.nodupKeys_cons] at hnodup
    rw [List.map_cons, List.foldl_cons,
      ih hnodup.2 fun e he => hread e (List.mem_cons_of_mem _ he), tableJson,
      contextStats_loadArms (hread e List.mem_cons_self)]
    by_cases h : c = e.1
    · subst h
      have hnone : contexts.dlookup e.1 = none := List.dlookup_eq_none.mpr hnodup.1
      rw [hnone, if_pos rfl, List.dlookup_cons_eq, Table.lookup_foldl_insert e.2.nodupKeys]
      rfl
    · rw [if_neg h, List.dlookup_cons_ne _ _ h]

theorem kept_toJson [NumberText] {model : BanditModel Binary64}
    (h : TableKept (TableKept ArmStats.Persists) model.stats) : Kept model.toJson :=
  kept_tableJson fun context hcontext =>
    ⟨(h context hcontext).1, kept_tableJson fun arm harm =>
      ⟨((h context hcontext).2 arm harm).1, ((h context hcontext).2 arm harm).2.kept⟩⟩

/-- What `load_bandit` makes of the file of `save_bandit`: every arm of every context as it was. -/
theorem loadBandit_lookup [NumberText] {model : BanditModel Binary64}
    (h : TableKept (TableKept ArmStats.Persists) model.stats) (epsilon : Binary64)
    (context arm : String) :
    ((loadBandit (some (saveBandit model)) epsilon).contextStats context).lookup arm =
      (model.contextStats context).lookup arm := by
  have hload := contextStats_loadContexts model.stats.nodupKeys
    (fun e he a ha => ((h e he).2 a ha).2.exact) ∅ context arm
  rw [AList.lookup_empty, Option.getD_none, AList.lookup_empty, Option.or_none] at hload
  rw [loadBandit, saveBandit, (kept_toJson h).parse]
  exact hload

/-- What `load_calibration` makes of the file of `save_calibration`. -/
theorem loadCalibration_saveCalibration [NumberText] {model : CalibrationModel Binary64}
    (h : TableKept Fit.Persists model) (kind : String) :
    (loadCalibration (some (saveCalibration model))).lookup kind = model.lookup kind := by
  have hkept : Kept (tableJson Fit.toJson model) := kept_tableJson fun kind hkind =>
    ⟨(h kind hkind).1, (h kind hkind).2.kept⟩
  rw [loadCalibration, saveCalibration, hkept.parse]
  exact lookup_assignFields (fun e he => Fit.ofJson_toJson (h e he).2.exact) kind

/-! ### A bandit that is stopped and started -/

section

variable [Rounding]

/-- The arithmetic of the source. -/
instance : Arithmetic Binary64 where
  zero := Binary64.zero
  ofNat n := Binary64.ofInt n
  add := Binary64.add
  mul := Binary64.mul
  div := Binary64.div
  neg := Binary64.neg
  lt := Binary64.lt

inductive LearnerEvent where
  | choose (context : String) (arms : List String) (draws : Draws Binary64)
  | update (context arm : String) (reward : Binary64)
  /-- the process stops, and another one starts -/
  | restart

/-- A model that answers the choices, and that `restart` takes from one process to the next. -/
def learner (restart : BanditModel Binary64 → BanditModel Binary64) :
    Machine (BanditModel Binary64) LearnerEvent (Option String)
  | model, .choose context arms draws =>
    let (arm, model) := model.choose context arms draws
    (some arm, model)
  | model, .update context arm reward => (none, model.update context arm reward)
  | model, .restart => (none, restart model)

/-- The names of an event have no control characters. -/
def LearnerEvent.Named : LearnerEvent → Prop
  | .choose context _ _ => Clean context
  | .update context arm _ => Clean context ∧ Clean arm
  | .restart => True

/-- Contexts and arms without control characters. -/
def Named (stats : AList fun _ : String => ArmTable Binary64) : Prop :=
  TableKept (TableKept fun _ => True) stats

/-- `model` answers like `model'`, and its names can be saved. -/
structure Agrees (model model' : BanditModel Binary64) : Prop where
  epsilon : model.epsilon = model'.epsilon
  lookups : ∀ context arm, (model.contextStats context).lookup arm =
    (model'.contextStats context).lookup arm
  named : Named model.stats

omit [Rounding] in
theorem TableKept.insert {P : α → Prop} {t : AList fun _ : String => α} (h : TableKept P t)
    {key : String} (hkey : Clean key) {a : α} (ha : P a) : TableKept P (t.insert key a) := by
  intro e he
  rw [AList.entries_insert] at he
  rcases List.mem_cons.mp he with rfl | he
  · exact ⟨hkey, ha⟩
  · exact h e ((List.kerase_sublist _ _).subset he)

omit [Rounding] in
theorem TableKept.getD {P : α → Prop} {t : AList fun _ : String => AList fun _ : String => α}
    (h : TableKept (TableKept P) t) (key : String) : TableKept P ((t.lookup key).getD ∅) := by
  cases hlookup : t.lookup key with
  | none => exact fun e he => absurd he List.not_mem_nil
  | some a => exact (h ⟨key, a⟩ (AList.mem_lookup_iff.mp hlookup)).2

omit [Rounding] in
theorem contextStats_insert (epsilon : Binary64) (stats : AList fun _ : String => ArmTable Binary64)
    (context : String) (arms : ArmTable Binary64) (c : String) :
    (BanditModel.mk epsilon (stats.insert context arms)).contextStats c =
      if c = context then arms else (stats.lookup c).getD ∅ := by
  unfold BanditModel.contextStats
  by_cases h : c = context
  · rw [if_pos h, h, AList.lookup_insert]
    rfl
  · rw [if_neg h, AList.lookup_insert_ne h]

namespace Agrees

variable {model model' : BanditModel Binary64} (h : Agrees model model')
include h

/-- The choice, and the models after it. -/
theorem choose {context : String} (hcontext : Clean context) (arms : List String)
    (draws : Draws Binary64) :
    (model.choose context arms draws).1 = (model'.choose context arms draws).1 ∧
      Agrees (model.choose context arms draws).2
        (model'.choose context arms draws).2 := by
  have hbetter : BanditModel.better (model.contextStats context) =
      BanditModel.better (model'.contextStats context) := by
    funext best arm
    unfold BanditModel.better
    rw [h.lookups]
  have hinsert : Agrees { model with stats := model.stats.insert context (model.contextStats context) }
      { model' with stats := model'.stats.insert context (model'.contextStats context) } := by
    refine ⟨h.epsilon, fun c arm => ?_, h.named.insert hcontext (h.named.getD context)⟩
    rw [contextStats_insert, contextStats_insert]
    by_cases hc : c = context
    · rw [if_pos hc, if_pos hc]
      exact h.lookups context arm
    · rw [if_neg hc, if_neg hc]
      exact h.lookups c arm
  rw [h.epsilon] at hinsert
  unfold BanditModel.choose
  simp only [hbetter, h.epsilon]
  generalize (if Arithmetic.lt draws.unit model'.epsilon then none
    else arms.foldl (BanditModel.better (model'.contextStats context)) none) = best
  rcases best with _ | best
  · exact ⟨rfl, hinsert⟩
  · exact ⟨rfl, hinsert⟩

theorem update {context arm : String} (hcontext : Clean context) (harm : Clean arm)
    (reward : Binary64) :
    Agrees (model.update context arm reward) (model'.update context arm reward) := by
  have hstats : model.armStats context arm = model'.armStats context arm := by
    unfold BanditModel.armStats
    rw [h.lookups context arm]
  unfold BanditModel.update
  dsimp only
  rw [hstats]
  refine ⟨h.epsilon, fun c a => ?_,
    h.named.insert hcontext ((h.named.getD context).insert harm trivial)⟩
  rw [contextStats_insert, contextStats_insert]
  by_cases hc : c = context
  · rw [if_pos hc, if_pos hc]
    by_cases ha : a = arm
    · rw [ha, AList.lookup_insert, AList.lookup_insert]
    · rw [AList.lookup_insert_ne ha, AList.lookup_insert_ne ha]
      exact h.lookups context a
  · rw [if_neg hc, if_neg hc]
    exact h.lookups c a

omit [Rounding] in
/-- The model can be saved when the statistics that it answers with can. -/
theorem kept [NumberText] (hpersists : ∀ context arm s,
    (model'.contextStats context).lookup arm = some s → s.Persists) :
    TableKept (TableKept ArmStats.Persists) model.stats := by
  intro e he
  refine ⟨(h.named e he).1, fun a ha => ⟨((h.named e he).2 a ha).1, ?_⟩⟩
  have hcontext : model.contextStats e.1 = e.2 := by
    rw [BanditModel.contextStats, AList.mem_lookup_iff.mpr he]
    rfl
  apply hpersists e.1 a.1
  rw [← h.lookups, hcontext]
  exact AList.mem_lookup_iff.mpr ha

end Agrees

/-! ### Loading keeps the names clean -/

omit [Rounding] in
theorem Named.loadArms {stats : AList fun _ : String => ArmTable Binary64} (h : Named stats)
    {context : String} (hcontext : Clean context) {arms : ArmTable Binary64}
    (harms : ∀ a ∈ arms.entries, Clean a.1) :
    Named (loadArms stats (context, tableJson ArmStats.toJson arms)) := by
  unfold Adaptive.loadArms tableJson
  dsimp only
  obtain ⟨entries, hnodup⟩ := arms
  dsimp only at harms ⊢
  clear hnodup
  induction entries generalizing stats with
  | nil => exact h
  | cons a entries ih =>
    rw [List.map_cons, List.foldl_cons]
    have hfirst : Clean a.1 := harms a List.mem_cons_self
    exact ih (h.insert hcontext ((h.getD context).insert hfirst trivial)) fun a ha =>
      harms a (List.mem_cons_of_mem _ ha)

omit [Rounding] in
theorem named_loadContexts {contexts : List (Sigma fun _ : String => ArmTable Binary64)}
    (hclean : ∀ e ∈ contexts, Clean e.1 ∧ ∀ a ∈ e.2.entries, Clean a.1)
    {stats : AList fun _ : String => ArmTable Binary64} (h : Named stats) :
    Named ((contexts.map fun e => (e.1, tableJson ArmStats.toJson e.2)).foldl loadArms stats) := by
  induction contexts generalizing stats with
  | nil => exact h
  | cons e contexts ih =>
    rw [List.map_cons, List.foldl_cons]
    obtain ⟨hcontext, harms⟩ := hclean e List.mem_cons_self
    exact ih (fun e he => hclean e (List.mem_cons_of_mem _ he)) (h.loadArms hcontext harms)

omit [Rounding] in
theorem Agrees.restart [NumberText] {model model' : BanditModel Binary64} (h : Agrees model model')
    (hpersists : ∀ context arm s, (model'.contextStats context).lookup arm = some s → s.Persists) :
    Agrees (loadBandit (some (saveBandit model)) model'.epsilon) model' := by
  have hkept := h.kept hpersists
  have hload : loadBandit (some (saveBandit model)) model'.epsilon =
      ⟨model'.epsilon, (model.stats.entries.map fun e =>
        (e.1, tableJson ArmStats.toJson e.2)).foldl loadArms ∅⟩ := by
    rw [loadBandit, saveBandit, (kept_toJson hkept).parse]
    rfl
  refine ⟨by rw [hload], fun c arm => ?_, ?_⟩
  · rw [loadBandit_lookup hkept, h.lookups]
  · rw [hload]
    exact named_loadContexts (fun e he => ⟨(hkept e he).1, fun a ha => ((hkept e he).2 a ha).1⟩)
      fun e he => absurd he List.not_mem_nil

/-- The statistics that a model answers with can be saved. -/
def Persistent [NumberText] (model : BanditModel Binary64) : Prop :=
  ∀ context arm s, (model.contextStats context).lookup arm = some s → s.Persists

/-- A step of a model that is saved and loaded, and of one that is not. -/
theorem Agrees.step [NumberText] {model model' : BanditModel Binary64} (h : Agrees model model')
    {event : LearnerEvent} (hnamed : event.Named) (hpersistent : Persistent model') :
    (learner (fun m => loadBandit (some (saveBandit m)) model'.epsilon) model event).1 =
        (learner id model' event).1 ∧
      Agrees (learner (fun m => loadBandit (some (saveBandit m)) model'.epsilon) model event).2
        (learner id model' event).2 := by
  cases event with
  | choose context arms draws =>
    obtain ⟨hsame, hagrees⟩ := h.choose hnamed arms draws
    exact ⟨congrArg some hsame, hagrees⟩
  | update context arm reward => exact ⟨rfl, h.update hnamed.1 hnamed.2 reward⟩
  | restart => exact ⟨rfl, h.restart hpersistent⟩

theorem epsilon_learner (model : BanditModel Binary64) (event : LearnerEvent) :
    (learner id model event).2.epsilon = model.epsilon := by
  cases event with
  | choose context arms draws =>
    unfold learner BanditModel.choose
    dsimp only
    split <;> rfl
  | update => rfl
  | restart => rfl

theorem Agrees.trace [NumberText] {model model' : BanditModel Binary64} (h : Agrees model model')
    {events : List LearnerEvent} (hnamed : ∀ event ∈ events, event.Named)
    (hpersistent : ∀ before, before <+: events → Persistent ((learner id).after model' before)) :
    (learner fun m => loadBandit (some (saveBandit m)) model'.epsilon).trace model events =
      (learner id).trace model' events := by
  induction events generalizing model model' with
  | nil => rfl
  | cons event events ih =>
    obtain ⟨hanswer, hagrees⟩ := h.step (hnamed event List.mem_cons_self)
      (hpersistent [] List.nil_prefix)
    have hrest := ih hagrees (fun e he => hnamed e (List.mem_cons_of_mem _ he)) fun before hbefore =>
      hpersistent (event :: before) (List.cons_prefix_cons.mpr ⟨rfl, hbefore⟩)
    rw [epsilon_learner] at hrest
    rw [Machine.trace, Machine.trace, hanswer, hrest]

/-- A coordinator that is stopped and started again, with the statistics in a file in between, chooses
as one that never stops: at every restart, each arm of each context has the count and the average that
it had, when the texts of the numbers give them back. -/
theorem restarts_unseen [NumberText] (epsilon : Binary64) (events : List LearnerEvent)
    (hnamed : ∀ event ∈ events, event.Named)
    (hpersistent : ∀ before, before <+: events →
      Persistent ((learner id).after (newBandit epsilon) before)) :
    (learner fun m => loadBandit (some (saveBandit m)) epsilon).trace (newBandit epsilon) events =
      (learner id).trace (newBandit epsilon) events := by
  have hnew : Agrees (newBandit epsilon) (newBandit epsilon) :=
    ⟨rfl, fun _ _ => rfl, fun e he => absurd he List.not_mem_nil⟩
  exact hnew.trace hnamed hpersistent

end

section

attribute [local instance] Rounding.exact

/-- The texts of whole numbers. -/
local instance signedTexts : NumberText where
  print neg mag := Binary64.signText neg ++ Nat.toDigits 10 mag.num
  stod text :=
    let neg := text.head? == some '-'
    let digits := if neg then text.drop 1 else text
    if digits ≠ [] ∧ digits.all Char.isDigit then
      .ok (.fin neg (Nat.ofDigitChars 10 digits 0 : Nat))
    else .error .invalidArgument

/-- A shuffle join of `a` and `b`, a new process, and the choice for the same join. -/
def shuffleThenChoose : List LearnerEvent :=
  [.update "a:b" "shuffle" (.fin true 13), .restart,
    .choose "a:b" ["broadcast", "shuffle"] ⟨.fin false 1, 0⟩]

theorem persists_shuffle : (⟨1, .fin true 13⟩ : ArmStats Binary64).Persists := by
  have hone : Binary64.ofInt (1 : Nat) = .fin false 1 := by decide +kernel
  refine ⟨by decide, ?_, by decide, by decide, rfl⟩
  rw [hone]
  exact ⟨by decide, by decide, rfl⟩

/-- What is known after the join. -/
def knowsShuffle : AList fun _ : String => ArmTable Binary64 :=
  AList.insert "a:b" (AList.insert "shuffle" (ArmStats.mk 1 (.fin true 13)) (∅ : ArmTable Binary64)) ∅

theorem update_shuffle : (newBandit (.fin false (1 / 10))).update "a:b" "shuffle"
    (.fin true 13) = ⟨.fin false (1 / 10), knowsShuffle⟩ := by
  have hvalue : Binary64.div (Binary64.add (Binary64.mul Binary64.zero (Binary64.ofInt (0 : Nat)))
      (.fin true 13)) (Binary64.ofInt (0 + 1 : Nat)) = .fin true 13 := by
    decide +kernel
  exact congrArg (fun x => BanditModel.mk (.fin false (1 / 10)) (AList.insert "a:b"
    (AList.insert "shuffle" (ArmStats.mk 1 x) (∅ : ArmTable Binary64)) ∅)) hvalue

theorem stats_shuffleThenChoose {before : List LearnerEvent}
    (h : before <+: shuffleThenChoose) :
    ((learner id).after (newBandit (.fin false (1 / 10))) before).stats = ∅ ∨
      ((learner id).after (newBandit (.fin false (1 / 10))) before).stats = knowsShuffle := by
  have hupdate : (learner id (newBandit (.fin false (1 / 10)))
      (.update "a:b" "shuffle" (.fin true 13))).2 = ⟨.fin false (1 / 10), knowsShuffle⟩ :=
    update_shuffle
  have hrestart : (learner id ⟨.fin false (1 / 10), knowsShuffle⟩ .restart).2 =
      ⟨.fin false (1 / 10), knowsShuffle⟩ := rfl
  simp only [shuffleThenChoose, List.prefix_cons_iff, List.prefix_nil] at h
  rcases h with rfl | ⟨_, rfl, rfl | ⟨_, rfl, rfl | ⟨_, rfl, rfl⟩⟩⟩
  · exact .inl rfl
  · rw [Machine.after_cons, hupdate]
    exact .inr rfl
  · rw [Machine.after_cons, hupdate, Machine.after_cons, hrestart]
    exact .inr rfl
  · rw [Machine.after_cons, hupdate, Machine.after_cons, hrestart]
    exact .inr ((stats_choose _ _ _ _).trans rfl)

theorem restarts_unseen_shuffle :
    (learner fun m => loadBandit (some (saveBandit m)) (.fin false (1 / 10))).trace
        (newBandit (.fin false (1 / 10))) shuffleThenChoose =
      (learner id).trace (newBandit (.fin false (1 / 10))) shuffleThenChoose ∧
    ((learner id).trace (newBandit (.fin false (1 / 10))) shuffleThenChoose).map (·.2) =
      [none, none, some "shuffle"] := by
  refine ⟨restarts_unseen _ _ ?_ fun before hbefore => ?_, by decide +kernel⟩
  · intro event hevent
    simp only [shuffleThenChoose, List.mem_cons, List.not_mem_nil, or_false] at hevent
    rcases hevent with rfl | rfl | rfl
    · exact ⟨show Clean "a:b" by decide, show Clean "shuffle" by decide⟩
    · exact trivial
    · exact show Clean "a:b" by decide
  · intro context arm s hs
    rw [BanditModel.contextStats] at hs
    rcases stats_shuffleThenChoose hbefore with hstats | hstats
    · rw [hstats] at hs
      cases hs
    · rw [hstats, knowsShuffle] at hs
      by_cases hcontext : context = "a:b"
      · rw [hcontext, AList.lookup_insert, Option.getD_some] at hs
        by_cases harm : arm = "shuffle"
        · rw [harm, AList.lookup_insert] at hs
          cases hs
          exact persists_shuffle
        · rw [AList.lookup_insert_ne harm] at hs
          cases hs
      · rw [AList.lookup_insert_ne hcontext] at hs
        cases hs

/-- One scan of predicted cost 13 that took 17 ms. -/
def oneScan : CalibrationModel Binary64 :=
  AList.insert "SeqScan"
    ⟨1, .fin false 13, .fin false 17, .fin false 169, .fin false 221⟩ ∅

theorem loadCalibration_saveCalibration_scan :
    (loadCalibration (some (saveCalibration oneScan))).lookup "SeqScan" =
      oneScan.lookup "SeqScan" := by
  apply loadCalibration_saveCalibration
  intro e he
  obtain rfl := List.mem_singleton.mp he
  have hone : Binary64.ofInt (1 : Nat) = .fin false 1 := by decide +kernel
  refine ⟨show Clean "SeqScan" by decide, by decide, ?_, ?_⟩
  · rw [hone]
    exact ⟨by decide, by decide, rfl⟩
  · intro x hx
    simp only [List.mem_cons, List.not_mem_nil, or_false] at hx
    rcases hx with rfl | rfl | rfl | rfl <;> exact ⟨by decide, by decide, rfl⟩

end

end SqlOptimizer.Adaptive

import SqlOptimizer.Distributed.WorkerService
import SqlOptimizer.Integration.PlanDecoding
import SqlOptimizer.Integration.PlanKeys
import SqlOptimizer.Library.Table
import SqlOptimizer.Web.HttpFraming

/-! A worker that answers and a worker that does not: when the coordinator gets the same columns and
rows from both. -/

namespace SqlOptimizer

/-! ### Slots -/

theorem toString_injective : Function.Injective (toString : Nat → String) := by
  intro m n h
  have htext : natText m = natText n := by
    rw [← ascii_toString, ← ascii_toString, h]
  have hread := congrArg readNat htext
  rw [readNat_natText, readNat_natText] at hread
  exact Option.some.inj hread

theorem clean_toString (n : Nat) : Clean (toString n) := by
  intro c hc
  have hdigit : c.isDigit = true :=
    Nat.isDigit_of_mem_toDigits (by decide) (by decide) (Nat.toList_repr ▸ hc)
  simp only [Char.isDigit, Bool.and_eq_true, decide_eq_true_eq] at hdigit
  have hlow : 48 ≤ c.toNat := hdigit.1
  exact .inl (by omega)

theorem nodup_slotTexts (sets : ExternalRowSets) (f : List Row → JsonValue) :
    ((sets.entries.map fun s => (toString s.1, f s.2)).map (·.1)).Nodup := by
  have hkeys : (sets.entries.map fun s => (toString s.1, f s.2)).map (·.1) =
      sets.keys.map toString := by
    simp [AList.keys, List.keys, Function.comp_def]
  rw [hkeys]
  exact sets.keys_nodup.map toString_injective

theorem externalToJson_eq (sets : ExternalRowSets) : externalToJson sets =
    .object (sets.entries.map fun s => (toString s.1, slotToJson s.2)) := by
  have hnodup : (([] : List (String × JsonValue)).map (·.1) ++
      (sets.entries.map fun s => (toString s.1, slotToJson s.2)).map (·.1)).Nodup :=
    nodup_slotTexts sets slotToJson
  rw [externalToJson, JsonValue.merge_of_nodup hnodup, List.nil_append]

theorem receivedEntries_slots (entries : List (Sigma fun _ : Nat => List Row)) :
    JsonValue.receivedEntries (entries.map fun s => (toString s.1, slotToJson s.2)) =
      entries.map fun s => (toString s.1, (slotToJson s.2).received) := by
  induction entries with
  | nil => rfl
  | cons s entries ih =>
    rw [List.map_cons, JsonValue.receivedEntries, ih, List.map_cons,
      receivedString_eq_self.mpr (clean_toString s.1)]

theorem received_slotToJson (rows : List Row) :
    (slotToJson rows).received = .object [("rows", (RowJson.rowsToJson rows).received)] := by
  have hkey : receivedString "rows" = "rows" := receivedString_eq_self.mpr (by decide)
  simp only [slotToJson, JsonValue.received, JsonValue.receivedEntries, hkey]
  rfl

theorem received_externalToJson (sets : ExternalRowSets) : (externalToJson sets).received =
    .object (sets.entries.map fun s => (toString s.1, (slotToJson s.2).received)) := by
  have hnodup : (([] : List (String × JsonValue)).map (·.1) ++
      (sets.entries.map fun s => (toString s.1, (slotToJson s.2).received)).map (·.1)).Nodup :=
    nodup_slotTexts sets fun rows => (slotToJson rows).received
  rw [externalToJson_eq, JsonValue.received, receivedEntries_slots,
    JsonValue.merge_of_nodup hnodup, List.nil_append]

/-- Slots that a `size_t` holds, with rows that are not changed on the way. -/
def SlotsKept (entries : List (Sigma fun _ : Nat => List Row)) : Prop :=
  ∀ s ∈ entries, s.1 < 2 ^ 64 ∧ ∀ row ∈ s.2, ∀ l ∈ row, l.Kept

theorem readSlots_received {entries : List (Sigma fun _ : Nat => List Row)}
    (hkept : SlotsKept entries) :
    readSlots (entries.map fun s => (toString s.1, (slotToJson s.2).received)) =
      .ok (entries.foldl (fun sets s => sets.insert s.1 s.2) ∅) := by
  rw [readSlots]
  generalize (∅ : ExternalRowSets) = sets
  induction entries generalizing sets with
  | nil => rfl
  | cons s entries ih =>
    obtain ⟨hslot, hrows⟩ := hkept s List.mem_cons_self
    have hstoul : Http.stoul (ascii (toString s.1)) = some s.1 := by
      rw [ascii_toString, Http.stoul_natText hslot]
    have hfind : (slotToJson s.2).received.find "rows" = some (RowJson.rowsToJson s.2).received := by
      rw [received_slotToJson]
      rfl
    have hread := (RowJson.rowsFromJson_received s.2).mpr hrows
    rw [List.map_cons, List.foldlM_cons, List.foldl_cons]
    simp only [hstoul, hfind, readRows, hread, Fault.ofOption, Except.ok_bind, Except.pure_eq_ok]
    exact ih (fun t ht => hkept t (List.mem_cons_of_mem _ ht)) _

/-! ### The request -/

theorem everywhere_requestJson {P : JsonValue → Prop} (hobject : ∀ es, P (.object es))
    (planJson : JsonValue) (sets : ExternalRowSets) :
    (requestJson planJson sets).Everywhere P ↔ planJson.Everywhere P ∧
      ∀ s ∈ sets.entries, (RowJson.rowsToJson s.2).Everywhere P := by
  have hslots : (externalToJson sets).Everywhere P ↔
      ∀ s ∈ sets.entries, (RowJson.rowsToJson s.2).Everywhere P := by
    rw [externalToJson_eq, JsonValue.Everywhere, JsonValue.everywhereEntries_iff,
      List.forall_mem_map, and_iff_right (hobject _)]
    refine forall₂_congr fun s _ => ?_
    simp [slotToJson, JsonValue.Everywhere, JsonValue.EverywhereEntries, hobject]
  unfold requestJson
  split
  case isTrue h =>
    rw [List.isEmpty_iff] at h
    simp [JsonValue.Everywhere, JsonValue.EverywhereEntries, hobject, h]
  case isFalse =>
    simp [JsonValue.Everywhere, JsonValue.EverywhereEntries, hobject, hslots]

theorem received_requestJson {planJson : JsonValue} (hplan : planJson.received = planJson)
    (sets : ExternalRowSets) : (requestJson planJson sets).received =
      .object (("plan", planJson) :: if sets.entries.isEmpty then [] else
        [("external_rows", .object (sets.entries.map fun s =>
          (toString s.1, (slotToJson s.2).received)))]) := by
  have hkey : receivedString "plan" = "plan" := receivedString_eq_self.mpr (by decide)
  have hext : receivedString "external_rows" = "external_rows" :=
    receivedString_eq_self.mpr (by decide)
  unfold requestJson
  split
  · simp only [JsonValue.received, JsonValue.receivedEntries, hkey, hplan]
    rfl
  · simp only [JsonValue.received, JsonValue.receivedEntries, hkey, hext, hplan,
      received_externalToJson]
    rfl

section

variable {R : Type}

/-- Only what the slots hold matters. -/
theorem buildExecutor_congr {sets sets' : ExternalRowSets}
    (h : ∀ slot, sets'.lookup slot = sets.lookup slot) (plan : PhysicalPlan R) (db : Database) :
    buildExecutor plan db sets' = buildExecutor plan db sets := by
  induction plan with
  | seqScan | indexScan => rfl
  | externalRows => rw [buildExecutor, buildExecutor, h]
  | join _ _ _ _ _ _ ihl ihr => rw [buildExecutor, buildExecutor, ihl, ihr]
  | filter _ _ _ ih | hashAggregate _ _ _ _ ih | project _ _ _ ih | sort _ _ _ ih | limit _ _ _ ih =>
    rw [buildExecutor, buildExecutor, ih]

theorem executePlan_congr [Rounding] {sets sets' : ExternalRowSets}
    (h : ∀ slot, sets'.lookup slot = sets.lookup slot) (plan : PhysicalPlan R) (db : Database) :
    executePlan plan db sets' = executePlan plan db sets := by
  rw [executePlan, executePlan, buildExecutor_congr h]

end

/-! ### The response -/

/-- Names and values that come back as they were. -/
def ExecutionResult.Travels (result : ExecutionResult) : Prop :=
  (∀ name ∈ result.columns, Clean name) ∧ RowsTravel result.rows

theorem everywhere_responseJson {P : JsonValue → Prop} (hobject : ∀ es, P (.object es))
    (harray : ∀ vs, P (.array vs)) (hstring : ∀ s, P (.string s)) (result : ExecutionResult) :
    (responseJson result).Everywhere P ↔ (RowJson.rowsToJson result.rows).Everywhere P := by
  have hcolumns : (JsonValue.array (result.columns.map .string)).Everywhere P :=
    (JsonValue.everywhere_array_map harray _ _).mpr fun s _ => hstring s
  rw [responseJson, JsonValue.Everywhere, JsonValue.everywhereEntries_iff]
  simp [hobject, hcolumns]

theorem received_responseJson (result : ExecutionResult) : (responseJson result).received =
    .object [("columns", .array (result.columns.map fun name => .string (receivedString name))),
      ("rows", (RowJson.rowsToJson result.rows).received)] := by
  have hcolumns : receivedString "columns" = "columns" := receivedString_eq_self.mpr (by decide)
  have hrows : receivedString "rows" = "rows" := receivedString_eq_self.mpr (by decide)
  have hnames : JsonValue.receivedElements (result.columns.map .string) =
      result.columns.map fun name => .string (receivedString name) := by
    rw [RowJson.receivedElements_eq_map, List.map_map]
    exact List.map_congr_left fun name _ => by rw [Function.comp_apply, JsonValue.received]
  simp only [responseJson, JsonValue.received, JsonValue.receivedEntries, hcolumns, hrows, hnames]
  rfl

theorem map_receivedString_eq_self {names : List String} :
    names.map receivedString = names ↔ ∀ name ∈ names, Clean name := by
  have hmap : names.map receivedString = names.map id ↔ ∀ name ∈ names, receivedString name = name :=
    List.map_inj_left
  rw [List.map_id] at hmap
  rw [hmap]
  exact forall₂_congr fun name _ => receivedString_eq_self

/-! ### What the parser makes of the texts -/

/-- A plan whose integers survive a double and whose texts have no control characters but newlines
and tabs. -/
def PhysicalPlan.Travels (plan : PhysicalPlan Binary64) : Prop :=
  plan.Exact ∧ (PlanSerializer.planToJson plan).Everywhere JsonValue.CleanTexts

theorem received_planToJson {plan : PhysicalPlan Binary64} (h : plan.Travels) :
    (PlanSerializer.planToJson plan).received = PlanSerializer.planToJson plan :=
  (JsonValue.received_eq_self_iff _ (PlanSerializer.distinct_planToJson plan)).mpr h.2

section

variable [NumberText]

theorem parseText_writeJson {v : JsonValue} (h : v.Sound) :
    parseText (writeJson v) = .ok v.received := by
  rw [parseText, parseJson_writeJson h]
  rfl

theorem parseText_writeJson_error (hminus : ∃ e, NumberText.stod ['-'] = .error e) {v : JsonValue}
    (hv : v.Everywhere JsonValue.FiniteCarries) (hunsound : ¬ v.Sound) :
    ∃ what, parseText (writeJson v) = .error (.thrown what) := by
  obtain ⟨e, he⟩ := parseJson_writeJson_error hminus hv hunsound
  exact ⟨e.what, by rw [parseText, he]; rfl⟩

theorem deserialize_planToJson {plan : PhysicalPlan Binary64} (h : plan.Travels)
    (hsound : (PlanSerializer.planToJson plan).Sound) :
    deserialize (writeJson (PlanSerializer.planToJson plan)) = .ok plan := by
  have hdecode := PlanSerializer.decodePlan_some
    ((PlanSerializer.planFrom_planToJson le_rfl).mpr h.1)
  rw [deserialize, PlanSerializer.decodeCachedPlan, parseJson_writeJson hsound,
    received_planToJson h]
  simp only [Except.mapError, Except.ok_bind, hdecode]
  rfl

theorem readResponse_eq_ok_iff (hminus : ∃ e, NumberText.stod ['-'] = .error e)
    {result : ExecutionResult}
    (hnumbers : (RowJson.rowsToJson result.rows).Everywhere JsonValue.FiniteCarries) :
    readResponse (writeJson (responseJson result)) = .ok result ↔ result.Travels := by
  have hresponse : (responseJson result).Everywhere JsonValue.FiniteCarries :=
    (everywhere_responseJson (fun _ _ _ h => by cases h) (fun _ _ _ h => by cases h)
      (fun _ _ _ h => by cases h) result).mpr hnumbers
  have hsound : (responseJson result).Sound ↔ ∀ row ∈ result.rows, ∀ l ∈ row, l.IsFinite := by
    rw [← RowJson.sound_rowsToJson hnumbers]
    exact everywhere_responseJson (fun _ _ h => by cases h) (fun _ _ h => by cases h)
      (fun _ _ h => by cases h) result
  have htravel : RowsTravel result.rows ↔ (∀ row ∈ result.rows, ∀ l ∈ row, l.IsFinite) ∧
      ∀ row ∈ result.rows, ∀ l ∈ row, l.Kept := by
    simp only [RowsTravel, Literal.travels_iff, forall_and]
  rw [ExecutionResult.Travels, htravel, ← hsound, readResponse]
  by_cases h : (responseJson result).Sound
  · have hcolumns : readColumns ((responseJson result).received.find "columns") =
        result.columns.map receivedString := by
      rw [received_responseJson]
      exact List.map_map
    have hrows : (responseJson result).received.find "rows" =
        some (RowJson.rowsToJson result.rows).received := by
      rw [received_responseJson]
      rfl
    rw [parseText_writeJson h, Except.ok_bind, hcolumns, hrows, readRows,
      ← RowJson.rowsFromJson_received, ← map_receivedString_eq_self, and_iff_right h]
    cases hread : RowJson.rowsFromJson (RowJson.rowsToJson result.rows).received with
    | none => simp [Fault.ofOption]
    | some rows =>
      obtain ⟨columns, rows'⟩ := result
      simp [Fault.ofOption]
  · obtain ⟨what, hwhat⟩ := parseText_writeJson_error hminus hresponse h
    rw [hwhat]
    exact iff_of_false (by simp) fun ht => h ht.2.1

/-! ### The two routes -/

theorem callWorkerExecute_of_sound {plan : PhysicalPlan Binary64} (sets : ExternalRowSets)
    (post : HttpPost) (hplan : plan.Travels)
    (hsound : (PlanSerializer.planToJson plan).Sound) : callWorkerExecute post plan sets =
      post (writeJson (requestJson (PlanSerializer.planToJson plan) sets)) >>= readReply := by
  rw [callWorkerExecute, PlanSerializer.serializePlan, parseText_writeJson hsound,
    received_planToJson hplan, Except.ok_bind]

variable [Rounding]

/-- A request that arrives unchanged is executed as it was meant. -/
theorem executeRequest_requestJson {plan : PhysicalPlan Binary64} {sets : ExternalRowSets}
    (hplan : plan.Travels) (hsets : SlotsKept sets.entries)
    (hsound : (requestJson (PlanSerializer.planToJson plan) sets).Sound) (db : Database) :
    executeRequest db (writeJson (requestJson (PlanSerializer.planToJson plan) sets)) = (do
      let result ← Fault.ofExcept (executePlan plan db sets)
      return writeJson (responseJson result)) := by
  have hplanSound : (PlanSerializer.planToJson plan).Sound :=
    ((everywhere_requestJson (fun _ _ h => by cases h) _ _).mp hsound).1
  have hlookup : ∀ slot, AList.lookup slot (sets.entries.foldl
      (fun (sets : ExternalRowSets) s => sets.insert s.1 s.2) ∅) = sets.lookup slot := by
    intro slot
    rw [Table.lookup_foldl_insert sets.nodupKeys, AList.lookup_empty, Option.or_none]
    rfl
  have hexecute := executePlan_congr hlookup plan db
  rw [executeRequest, parseText_writeJson hsound, received_requestJson (received_planToJson hplan)]
  generalize hbody : JsonValue.object _ = body
  have hfind : body.find "plan" = some (PlanSerializer.planToJson plan) := by
    rw [← hbody]
    rfl
  have hexternal : readExternalRows (body.find "external_rows") =
      .ok (sets.entries.foldl (fun sets s => sets.insert s.1 s.2) ∅) := by
    rw [← hbody]
    split_ifs with hempty
    · rw [List.isEmpty_iff] at hempty
      rw [hempty]
      rfl
    · exact readSlots_received hsets
  simp only [Except.ok_bind, hfind, deserialize_planToJson hplan hplanSound, hexternal, hexecute]

variable {full : Database} {schemaCatalog : Catalog} {n i : Nat} {plan : PhysicalPlan Binary64}
  {sets : ExternalRowSets}

theorem callWorkerOrRecover_unreachable (hplan : plan.Travels)
    (hsound : (PlanSerializer.planToJson plan).Sound) :
    callWorkerOrRecover unreachable full schemaCatalog n i plan sets =
      Fault.ofExcept (executeOnPartition full schemaCatalog n i plan sets) := by
  rw [callWorkerOrRecover, callWorkerExecute_of_sound _ _ hplan hsound]
  rfl

/-- A request that the worker refuses is computed on the coordinator. -/
theorem callWorkerOrRecover_of_thrown (hplan : plan.Travels)
    (hsound : (PlanSerializer.planToJson plan).Sound) {db : Database} {what : String}
    (h : executeRequest db (writeJson (requestJson (PlanSerializer.planToJson plan) sets)) =
      .error (.thrown what)) :
    callWorkerOrRecover (answering db) full schemaCatalog n i plan sets =
      Fault.ofExcept (executeOnPartition full schemaCatalog n i plan sets) := by
  rw [callWorkerOrRecover, callWorkerExecute_of_sound _ _ hplan hsound, answering, h]
  rfl

theorem callWorkerOrRecover_of_ok (hplan : plan.Travels)
    (hsound : (PlanSerializer.planToJson plan).Sound) {db : Database} {body : List Char}
    (h : executeRequest db (writeJson (requestJson (PlanSerializer.planToJson plan) sets)) =
      .ok body) :
    callWorkerOrRecover (answering db) full schemaCatalog n i plan sets = readResponse body := by
  have hreply : readReply (some ⟨200, body⟩) = (do return some (← readResponse body)) := by
    rw [readReply]
    exact if_neg fun h => h rfl
  rw [callWorkerOrRecover, callWorkerExecute_of_sound _ _ hplan hsound, answering, h]
  simp only [Except.ok_bind, hreply]
  cases readResponse body <;> rfl

/-- What the coordinator makes of the answer. -/
theorem callWorkerOrRecover_answering (hplan : plan.Travels) (hsets : SlotsKept sets.entries)
    (hsound : (requestJson (PlanSerializer.planToJson plan) sets).Sound) {result : ExecutionResult}
    (hrun : executeOnPartition full schemaCatalog n i plan sets = .ok result) :
    callWorkerOrRecover (answering (filterDatabaseToPartition full schemaCatalog i n)) full
      schemaCatalog n i plan sets = readResponse (writeJson (responseJson result)) := by
  have hplanSound := ((everywhere_requestJson (fun _ _ h => by cases h) _ _).mp hsound).1
  have hexecute := executeRequest_requestJson hplan hsets hsound
    (filterDatabaseToPartition full schemaCatalog i n)
  rw [executeOnPartition] at hrun
  rw [hrun] at hexecute
  exact callWorkerOrRecover_of_ok hplan hplanSound hexecute

/-- The two routes agree unless a request without infinities and NaNs gives an answer whose names
and values do not all come back. -/
theorem callWorkerOrRecover_answering_iff (hminus : ∃ e, NumberText.stod ['-'] = .error e)
    (hplan : plan.Travels) (hsets : SlotsKept sets.entries)
    (hrequest : (requestJson (PlanSerializer.planToJson plan) sets).Everywhere
      JsonValue.FiniteCarries)
    (hresult : ∀ result, executeOnPartition full schemaCatalog n i plan sets = .ok result →
      (RowJson.rowsToJson result.rows).Everywhere JsonValue.FiniteCarries) :
    callWorkerOrRecover (answering (filterDatabaseToPartition full schemaCatalog i n)) full
        schemaCatalog n i plan sets =
      callWorkerOrRecover unreachable full schemaCatalog n i plan sets ↔
    ((requestJson (PlanSerializer.planToJson plan) sets).Everywhere JsonValue.FiniteNumbers →
      ∀ result, executeOnPartition full schemaCatalog n i plan sets = .ok result →
        result.Travels) := by
  have hplanNumbers := ((everywhere_requestJson (fun _ _ _ h => by cases h) _ _).mp hrequest).1
  rw [← JsonValue.sound_iff hrequest]
  by_cases hplanSound : (PlanSerializer.planToJson plan).Sound
  · rw [callWorkerOrRecover_unreachable hplan hplanSound]
    by_cases hsound : (requestJson (PlanSerializer.planToJson plan) sets).Sound
    · cases hrun : executeOnPartition full schemaCatalog n i plan sets with
      | error e =>
        have hexecute := executeRequest_requestJson hplan hsets hsound
          (filterDatabaseToPartition full schemaCatalog i n)
        have hpartition := hrun
        rw [executeOnPartition] at hpartition
        rw [hpartition] at hexecute
        rw [callWorkerOrRecover_of_thrown hplan hplanSound hexecute, hrun]
        exact iff_of_true rfl fun _ result h => by cases h
      | ok result =>
        rw [callWorkerOrRecover_answering hplan hsets hsound hrun]
        refine (readResponse_eq_ok_iff hminus (hresult result hrun)).trans ?_
        constructor
        · rintro h - result' heq
          cases heq
          exact h
        · exact fun h => h hsound result rfl
    · -- the worker cannot read the request
      obtain ⟨what, hwhat⟩ := parseText_writeJson_error hminus hrequest hsound
      have hexecute : executeRequest (filterDatabaseToPartition full schemaCatalog i n)
          (writeJson (requestJson (PlanSerializer.planToJson plan) sets)) =
            .error (.thrown what) := by
        rw [executeRequest, hwhat]
        rfl
      rw [callWorkerOrRecover_of_thrown hplan hplanSound hexecute]
      exact iff_of_true rfl fun h => absurd h hsound
  · -- the coordinator cannot read the text of the plan
    obtain ⟨what, hwhat⟩ := parseText_writeJson_error hminus hplanNumbers hplanSound
    have hcall : ∀ post : HttpPost,
        callWorkerOrRecover post full schemaCatalog n i plan sets = .error (.thrown what) := by
      intro post
      rw [callWorkerOrRecover, callWorkerExecute, PlanSerializer.serializePlan, hwhat]
      rfl
    rw [hcall, hcall]
    refine iff_of_true rfl fun h => absurd ?_ hplanSound
    exact ((everywhere_requestJson (fun _ _ h => by cases h) _ _).mp h).1

end

/-! ### A table of identifiers -/

section

attribute [local instance] Rounding.exact

/-- The text of a whole number, which `%.17g` prints so up to 17 digits. -/
local instance wholeNumbers : NumberText where
  print neg mag := Binary64.signText neg ++ Nat.toDigits 10 mag.num
  stod text :=
    if text ≠ [] ∧ text.all Char.isDigit then .ok (.fin false (Nat.ofDigitChars 10 text 0 : Nat))
    else .error .invalidArgument

theorem carries_ofInt {i : Int} (h : 0 ≤ i) : Carries (Binary64.ofInt i) := by
  have hneg : decide (i < 0) = false := decide_eq_false (by omega)
  rw [Binary64.ofInt, hneg]
  generalize Binary64.roundNat i.natAbs = m
  have hdigits : ∀ c ∈ Nat.toDigits 10 m, c.isDigit = true := fun c hc =>
    Nat.isDigit_of_mem_toDigits (by decide) (by decide) hc
  have hne : Nat.toDigits 10 m ≠ [] := Nat.toDigits_ne_nil
  have htext : numberText (.fin false (m : ℚ≥0)) = Nat.toDigits 10 m := by
    show Binary64.signText false ++ Nat.toDigits 10 (m : ℚ≥0).num = _
    rw [NNRat.num_natCast]
    rfl
  rw [Carries, htext]
  refine ⟨hne, ?_, ?_⟩
  · have htake : (Nat.toDigits 10 m).takeWhile Char.isDigit = Nat.toDigits 10 m :=
      List.takeWhile_eq_self_iff.mpr hdigits
    have hdrop : (Nat.toDigits 10 m).dropWhile Char.isDigit = [] :=
      List.dropWhile_eq_nil_iff.mpr hdigits
    have hsign : scanSign (Nat.toDigits 10 m) = ([], Nat.toDigits 10 m) := by
      refine if_neg fun hminus => ?_
      obtain ⟨c, cs, hcs⟩ := List.exists_cons_of_ne_nil hne
      rw [hcs] at hdigits hminus
      obtain rfl : c = '-' := hminus
      exact absurd (hdigits _ List.mem_cons_self) (by decide)
    have hrest : scanFraction [] = ([], []) ∧ scanExponent [] = ([], []) := ⟨rfl, rfl⟩
    simp only [scanNumber, hsign, htake, hdrop, hrest, List.nil_append, List.append_nil]
  · show (if _ then _ else _) = _
    rw [if_pos ⟨hne, List.all_eq_true.mpr hdigits⟩, Nat.ofDigitChars_ten_toDigits]

def identifiers (id : Int64) : Database :=
  (∅ : Database).insert "t" ⟨["id"], [[.integer id]], by simp⟩

def identifiersCatalog : Catalog :=
  (∅ : Catalog).insert "t" ⟨[⟨"id", .int, false⟩], ⟨1, 8⟩, []⟩

def identifiersScan : PhysicalPlan Binary64 :=
  .seqScan ⟨⟨Binary64.ofInt 0, Binary64.ofInt 0, Binary64.ofInt 0⟩, 1, "", Binary64.ofInt 1⟩ "t" none
    ["id"]

theorem executeOnPartition_identifiers (id : Int64) :
    executeOnPartition (identifiers id) identifiersCatalog 1 0 identifiersScan ∅ =
      .ok ⟨["t.id"], [[.integer id]]⟩ := by
  have howned : partitionOf id 1 = 0 := by simp [partitionOf, Int.tmod_one]
  have hpart : filterTableToPartition ⟨["id"], [[.integer id]], by simp⟩ 0 1 =
      ⟨["id"], [[.integer id]], by simp⟩ := by
    simp [filterTableToPartition, ownsRow, howned]
  have htable : (filterDatabaseToPartition (identifiers id) identifiersCatalog 0 1).get "t" =
      some ⟨["id"], [[.integer id]], by simp⟩ := by
    rw [get_filterDatabaseToPartition (by decide) rfl, hpart]
  rw [executeOnPartition, executePlan, identifiersScan, buildExecutor, loadedTable, htable]
  rfl

theorem travels_identifiersScan : identifiersScan.Travels := by
  have hexact : identifiersScan.Exact := by
    show SizeExact 1
    decide
  refine ⟨hexact, ?_⟩
  exact (JsonValue.received_eq_self_iff _ (PlanSerializer.distinct_planToJson _)).mp rfl

theorem sound_identifiersScan :
    (requestJson (PlanSerializer.planToJson identifiersScan) ∅).Sound := by
  have hnumber : ∀ i : Int, 0 ≤ i → (JsonValue.number (Binary64.ofInt i)).NumberCarries := by
    rintro i hi x ⟨⟩
    exact carries_ofInt hi
  have hzero : (JsonValue.number Binary64.zero).NumberCarries := hnumber 0 le_rfl
  have hnull : JsonValue.null.NumberCarries := fun _ h => by cases h
  have hbool : ∀ b, (JsonValue.bool b).NumberCarries := fun _ _ h => by cases h
  have hstring : ∀ s, (JsonValue.string s).NumberCarries := fun _ _ h => by cases h
  have harray : ∀ vs, (JsonValue.array vs).NumberCarries := fun _ _ h => by cases h
  have hobject : ∀ es, (JsonValue.object es).NumberCarries := fun _ _ h => by cases h
  rw [JsonValue.Sound, everywhere_requestJson hobject]
  refine ⟨?_, fun s hs => by cases hs⟩
  simp [identifiersScan, PlanSerializer.planToJson, PlanSerializer.planObject,
    PlanSerializer.exprToJson, PlanSerializer.exprObject, PlanSerializer.literalToJson,
    PlanSerializer.costToJson, Literal.fields, JsonValue.Everywhere, JsonValue.EverywhereEntries,
    JsonValue.EverywhereElements, ofInt64, ofSize, optionalText, optionalChild, hnumber, hzero, hnull,
    hbool, hstring, harray, hobject]

theorem finiteCarries_identifier {id : Int64} (h : 0 ≤ id.toInt) :
    (RowJson.rowsToJson [[.integer id]]).Everywhere JsonValue.FiniteCarries := by
  rw [RowJson.everywhere_rowsToJson fun _ _ _ h => by cases h]
  simp only [List.forall_mem_singleton]
  rw [RowJson.everywhere_literalToJson (fun _ _ _ h => by cases h) (fun _ _ _ h => by cases h)
    (fun _ _ _ h => by cases h)]
  refine ⟨?_, fun x hx => by cases hx⟩
  rintro i hi neg mag hx
  cases hi
  cases hx
  exact carries_ofInt h

theorem stod_minus : ∃ e, NumberText.stod ['-'] = .error e := ⟨_, if_neg (by decide)⟩

/-- The identifier 2^53 + 1 comes from a worker that answers as 2^53. -/
theorem callWorkerOrRecover_2p53 :
    callWorkerOrRecover (answering (filterDatabaseToPartition (identifiers 9007199254740993)
        identifiersCatalog 0 1)) (identifiers 9007199254740993) identifiersCatalog 1 0
        identifiersScan ∅ ≠
      callWorkerOrRecover unreachable (identifiers 9007199254740993) identifiersCatalog 1 0
        identifiersScan ∅ := by
  have hsound := sound_identifiersScan
  have hplanSound := ((everywhere_requestJson (fun _ _ h => by cases h) _ _).mp hsound).1
  have hrun := executeOnPartition_identifiers 9007199254740993
  have hinexact : ¬ IntExact 9007199254740993 := by decide
  rw [callWorkerOrRecover_answering travels_identifiersScan (by simp [SlotsKept]) hsound hrun,
    callWorkerOrRecover_unreachable travels_identifiersScan hplanSound, hrun]
  intro h
  have htravels := (readResponse_eq_ok_iff stod_minus (finiteCarries_identifier (by decide))).mp h
  exact hinexact (htravels.2 _ List.mem_cons_self _ List.mem_cons_self)

theorem callWorkerOrRecover_identifier :
    callWorkerOrRecover (answering (filterDatabaseToPartition (identifiers 7) identifiersCatalog 0
        1)) (identifiers 7) identifiersCatalog 1 0 identifiersScan ∅ =
      callWorkerOrRecover unreachable (identifiers 7) identifiersCatalog 1 0 identifiersScan ∅ := by
  refine (callWorkerOrRecover_answering_iff stod_minus travels_identifiersScan (by simp [SlotsKept])
    sound_identifiersScan.finite fun result h => ?_).mpr fun _ result h => ?_
  · rw [executeOnPartition_identifiers] at h
    cases h
    exact finiteCarries_identifier (by decide)
  · rw [executeOnPartition_identifiers] at h
    cases h
    exact ⟨by decide, by simp [RowsTravel, Literal.Travels]; decide⟩

end

end SqlOptimizer

import SqlOptimizer.Execution.ExprEval
import SqlOptimizer.Integration.PlanRoundTrip
import SqlOptimizer.Util.JsonNumbers

/-! `distributed/row_json.cpp`: rows as JSON for the calls of the workers, and the rows that arrive. -/

namespace SqlOptimizer

namespace RowJson

def literalToJson : Literal → JsonValue
  | .integer i => .object [("k", .string "i"), ("v", ofInt64 i)]
  | .floating x => .object [("k", .string "f"), ("v", .number x)]
  | .str s => .object [("k", .string "s"), ("v", .string s)]
  | .boolean b => .object [("k", .string "b"), ("v", .bool b)]
  | .null => .object [("k", .string "n")]

/-- The literal of an object; none where the cast to an integer is undefined. -/
def literalFromJson (j : JsonValue) : Option Literal :=
  let kind := ((j.find "k").map JsonValue.asString).getD "n"
  let v := j.find "v"
  if kind = "i" then
    match v with
    | some v => (castInt64 v.asNumber).toOption.map .integer
    | none => some (.integer 0)
  else if kind = "f" then some (.floating ((v.map JsonValue.asNumber).getD Binary64.zero))
  else if kind = "s" then some (.str ((v.map JsonValue.asString).getD ""))
  else if kind = "b" then some (.boolean ((v.map JsonValue.asBool).getD false))
  else some .null

def rowToJson (row : Row) : JsonValue := .array (row.map literalToJson)

def rowsToJson (rows : List Row) : JsonValue := .array (rows.map rowToJson)

def rowFromJson : JsonValue → Option Row
  | .array vs => vs.mapM literalFromJson
  | _ => some []

def rowsFromJson : JsonValue → Option (List Row)
  | .array rows => rows.mapM rowFromJson
  | _ => some []

end RowJson

/-! ### What arrives -/

/-- A literal that survives the trip through JSON: an integer that a double holds, a finite double,
a text without control characters but newlines and tabs. -/
def Literal.Travels : Literal → Prop
  | .integer i => IntExact i
  | .floating x => ∃ neg mag, x = .fin neg mag
  | .str s => Clean s
  | _ => True

def RowsTravel (rows : List Row) : Prop := ∀ row ∈ rows, ∀ l ∈ row, l.Travels

/-- No infinity and no NaN. -/
def Literal.IsFinite : Literal → Prop
  | .floating x => ∃ neg mag, x = .fin neg mag
  | _ => True

/-- The text or the integer is not changed on the way. -/
def Literal.Kept : Literal → Prop
  | .integer i => IntExact i
  | .str s => Clean s
  | _ => True

theorem Literal.travels_iff (l : Literal) : l.Travels ↔ l.IsFinite ∧ l.Kept := by
  cases l <;> simp [Travels, IsFinite, Kept]

namespace RowJson

theorem received_tagged (tag : String) (v : JsonValue) (htag : Clean tag) :
    (JsonValue.object [("k", .string tag), ("v", v)]).received =
      .object [("k", .string tag), ("v", v.received)] := by
  have hk : receivedString "k" = "k" := receivedString_eq_self.mpr (by decide)
  have hv : receivedString "v" = "v" := receivedString_eq_self.mpr (by decide)
  simp only [JsonValue.received, JsonValue.receivedEntries, hk, hv, receivedString_eq_self.mpr htag]
  rfl

theorem literalFromJson_received (l : Literal) :
    literalFromJson (literalToJson l).received = some l ↔ l.Kept := by
  cases l with
  | integer i =>
    rw [literalToJson, received_tagged "i" _ (by decide), Literal.Kept, ← castInt64_ofInt]
    have hread : literalFromJson (.object [("k", .string "i"), ("v", (ofInt64 i).received)]) =
        (castInt64 (Binary64.ofInt i.toInt)).toOption.map .integer := rfl
    rw [hread]
    cases castInt64 (Binary64.ofInt i.toInt) <;> simp [Except.toOption]
  | floating x =>
    rw [literalToJson, received_tagged "f" _ (by decide)]
    exact iff_of_true rfl trivial
  | str s =>
    rw [literalToJson, received_tagged "s" _ (by decide), Literal.Kept, ← receivedString_eq_self]
    have hread : literalFromJson (.object [("k", .string "s"), ("v", (JsonValue.string s).received)]) =
        some (.str (receivedString s)) := rfl
    rw [hread, Option.some.injEq, Literal.str.injEq]
  | boolean b =>
    rw [literalToJson, received_tagged "b" _ (by decide)]
    exact iff_of_true rfl trivial
  | null =>
    have hk : receivedString "k" = "k" := receivedString_eq_self.mpr (by decide)
    have hn : receivedString "n" = "n" := receivedString_eq_self.mpr (by decide)
    refine iff_of_true ?_ trivial
    simp only [literalToJson, JsonValue.received, JsonValue.receivedEntries, hk, hn]
    rfl

theorem receivedElements_eq_map (vs : List JsonValue) :
    JsonValue.receivedElements vs = vs.map JsonValue.received := by
  induction vs with
  | nil => rfl
  | cons v vs ih => rw [JsonValue.receivedElements, ih, List.map_cons]

theorem rowFromJson_received (row : Row) :
    rowFromJson (rowToJson row).received = some row ↔ ∀ l ∈ row, l.Kept := by
  rw [rowToJson, JsonValue.received, receivedElements_eq_map, List.map_map, rowFromJson,
    Option.mapM_map_eq_some]
  exact forall₂_congr fun l _ => literalFromJson_received l

/-- The rows arrive as they were when no integer and no text of theirs is changed. -/
theorem rowsFromJson_received (rows : List Row) :
    rowsFromJson (rowsToJson rows).received = some rows ↔ ∀ row ∈ rows, ∀ l ∈ row, l.Kept := by
  rw [rowsToJson, JsonValue.received, receivedElements_eq_map, List.map_map, rowsFromJson,
    Option.mapM_map_eq_some]
  exact forall₂_congr fun row _ => rowFromJson_received row

/-! ### The numbers of a row -/

theorem everywhere_literalToJson {P : JsonValue → Prop} (hobject : ∀ es, P (.object es))
    (hstring : ∀ s, P (.string s)) (hbool : ∀ b, P (.bool b)) (l : Literal) :
    (literalToJson l).Everywhere P ↔
      (∀ i, l = .integer i → P (ofInt64 i)) ∧ ∀ x, l = .floating x → P (.number x) := by
  cases l <;> simp [literalToJson, JsonValue.Everywhere, JsonValue.EverywhereEntries, hobject,
    hstring, hbool, ofInt64]

theorem everywhere_rowsToJson {P : JsonValue → Prop} (harray : ∀ vs, P (.array vs))
    (rows : List Row) : (rowsToJson rows).Everywhere P ↔
      ∀ row ∈ rows, ∀ l ∈ row, (literalToJson l).Everywhere P := by
  rw [rowsToJson, JsonValue.everywhere_array_map harray]
  exact forall₂_congr fun row _ => JsonValue.everywhere_array_map harray _ _

section

variable [NumberText]

theorem sound_literalToJson {l : Literal}
    (h : (literalToJson l).Everywhere JsonValue.FiniteCarries) :
    (literalToJson l).Sound ↔ l.IsFinite := by
  rw [everywhere_literalToJson (fun _ _ _ h => by cases h) (fun _ _ _ h => by cases h)
    (fun _ _ _ h => by cases h)] at h
  rw [JsonValue.Sound, everywhere_literalToJson (fun _ _ h => by cases h) (fun _ _ h => by cases h)
    (fun _ _ h => by cases h)]
  obtain ⟨hint, hfloat⟩ := h
  constructor
  · rintro ⟨-, hcarries⟩
    cases l with
    | floating x => exact (hcarries x rfl x rfl).finite
    | _ => trivial
  · intro hfinite
    constructor
    · rintro i hi x hx
      cases hx
      exact hint i hi _ _ rfl
    · rintro x rfl y hy
      cases hy
      obtain ⟨neg, mag, rfl⟩ := hfinite
      exact hfloat _ rfl neg mag rfl

/-- The text of rows is read when no number in them is an infinity or a NaN. -/
theorem sound_rowsToJson {rows : List Row}
    (h : (rowsToJson rows).Everywhere JsonValue.FiniteCarries) :
    (rowsToJson rows).Sound ↔ ∀ row ∈ rows, ∀ l ∈ row, l.IsFinite := by
  rw [everywhere_rowsToJson fun _ _ _ h => by cases h] at h
  rw [JsonValue.Sound, everywhere_rowsToJson fun _ _ h => by cases h]
  exact forall₂_congr fun row hrow => forall₂_congr fun l hl => sound_literalToJson (h row hrow l hl)

end

end RowJson

end SqlOptimizer

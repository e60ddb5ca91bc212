import SqlOptimizer.Distributed.Coordinator
import SqlOptimizer.Distributed.RowJson
import SqlOptimizer.Web.HttpServer

/-! `distributed/worker_service.cpp` and the calls of `distributed/coordinator.cpp`: a plan and
external rows go to a worker as JSON text, and its rows come back as JSON text.  The delay that a
worker imposes on itself is left out. -/

namespace SqlOptimizer

/-- Why a computation has no result: an exception, or a cast that C++ leaves undefined. -/
inductive Fault where
  | thrown (what : String)
  | undefined

namespace Fault

def ofExcept {α : Type} (x : Except String α) : Except Fault α := x.mapError .thrown

def ofOption {α : Type} : Option α → Except Fault α
  | some a => .ok a
  | none => .error .undefined

end Fault

section

variable [NumberText]

def parseText (text : List Char) : Except Fault JsonValue :=
  Fault.ofExcept ((parseJson text).mapError JsonError.what)

/-- `deserialize_plan` -/
def deserialize (text : List Char) : Except Fault (PhysicalPlan Binary64) := do
  Fault.ofOption (← Fault.ofExcept (PlanSerializer.decodeCachedPlan text))

/-! ### The worker -/

def readRows : Option JsonValue → Except Fault (List Row)
  | some rows => Fault.ofOption (RowJson.rowsFromJson rows)
  | none => .ok []

/-- The loop over `external_rows`. -/
def readSlots (entries : List (String × JsonValue)) : Except Fault ExternalRowSets :=
  entries.foldlM (fun sets e => do
    match Http.stoul (ascii e.1) with
    | none => .error (.thrown "stoul")
    | some slot => return sets.insert slot (← readRows (e.2.find "rows"))) ∅

def readExternalRows : Option JsonValue → Except Fault ExternalRowSets
  | some (.object entries) => readSlots entries
  | _ => .ok ∅

def responseJson (result : ExecutionResult) : JsonValue :=
  .object [("columns", .array (result.columns.map .string)),
    ("rows", RowJson.rowsToJson result.rows)]

/-- The handler of `POST /worker/execute`. -/
def executeRequest [Rounding] (database : Database) (request : List Char) :
    Except Fault (List Char) := do
  let body ← parseText request
  match body.find "plan" with
  | none => .error (.thrown "worker: missing 'plan' field")
  | some planField =>
    let plan ← deserialize (writeJson planField)
    let externalRows ← readExternalRows (body.find "external_rows")
    let result ← Fault.ofExcept (executePlan plan database externalRows)
    return writeJson (responseJson result)

/-- An `HttpClientResponse`, its body as a text. -/
structure WorkerReply where
  status : Int
  body : List Char

/-- What `http_post_json` returns for the text of a request. -/
abbrev HttpPost := List Char → Except Fault (Option WorkerReply)

/-- A worker that answers: `HttpServer` turns an exception of the handler into status 500. -/
def answering [Rounding] (database : Database) : HttpPost := fun request =>
  match executeRequest database request with
  | .ok body => .ok (some ⟨200, body⟩)
  | .error (.thrown what) => .ok (some ⟨500, writeJson (.object [("error", .string what)])⟩)
  | .error .undefined => .error .undefined

/-- A call that fails. -/
def unreachable : HttpPost := fun _ => .ok none

/-! ### The coordinator -/

def slotToJson (rows : List Row) : JsonValue := .object [("rows", RowJson.rowsToJson rows)]

/-- The slots, in the order of the map. -/
def externalToJson (sets : ExternalRowSets) : JsonValue :=
  .object (JsonValue.merge [] (sets.entries.map fun s => (toString s.1, slotToJson s.2)))

def requestJson (planJson : JsonValue) (externalRows : ExternalRowSets) : JsonValue :=
  .object (("plan", planJson) ::
    if externalRows.entries.isEmpty then [] else [("external_rows", externalToJson externalRows)])

def readColumns : Option JsonValue → List String
  | some (.array cols) => cols.map JsonValue.asString
  | _ => []

/-- The columns and rows of a response. -/
def readResponse (body : List Char) : Except Fault ExecutionResult := do
  let parsed ← parseText body
  let rows ← readRows (parsed.find "rows")
  return ⟨readColumns (parsed.find "columns"), rows⟩

/-- What is made of a reply; without one, or with a status other than 200, there is no answer. -/
def readReply : Option WorkerReply → Except Fault (Option ExecutionResult)
  | none => .ok none
  | some resp => if resp.status ≠ 200 then .ok none else do return some (← readResponse resp.body)

def callWorkerExecute (post : HttpPost) (plan : PhysicalPlan Binary64)
    (externalRows : ExternalRowSets) : Except Fault (Option ExecutionResult) := do
  let planJson ← parseText (PlanSerializer.serializePlan plan)
  readReply (← post (writeJson (requestJson planJson externalRows)))

/-- What the call returns for worker `i`; without an answer, what its part of the database gives. -/
def callWorkerOrRecover [Rounding] (post : HttpPost) (full : Database) (schemaCatalog : Catalog)
    (numWorkers i : Nat) (plan : PhysicalPlan Binary64) (externalRows : ExternalRowSets) :
    Except Fault ExecutionResult := do
  match ← callWorkerExecute post plan externalRows with
  | some resp => return resp
  | none => Fault.ofExcept (executeOnPartition full schemaCatalog numWorkers i plan externalRows)

end

end SqlOptimizer

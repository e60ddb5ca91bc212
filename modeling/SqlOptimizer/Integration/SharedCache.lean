import SqlOptimizer.Cache.Command.Operations
import SqlOptimizer.Cache.Command.Sweeps
import SqlOptimizer.Cache.Storage.Bookkeeping
import SqlOptimizer.Distributed.WorkerCalls
import SqlOptimizer.Integration.CachedPlanner
import SqlOptimizer.Integration.Framing
import SqlOptimizer.Library.Machine

/-! Planners that share one cache server.  Requests, the delivery or the loss of what they store,
commands of other clients, evictions and sweeps come in any order; a request is answered as if
there were no cache. -/

namespace SqlOptimizer.Cache

variable {n : Nat} [NeZero n]

/-! ### What a command writes -/

namespace ShardedStore

variable {s : ShardedStore n} {P : Fin n → Bytes → Bytes → Prop}

/-- `P` holds of the key and the value of each entry, in its shard. -/
def Entries (s : ShardedStore n) (P : Fin n → Bytes → Bytes → Prop) : Prop :=
  ∀ i, ∀ e ∈ (s.shards i).entries.entries, P i e.1 e.2.value

theorem Entries.flushAll (hs : s.Entries P) : s.flushAll.Entries P := by
  have hrun : s.flushAll = s.run ((List.finRange n).map .flushAll) := by
    rw [run, List.foldl_map]
    rfl
  rw [hrun]
  refine fun i => run_entries_forall (fun op hop key ent hwrites => ?_) hs i
  obtain ⟨j, -, rfl⟩ := List.mem_map.mp hop
  exact hwrites.elim

theorem Entries.sweepShard (hs : s.Entries P) (i : Fin n) (now : Time) :
    (s.sweepShard i now).Entries P := by
  have hrun : s.sweepShard i now = s.run [.sweepExpired i now] := rfl
  rw [hrun]
  refine fun j => run_entries_forall (fun op hop key ent hwrites => ?_) hs j
  rw [List.mem_singleton.mp hop] at hwrites
  exact hwrites.elim

variable [Rounding]

/-- What holds of every entry, and of all that the operations of a command may write, holds after
it. -/
theorem Entries.dispatch (hs : s.Entries P) {args : List Bytes} {ctx : Context}
    (hwrites : ∀ p ∈ argsOperations ctx args, ∀ key ent, p.2.Writes key ent →
      P p.2.shard key ent.value) : (dispatch args ctx s).2.Entries P := by
  rcases args with _ | ⟨name, rest⟩
  · exact hs
  unfold Cache.dispatch
  unfold argsOperations at hwrites
  dsimp only at hwrites ⊢
  rcases hcmd : handlerFor (toUpper name) with _ | cmd
  · exact hs
  rw [hcmd] at hwrites
  dsimp only at hwrites ⊢
  by_cases hkeyed : cmd.keyed = true
  · rw [handle_eq_run hkeyed, runTimed]
    refine fun i => run_entries_forall (s := countCommand s) (fun op hop key ent hw => ?_) hs i
    obtain ⟨p, hp, rfl⟩ := List.mem_map.mp hop
    exact hwrites p hp key ent hw
  · cases cmd with
    | get | set | mset | mget | del | «exists» | type | expire | persist | ttl | incr | decr =>
      exact absurd rfl hkeyed
    | ping | echo | dbsize | info | save => exact hs
    | flushall =>
      rcases rest with _ | ⟨arg, rest⟩
      · exact Entries.flushAll (s := countCommand s) hs
      · exact hs

end ShardedStore

end SqlOptimizer.Cache

namespace SqlOptimizer.Integration

open Cache PlanSerializer

/-- The arguments of `plan_with_cache`; the time to live is a C++ `int`. -/
structure PlanRequest where
  sql : List Char
  schemaCatalog : Catalog
  statsCatalog : StatisticsCatalog Binary64
  versions : CacheVersions
  ttlSeconds : Int
  ttl_int : -2 ^ 31 ≤ ttlSeconds ∧ ttlSeconds < 2 ^ 31

def PlanRequest.key (r : PlanRequest) (stmt : Statement) : Bytes :=
  ascii (buildCacheKey stmt r.versions)

/-- The store of the server, and the `SET`s that were sent and have not arrived. -/
structure SharedCache (n : Nat) where
  store : ShardedStore n
  pending : List (List Bytes)

/-- What can happen: a planner handles a request, with or without a connection; a pending `SET`
arrives or is lost; the server dispatches a command of another client; a shard is swept. -/
inductive CacheEvent (n : Nat) where
  | request (r : PlanRequest) (ctx : Context) (connected : Bool)
  | deliver (i : Nat) (ctx : Context)
  | lose (i : Nat)
  | command (args : List Bytes) (ctx : Context)
  | sweep (i : Fin n) (now : Time)

section

variable {n : Nat} [NeZero n] [Rounding]

/-- A command over a connection: the bytes that come back, and the store.  A command that the server
cannot parse closes the connection. -/
def serve (args : List Bytes) (ctx : Context) (store : ShardedStore n) : Bytes × ShardedStore n :=
  match parseCommand (encodeCommand args) with
  | .error _ => ([], store)
  | .ok (args, _) =>
    let (reply, store) := dispatch args ctx store
    (writeRESP reply, store)

namespace SharedCache

section

variable [NumberText] [CostNum Binary64]

/-- The client of a planner. -/
def client (c : SharedCache n) (ctx : Context) (connected : Bool) : CacheClient :=
  ⟨fun args => if connected then some (serve args ctx c.store).1 else none⟩

def answer (c : SharedCache n) (r : PlanRequest) (ctx : Context) (connected : Bool) :
    Except String CachedPlanResult :=
  planWithCache r.sql r.schemaCatalog r.statsCatalog (c.client ctx connected) r.versions
    r.ttlSeconds

/-- A request whose statement parses asks the server for its key; the `SET` of a miss follows. -/
def afterRequest (c : SharedCache n) (r : PlanRequest) (ctx : Context) (connected : Bool) :
    SharedCache n :=
  if connected then
    { store := match parseSql r.sql with
        | .error _ => c.store
        | .ok stmt => (serve [ascii "GET", r.key stmt] ctx c.store).2
      pending := c.pending ++ match c.answer r ctx connected with
        | .error _ => []
        | .ok result => result.sent.tail }
  else c

/-- One event; a request has an answer. -/
def step : Machine (SharedCache n) (CacheEvent n) (Option (Except String CachedPlanResult))
  | c, .request r ctx connected => (some (c.answer r ctx connected), c.afterRequest r ctx connected)
  | c, .deliver i ctx =>
    match c.pending[i]? with
    | none => (none, c)
    | some args => (none, ⟨(serve args ctx c.store).2, c.pending.eraseIdx i⟩)
  | c, .lose i => (none, { c with pending := c.pending.eraseIdx i })
  | c, .command args ctx => (none, { c with store := (dispatch args ctx c.store).2 })
  | c, .sweep i now => (none, { c with store := c.store.sweepShard i now })

end

end SharedCache

/-! ### The commands of a planner -/

omit [Rounding] in
theorem handlerFor_get : handlerFor (Cache.toUpper (ascii "GET")) = some .get := by decide

omit [Rounding] in
theorem handlerFor_set : handlerFor (Cache.toUpper (ascii "SET")) = some .set := by decide

omit [NeZero n] [Rounding] in
theorem argsOperations_get (ctx : Context) (key : Bytes) :
    argsOperations (n := n) ctx [ascii "GET", key] =
      [(ctx.clock 0, .get key (ctx.clock 0))] := by
  rw [argsOperations, handlerFor_get]
  rfl

omit [NeZero n] [Rounding] in
theorem argsOperations_set (ctx : Context) (key value : Bytes) (ttlSeconds : Int) :
    argsOperations (n := n) ctx (CacheClient.setArgs key value ttlSeconds) = setOperations ctx
      (key :: value :: if 0 < ttlSeconds then [ascii "EX", intText ttlSeconds] else []) := by
  rw [CacheClient.setArgs, List.cons_append, argsOperations, handlerFor_set]
  rfl

/-- The reply to `GET` is the live value of the key. -/
theorem dispatch_get (key : Bytes) (ctx : Context) (s : ShardedStore n) :
    (dispatch [ascii "GET", key] ctx s).1 =
      match (liveAt (ctx.clock 0) ((s.shards (shardFor n key)).entries.lookup key)).map
        (·.value) with
      | some v => .bulk v
      | none => .null := by
  have hget : (((countCommand s).held (shardFor n key)).get key (ctx.clock 0)).1 = _ ∧ _ :=
    Held.get_entry
  have hentry : ((countCommand s).held (shardFor n key)).lookup key =
      (s.shards (shardFor n key)).entries.lookup key := rfl
  rw [dispatch, handlerFor_get, ← hentry, ← hget.1]
  rfl

/-! ### Frames -/

omit [Rounding] in
theorem length_buildCacheKey (stmt : Statement) (versions : CacheVersions) :
    (ascii (buildCacheKey stmt versions)).length ≤ 100 := by
  have hdigits : ∀ v : UInt64, (toString v.toNat).length ≤ 20 := by
    intro v
    rw [Nat.toString_eq_repr]
    exact (Nat.length_repr_le_iff (by omega)).mpr (v.toNat_lt.trans (by omega))
  have hschema := hdigits versions.schemaVersion
  have hstats := hdigits versions.statsVersion
  have hhex : (hex64 (fnv1a64 (toCanonicalSql stmt))).length = 16 := by
    rw [hex64, String.length_ofList, List.length_map, List.length_range]
  have hplan : "plan:".length = 5 := rfl
  have hcolon : ":".length = 1 := rfl
  rw [ascii, List.length_map, String.length_toList, buildCacheKey, String.length_append,
    String.length_append, String.length_append, String.length_append, String.length_append]
  omega

omit [Rounding] in
theorem sendable_get (r : PlanRequest) (stmt : Statement) :
    Sendable [ascii "GET", r.key stmt] := by
  have hkey := length_buildCacheKey stmt r.versions
  refine ⟨by simp, ?_⟩
  simp only [List.forall_mem_cons, List.not_mem_nil, false_imp_iff, implies_true, and_true]
  exact ⟨by decide, hkey.trans (by omega)⟩

omit [Rounding] in
theorem sendable_set (r : PlanRequest) (stmt : Statement) {value : Bytes}
    (hvalue : value.length ≤ 512 * 2 ^ 20) :
    Sendable (CacheClient.setArgs (r.key stmt) value r.ttlSeconds) := by
  have hkey := length_buildCacheKey stmt r.versions
  have hint := r.ttl_int
  have httl : (intText r.ttlSeconds).length ≤ 20 := by
    have hlength := length_intText_wrap64 r.ttlSeconds
    rwa [wrap64, Int.bmod_eq_of_le (by omega) (by omega)] at hlength
  have hargs : ∀ a ∈ CacheClient.setArgs (r.key stmt) value r.ttlSeconds,
      a.length ≤ 512 * 2 ^ 20 := by
    intro a ha
    rcases List.mem_append.mp ha with ha | ha
    · simp only [List.mem_cons, List.not_mem_nil, or_false] at ha
      rcases ha with ha | ha | ha
      · rw [ha]
        decide
      · rw [ha]
        exact hkey.trans (by omega)
      · rw [ha]
        exact hvalue
    · split at ha
      · simp only [List.mem_cons, List.not_mem_nil, or_false] at ha
        rcases ha with rfl | rfl
        · decide
        · exact httl.trans (by omega)
      · cases ha
  refine ⟨?_, hargs⟩
  unfold CacheClient.setArgs
  split <;> simp

theorem serve_sendable {args : List Bytes} (h : Sendable args) (ctx : Context)
    (store : ShardedStore n) : serve args ctx store =
      (writeRESP (dispatch args ctx store).1, (dispatch args ctx store).2) := by
  have hparse := parseCommand_encode h []
  rw [List.append_nil] at hparse
  rw [serve, hparse]

/-! ### Every stored document is the plan of its key -/

section

variable [NumberText] [CostNum Binary64]

/-- A plan that its JSON text and a bulk string carry. -/
structure Storable (plan : PhysicalPlan Binary64) : Prop where
  travels : plan.Travels
  sound : (planToJson plan).Sound
  bytes : ∀ c ∈ serializePlan plan, c.toNat < 256
  length : (serializePlan plan).length ≤ 512 * 2 ^ 20

/-- Planning the request without a cache. -/
def PlanRequest.plan (r : PlanRequest) : Except String (PhysicalPlan Binary64) :=
  planSql r.sql r.schemaCatalog r.statsCatalog

/-- Requests whose keys tell their plans apart, and whose plans can be stored. -/
structure Compatible (requests : List PlanRequest) : Prop where
  keys : ∀ r ∈ requests, ∀ r' ∈ requests, ∀ stmt stmt', parseSql r.sql = .ok stmt →
    parseSql r'.sql = .ok stmt' → r.key stmt = r'.key stmt' → r.plan = r'.plan
  storable : ∀ r ∈ requests, ∀ plan, r.plan = .ok plan → Storable plan

/-- Under the key of a request there is nothing but the document of its plan. -/
def Documents (requests : List PlanRequest) (key value : Bytes) : Prop :=
  ∀ r ∈ requests, ∀ stmt, parseSql r.sql = .ok stmt → key = r.key stmt →
    ∃ plan, r.plan = .ok plan ∧ value = textBytes (serializePlan plan)

/-- What a miss of one of the requests sends. -/
def Stores (requests : List PlanRequest) (args : List Bytes) : Prop :=
  ∃ r ∈ requests, ∃ stmt plan, parseSql r.sql = .ok stmt ∧ r.plan = .ok plan ∧
    args = CacheClient.setArgs (r.key stmt) (textBytes (serializePlan plan)) r.ttlSeconds

omit [NeZero n] [Rounding] in
/-- The `SET` of a miss writes the document, or nothing. -/
theorem Stores.writes {requests : List PlanRequest} (hcompatible : Compatible requests)
    {args : List Bytes} {ctx : Context} (h : Stores requests args) : ∀ p ∈ argsOperations (n := n) ctx args, ∀ key ent,
      p.2.Writes key ent → Documents requests key ent.value := by
  obtain ⟨r, hr, stmt, plan, hparse, hplan, rfl⟩ := h
  intro p hp key ent hwrites
  rw [argsOperations_set, setOperations] at hp
  split at hp
  · cases hp
  · rw [List.mem_singleton.mp hp] at hwrites
    obtain ⟨hwritten, hent⟩ := hwrites
    intro r' hr' stmt' hparse' hkey
    have hsame := hcompatible.keys r hr r' hr' stmt stmt' hparse hparse' (hwritten.symm.trans hkey)
    refine ⟨plan, hsame.symm.trans hplan, ?_⟩
    rw [hent]
    unfold Held.newEntry
    split <;> rfl

omit [Rounding] in
theorem Stores.sendable {requests : List PlanRequest} (hcompatible : Compatible requests)
    {args : List Bytes} (h : Stores requests args) : Sendable args := by
  obtain ⟨r, hr, stmt, plan, -, hplan, rfl⟩ := h
  refine sendable_set r stmt ?_
  rw [textBytes, List.length_map]
  exact (hcompatible.storable r hr plan hplan).length

namespace SharedCache

structure Coherent (requests : List PlanRequest) (c : SharedCache n) : Prop where
  entries : c.store.Entries fun _ => Documents requests
  pending : ∀ args ∈ c.pending, Stores requests args

variable {requests : List PlanRequest} {c : SharedCache n} {r : PlanRequest} {ctx : Context}

omit [Rounding] in
theorem coherent_new (numShards maxMemoryBytes : Int) :
    Coherent requests ⟨newStore numShards maxMemoryBytes, []⟩ :=
  ⟨fun _ _ he => (nomatch he), fun _ h => nomatch h⟩

omit [NumberText] [CostNum Binary64] in
/-- Over a connection, a lookup finds the live value. -/
theorem client_get {key : Bytes} (hsendable : Sendable [ascii "GET", key]) {e : Option CacheEntry}
    (he : liveAt (ctx.clock 0) ((c.store.shards (shardFor n key)).entries.lookup key) = e)
    (hlength : ∀ ent, e = some ent → ent.value.length ≤ 512 * 2 ^ 20) :
    (c.client ctx true).get key = e.map (·.value) := by
  have hclient : (c.client ctx true).sendCommand [ascii "GET", key] =
      ((parseReply socketByteReader (writeRESP (dispatch [ascii "GET", key] ctx
        c.store).1)).toOption.bind fun p => some p.1) := by
    show ((some (serve _ ctx c.store).1).bind fun received =>
      (parseReply socketByteReader received).toOption.bind fun p => some p.1) = _
    rw [serve_sendable hsendable]
    rfl
  have hdispatch := dispatch_get key ctx c.store
  rw [he] at hdispatch
  rcases e with _ | ent
  · have hread := parseReply_write socketByteReader_reads .null rfl []
    rw [List.append_nil] at hread
    rw [CacheClient.get, hclient, hdispatch, Option.map_none]
    dsimp only
    rw [hread]
    rfl
  · have hmax := maxBulkLength_eq
    have hbulk : Transmissible (.bulk ent.value) := .bulk (by have := hlength ent rfl; omega)
    have hread := parseReply_write socketByteReader_reads hbulk rfl []
    rw [List.append_nil] at hread
    rw [CacheClient.get, hclient, hdispatch, Option.map_some]
    dsimp only
    rw [hread]
    rfl

omit [NeZero n] [Rounding] in
theorem Coherent.document (h : c.Coherent requests) {i : Fin n} {key : Bytes} {ent : CacheEntry}
    (hent : (c.store.shards i).entries.lookup key = some ent) : Documents requests key ent.value :=
  h.entries i _ (AList.mem_lookup_iff.mp hent)

variable (ctx) in
/-- A lookup finds nothing, or the document of the plan. -/
theorem Coherent.get (h : c.Coherent requests) (hcompatible : Compatible requests)
    (hr : r ∈ requests) {stmt : Statement} (hparse : parseSql r.sql = .ok stmt) (connected : Bool) :
    (c.client ctx connected).get (r.key stmt) = none ∨ ∃ plan, r.plan = .ok plan ∧
      (c.client ctx connected).get (r.key stmt) = some (textBytes (serializePlan plan)) := by
  rcases connected with _ | _
  · exact .inl rfl
  have hdocument : ∀ ent, liveAt (ctx.clock 0) ((c.store.shards (shardFor n
      (r.key stmt))).entries.lookup (r.key stmt)) = some ent →
        ∃ plan, r.plan = .ok plan ∧ ent.value = textBytes (serializePlan plan) := by
    intro ent hlive
    exact h.document (Option.filter_eq_some_iff.mp hlive).1 r hr stmt hparse rfl
  have hlength : ∀ ent, liveAt (ctx.clock 0) ((c.store.shards (shardFor n
      (r.key stmt))).entries.lookup (r.key stmt)) = some ent →
        ent.value.length ≤ 512 * 2 ^ 20 := by
    intro ent hlive
    obtain ⟨plan, hplan, hvalue⟩ := hdocument ent hlive
    rw [hvalue, textBytes, List.length_map]
    exact (hcompatible.storable r hr plan hplan).length
  rw [client_get (sendable_get r stmt) rfl hlength]
  rcases hlive : liveAt (ctx.clock 0) ((c.store.shards (shardFor n
    (r.key stmt))).entries.lookup (r.key stmt)) with _ | ent
  · exact .inl rfl
  · obtain ⟨plan, hplan, hvalue⟩ := hdocument ent hlive
    exact .inr ⟨plan, hplan, congrArg some hvalue⟩

/-- A request is answered as if there were no cache. -/
def Transparent : CacheEvent n → Option (Except String CachedPlanResult) → Prop
  | .request r _ _, some answer => answer.map (·.plan) = r.plan.map some
  | .request _ _ _, none => False
  | _, _ => True

variable (ctx) in
theorem Coherent.answer (h : c.Coherent requests) (hcompatible : Compatible requests)
    (hr : r ∈ requests) (connected : Bool) :
    (c.answer r ctx connected).map (·.plan) = r.plan.map some ∧
      ∀ result, c.answer r ctx connected = .ok result →
        ∀ args ∈ result.sent.tail, Stores requests args := by
  rcases hparse : parseSql r.sql with e | stmt
  · have hanswer : c.answer r ctx connected = .error e := by
      rw [SharedCache.answer, planWithCache, hparse, Except.error_bind]
    have hplan : r.plan = .error e := by rw [PlanRequest.plan, planSql, hparse, Except.error_bind]
    rw [hanswer, hplan]
    exact ⟨rfl, fun result hresult => (by cases hresult)⟩
  rcases h.get ctx hcompatible hr hparse connected with hmiss | ⟨plan, hplan, hhit⟩
  · have hanswer : c.answer r ctx connected = (do
        let plan ← r.plan
        return ⟨some plan, false, [[ascii "GET", r.key stmt],
          CacheClient.setArgs (r.key stmt) (textBytes (serializePlan plan)) r.ttlSeconds]⟩) :=
      planWithCache_miss hparse hmiss
    rw [hanswer]
    rcases hplan : r.plan with e | plan
    · exact ⟨rfl, fun result hresult => (by cases hresult)⟩
    · refine ⟨rfl, fun result hresult args hargs => ?_⟩
      rw [Except.ok_bind] at hresult
      cases hresult
      cases List.mem_singleton.mp hargs
      exact ⟨r, hr, stmt, plan, hparse, hplan, rfl⟩
  · have hstorable := hcompatible.storable r hr plan hplan
    have hjson : parseJson (bytesText (textBytes (serializePlan plan))) = .ok (planToJson plan) := by
      rw [bytesText_textBytes hstorable.bytes, serializePlan, parseJson_writeJson hstorable.sound,
        received_planToJson hstorable.travels]
    have hanswer : c.answer r ctx connected =
        .ok ⟨some plan, true, [[ascii "GET", r.key stmt]]⟩ :=
      planWithCache_hit_exact hparse hhit hjson hstorable.travels.1
    rw [hanswer, hplan]
    refine ⟨rfl, fun result hresult args hargs => ?_⟩
    cases hresult
    cases hargs

/-- The commands of other clients write under none of the keys. -/
def Admissible (requests : List PlanRequest) : CacheEvent n → Prop
  | .request r _ _ => r ∈ requests
  | .command args ctx => ∀ p ∈ argsOperations (n := n) ctx args, ∀ key ent, p.2.Writes key ent →
      ∀ r ∈ requests, ∀ stmt, parseSql r.sql = .ok stmt → key ≠ r.key stmt
  | _ => True

/-- One event keeps the documents, and a request is answered as without a cache. -/
theorem Coherent.step (h : c.Coherent requests) (hcompatible : Compatible requests)
    (event : CacheEvent n) (hevent : Admissible requests event) :
    Transparent event (SharedCache.step c event).1 ∧
      (SharedCache.step c event).2.Coherent requests := by
  have hserve : ∀ {args : List Bytes} {ctx : Context}, Sendable args →
      (∀ p ∈ argsOperations (n := n) ctx args, ∀ key ent, p.2.Writes key ent →
        Documents requests key ent.value) →
      (serve args ctx c.store).2.Entries fun _ => Documents requests := by
    intro args ctx hsendable hwrites
    rw [serve_sendable hsendable]
    exact h.entries.dispatch hwrites
  cases event with
  | request r ctx connected =>
    obtain ⟨hanswer, hsent⟩ := h.answer ctx hcompatible hevent connected
    refine ⟨hanswer, ?_⟩
    show (c.afterRequest r ctx connected).Coherent requests
    rcases connected with _ | _
    · exact h
    refine ⟨?_, fun args hargs => ?_⟩
    · show ShardedStore.Entries (match parseSql r.sql with
        | .error _ => c.store
        | .ok stmt => (serve [ascii "GET", r.key stmt] ctx c.store).2) _
      split
      · exact h.entries
      case h_2 stmt _ =>
        refine hserve (sendable_get r stmt) fun p hp key ent hwrites => ?_
        rw [argsOperations_get] at hp
        cases List.mem_singleton.mp hp
        exact hwrites.elim
    · rcases List.mem_append.mp hargs with hargs | hargs
      · exact h.pending args hargs
      · rcases hresult : c.answer r ctx true with e | result
        · rw [hresult] at hargs
          cases hargs
        · rw [hresult] at hargs
          exact hsent result hresult args hargs
  | deliver i ctx =>
    refine ⟨trivial, ?_⟩
    rw [SharedCache.step]
    rcases hi : c.pending[i]? with _ | args
    · exact h
    · have hstores := h.pending args (List.mem_of_getElem? hi)
      exact ⟨hserve (hstores.sendable hcompatible) (hstores.writes hcompatible),
        fun args' hargs' => h.pending args' (List.mem_of_mem_eraseIdx hargs')⟩
  | lose i =>
    exact ⟨trivial, h.entries, fun args hargs => h.pending args (List.mem_of_mem_eraseIdx hargs)⟩
  | command args ctx =>
    refine ⟨trivial, h.entries.dispatch fun p hp key ent hwrites r hr stmt hparse hkey => ?_,
      h.pending⟩
    exact absurd hkey (hevent p hp key ent hwrites r hr stmt hparse)
  | sweep i now => exact ⟨trivial, h.entries.sweepShard i now, h.pending⟩

/-- Whatever happens to the shared cache, in whichever order (evictions, expiries, delayed and lost
stores, planners without a connection), every request gets the plan, or the error, of planning
without a cache. -/
theorem shared_cache_transparent (hcompatible : Compatible requests) (numShards maxMemoryBytes : Int)
    (events : List (CacheEvent (shardCount numShards)))
    (hevents : ∀ event ∈ events, Admissible requests event) :
    ∀ p ∈ SharedCache.step.trace ⟨newStore numShards maxMemoryBytes, []⟩ events,
      Transparent p.1 p.2 :=
  Machine.trace_forall (P := Coherent requests) (fun _ event h hevent => h.step hcompatible event hevent)
    (coherent_new numShards maxMemoryBytes) hevents

end SharedCache

end

end

/-! ### A miss and a hit -/

section

attribute [local instance] Rounding.exact doubleCosts

/-- The texts of short decimals. -/
local instance decimals : NumberText where
  print neg mag := Binary64.generalText (.fin neg mag)
  stod text :=
    let whole := text.takeWhile Char.isDigit
    let fraction := (text.dropWhile Char.isDigit).drop 1
    if whole = [] then .error .invalidArgument
    else .ok (.fin false
      ((Nat.ofDigitChars 10 (whole ++ fraction) 0 : Nat) / (10 ^ fraction.length : Nat)))

/-- The plan of `SELECT a FROM t`. -/
def sharedPlan : PhysicalPlan Binary64 :=
  .project ⟨⟨.fin false 11, .fin false 8, .fin false 0⟩, 1000,
      "projection does not change row count", .fin false 1⟩ [(.column none "a", none)]
    (.seqScan ⟨⟨.fin false 10, .fin false 8, .fin false 0⟩, 1000,
      "no statistics for table 't' -- default row-count guess", .fin false (1 / 5)⟩ "t" none ["a"])

def sharedRequest : PlanRequest :=
  ⟨"SELECT a FROM t".toList, emptyCatalog, ∅, ⟨0, 0⟩, 300, by decide⟩

theorem plan_sharedRequest : sharedRequest.plan = .ok sharedPlan := by
  have htokens : Lexer.tokenize "SELECT a FROM t".toList =
      .ok [.keyword .select, .identifier "a", .keyword .fromKw, .identifier "t", .eof] := by
    decide +kernel
  obtain ⟨above, scan, hplan, habove, hscan⟩ : ∃ above scan, sharedRequest.plan =
      .ok (.project above [(.column none "a", none)] (.seqScan scan "t" none ["a"])) ∧
      above = sharedPlan.ann ∧ scan = ⟨⟨.fin false 10, .fin false 8, .fin false 0⟩, 1000,
        "no statistics for table 't' -- default row-count guess", .fin false (1 / 5)⟩ := by
    rw [PlanRequest.plan, planSql, parseSql]
    show ∃ above scan, (Lexer.tokenize "SELECT a FROM t".toList >>= Parser.parse) >>= _ = _ ∧ _
    rw [htokens]
    refine ⟨_, _, rfl, ?_, ?_⟩
    · rw [ Annotation.mk.injEq, Cost.mk.injEq]
      decide +kernel
    · rw [ Annotation.mk.injEq, Cost.mk.injEq]
      decide +kernel
  rw [hplan, habove, hscan]
  rfl

/-- The numbers of the document are read back. -/
theorem carries_sharedPlan : ∀ x ∈ [Binary64.zero, .fin false 1, .fin false 10, .fin false 11,
    .fin false 1000, .fin false 8, .fin false (1 / 5)], Carries x := by
  have hread : ∀ x ∈ [Binary64.zero, .fin false 1, .fin false 10, .fin false 11,
      .fin false 1000, .fin false 8, .fin false (1 / 5)],
      SqlOptimizer.numberText x ≠ [] ∧
        scanNumber (SqlOptimizer.numberText x) = (SqlOptimizer.numberText x, []) ∧
        (NumberText.stod (SqlOptimizer.numberText x)).toOption = some x := by
    decide +kernel
  intro x hx
  obtain ⟨hne, hscan, hstod⟩ := hread x hx
  refine ⟨hne, hscan, ?_⟩
  rcases h : NumberText.stod (SqlOptimizer.numberText x) with e | y
  · rw [h] at hstod
    cases hstod
  · rw [h] at hstod
    cases hstod
    rfl

theorem sound_sharedPlan : (planToJson sharedPlan).Sound := by
  have hnumber : ∀ x ∈ [Binary64.zero, .fin false 1, .fin false 10, .fin false 11,
      .fin false 1000, .fin false 8, .fin false (1 / 5)],
      (JsonValue.number x).NumberCarries := by
    rintro x hx y ⟨⟩
    exact carries_sharedPlan x hx
  have hzero : Binary64.zero = .fin false 0 := rfl
  have hnone : Binary64.ofInt 0 = .fin false 0 := by decide +kernel
  have hrows : Binary64.ofInt 1000 = .fin false 1000 := by decide +kernel
  simp only [List.forall_mem_cons, hzero, one_div] at hnumber
  have hnull : JsonValue.null.NumberCarries := fun _ h => by cases h
  have hbool : ∀ b, (JsonValue.bool b).NumberCarries := fun _ _ h => by cases h
  have hstring : ∀ s, (JsonValue.string s).NumberCarries := fun _ _ h => by cases h
  have harray : ∀ vs, (JsonValue.array vs).NumberCarries := fun _ _ h => by cases h
  have hobject : ∀ es, (JsonValue.object es).NumberCarries := fun _ _ h => by cases h
  simp [JsonValue.Sound, sharedPlan, planToJson, planObject, exprToJson, exprObject,
    literalToJson, costToJson, pairToJson, Literal.fields, JsonValue.Everywhere,
    JsonValue.EverywhereEntries, JsonValue.EverywhereElements, ofInt64, ofSize, optionalText,
    optionalChild, hnull, hbool, hstring, harray, hobject, hnumber, hzero, hnone, hrows]

theorem storable_sharedPlan : Storable sharedPlan := by
  have hexact : sharedPlan.Exact := by
    simp [sharedPlan, PhysicalPlan.Exact, Expression.Exact]
    decide
  have htexts := (JsonValue.received_eq_self_iff _ (distinct_planToJson sharedPlan)).mp rfl
  have hbytes : (serializePlan sharedPlan).all (fun c => decide (c.toNat < 256)) = true := by
    decide +kernel
  exact ⟨⟨hexact, htexts⟩, sound_sharedPlan,
    fun c hc => of_decide_eq_true (List.all_eq_true.mp hbytes c hc), by decide +kernel⟩

/-- Two requests for one statement: a miss, its store, and a hit. -/
theorem shared_cache_transparent_hit :
    (SharedCache.step.trace ⟨newStore 1 100000, []⟩
        [.request sharedRequest (contextAt 0) true, .deliver 0 (contextAt 1),
          .request sharedRequest (contextAt 2) true]).length = 3 ∧
      ∀ p ∈ SharedCache.step.trace ⟨newStore 1 100000, []⟩
          [.request sharedRequest (contextAt 0) true, .deliver 0 (contextAt 1),
            .request sharedRequest (contextAt 2) true],
        SharedCache.Transparent p.1 p.2 := by
  have hcompatible : Compatible [sharedRequest] := by
    refine ⟨by simp, fun r hr plan hplan => ?_⟩
    rw [List.mem_singleton.mp hr, plan_sharedRequest] at hplan
    cases hplan
    exact storable_sharedPlan
  refine ⟨rfl, SharedCache.shared_cache_transparent hcompatible 1 100000 _ ?_⟩
  simp [SharedCache.Admissible]

end

end SqlOptimizer.Integration

import SqlOptimizer.Cache.Command.Operations
import SqlOptimizer.Cache.Resp.RoundTrip

/-! The replies of the commands as frames on a connection. -/

namespace SqlOptimizer.Cache

variable {n : Nat} [NeZero n]

/-- Every value of the store can be sent back. -/
def ShardedStore.Deliverable (s : ShardedStore n) : Prop :=
  ∀ i, ∀ e ∈ (s.shards i).entries.entries, e.2.value.length ≤ maxFieldLength

theorem newStore_deliverable (numShards maxMemoryBytes : Int) :
    (newStore numShards maxMemoryBytes).Deliverable :=
  fun _ _ he => absurd he List.not_mem_nil

theorem Runs.deliverable {s s' : ShardedStore n} (h : Runs maxFieldLength s s')
    (hs : s.Deliverable) : s'.Deliverable := by
  obtain ⟨ops, rfl, hops⟩ := h
  intro i
  exact ShardedStore.run_entries_forall (P := fun _ _ value => value.length ≤ maxFieldLength)
    (fun op hop key ent hw => (hops op hop key ent hw).2) hs i

/-- What the texts of the floating point numbers in `INFO` are promised to be: short. -/
structure Context.Formatted (ctx : Context) : Prop where
  uptime : ctx.uptimeText.length ≤ 400
  hitRate : ∀ hits misses, (ctx.hitRateText hits misses).length ≤ 400

/-- An argument that the server's parser lets through. -/
def Receivable (args : List Bytes) : Prop :=
  args.length ≤ 2 ^ 20 ∧ ∀ a ∈ args, a.length ≤ maxFieldLength

theorem maxFieldLength_eq : maxFieldLength = 536870912 := rfl

theorem transmissible_bulk {b : Bytes} (h : b.length ≤ maxFieldLength) :
    Transmissible (.bulk b) := by
  refine .bulk ?_
  rw [maxBulkLength_eq]
  rw [maxFieldLength_eq] at h
  omega

theorem transmissible_wrap64 (n : Int) : Transmissible (.integer (wrap64 n)) :=
  .integer (wrap64_mem_range n).1 (wrap64_mem_range n).2

theorem transmissible_okReply : Transmissible okReply := .simpleString (.of_plain (by decide))

/-- The value that `GET` finds is the value of an entry. -/
theorem get_value {s : ShardedStore n} {key v : Bytes} {now : Time}
    (h : (s.get key now).1 = some v) :
    ∃ i, ∃ e ∈ (s.shards i).entries.entries, e.2.value = v := by
  change ((s.held (shardFor n key)).get key now).1 = some v at h
  unfold Held.get at h
  split at h
  · cases h
  case h_2 ent hent =>
    split at h
    · cases h
    · cases h
      exact ⟨shardFor n key, ⟨key, ent⟩, List.of_mem_dlookup hent, rfl⟩

theorem transmissible_get {s : ShardedStore n} (hs : s.Deliverable) (key : Bytes) (now : Time) :
    Transmissible (match (s.get key now).1 with | some v => .bulk v | none => .null) := by
  split
  case h_1 v hv =>
    obtain ⟨i, e, he, rfl⟩ := get_value hv
    exact transmissible_bulk (hs i e he)
  case h_2 => exact .null

theorem getAll_length (ctx : Context) (s : ShardedStore n) (i : Nat) (keys : List Bytes) :
    (getAll ctx s i keys).1.length = keys.length := by
  induction keys generalizing s i with
  | nil => rfl
  | cons key keys ih =>
    show (getAll ctx (s.get key _).2 (i + 1) keys).1.length + 1 = keys.length + 1
    rw [ih]

theorem transmissible_getAll {s : ShardedStore n} (hs : s.Deliverable) (ctx : Context) (i : Nat)
    (keys : List Bytes) : ∀ v ∈ (getAll ctx s i keys).1, Transmissible v := by
  induction keys generalizing s i with
  | nil => exact fun _ h => nomatch h
  | cons key keys ih =>
    intro v hv
    rcases List.mem_cons.mp hv with rfl | hv
    · exact transmissible_get hs key _
    · exact ih ((Runs.get _).deliverable hs) (i + 1) v hv

theorem incrBy_range {s : ShardedStore n} {key : Bytes} {delta : Int} {now : Time} {v : Int}
    (h : (s.incrBy key delta now).1 = .ok v) : ∃ m, v = wrap64 m := by
  change ((s.held (shardFor n key)).incrBy key delta now).1 = .ok v at h
  unfold Held.incrBy at h
  split at h
  · cases h
  · cases h
    exact ⟨_, rfl⟩

theorem incrBy_error {s : ShardedStore n} {key : Bytes} {delta : Int} {now : Time} {e : String}
    (h : (s.incrBy key delta now).1 = .error e) :
    e = "value is not an integer or out of range" := by
  change ((s.held (shardFor n key)).incrBy key delta now).1 = .error e at h
  unfold Held.incrBy at h
  split at h
  · cases h
    rfl
  · cases h

theorem parseTTL_error {unit : Duration} {arg : Bytes} {e : String}
    (h : parseTTL unit arg = .error e) : e = invalidExpireTime := by
  unfold parseTTL at h
  split at h
  · cases h
    rfl
  · split at h <;> cases h
    rfl

/-- The two texts of the errors of `parseSetOptions`. -/
theorem parseSetOptionsFrom_error {opts : SetOptions} {args : List Bytes} {e : String}
    (h : parseSetOptionsFrom opts args = .error e) : e = "syntax error" ∨ e = invalidExpireTime := by
  have hbind : ∀ {unit : Duration} {arg : Bytes} {f : Duration → Except String SetOptions},
      (∀ ttl, f ttl = .error e → e = "syntax error" ∨ e = invalidExpireTime) →
        (parseTTL unit arg).bind f = .error e → e = "syntax error" ∨ e = invalidExpireTime := by
    intro unit arg f hf h
    cases hp : parseTTL unit arg with
    | error e' =>
      rw [hp] at h
      cases h
      exact .inr (parseTTL_error hp)
    | ok ttl =>
      rw [hp] at h
      exact hf ttl h
  fun_induction parseSetOptionsFrom opts args with
  | case1 => cases h; exact .inl rfl
  | case2 => cases h
  | case3 _ _ _ ih => exact ih h
  | case4 _ _ _ _ ih => exact ih h
  | case5 => cases h; exact .inl rfl
  | case6 _ _ _ _ _ ih => exact hbind (fun ttl => ih ttl) h
  | case7 _ _ _ _ _ _ ih => exact hbind (fun ttl => ih ttl) h
  | case8 _ _ _ _ _ _ _ ih => exact ih h
  | case9 _ _ _ _ _ _ _ _ ih => exact ih h
  | case10 => cases h; exact .inl rfl

theorem transmissible_errorReply {msg : String} (h : plain (ascii msg) = true) :
    Transmissible (errorReply msg) := .error (.of_plain h)

theorem transmissible_wrongArgs {name : String} (h : plain (ascii name) = true) :
    Transmissible (wrongArgs name) := by
  refine transmissible_errorReply ?_
  rw [ascii_append, ascii_append]
  exact plain_append (plain_append (by decide) h) (by decide)

theorem transmissible_set (ctx : Context) (s : ShardedStore n) (args : List Bytes) :
    Transmissible (handleSet ctx s args).1 := by
  unfold handleSet
  split
  · split
    case h_1 e he =>
      rcases parseSetOptionsFrom_error he with rfl | rfl
      · exact transmissible_errorReply (by decide)
      · exact transmissible_errorReply (by decide)
    case h_2 =>
      dsimp only
      split
      · exact transmissible_okReply
      · exact .null
  · exact transmissible_wrongArgs (by decide)

theorem transmissible_expire (ctx : Context) (s : ShardedStore n) (args : List Bytes) :
    Transmissible (handleExpire ctx s args).1 := by
  unfold handleExpire
  split
  · dsimp only
    split
    · exact transmissible_errorReply (by decide)
    · dsimp only
      split <;> exact .integer (by omega) (by omega)
  · exact transmissible_wrongArgs (by decide)

theorem transmissible_incrBy (ctx : Context) (s : ShardedStore n) (delta : Int) (key : Bytes) :
    Transmissible (match (s.incrBy key delta (ctx.clock 0)).1 with
      | .error e => errorReply ("ERR " ++ e)
      | .ok v => .integer v) := by
  split
  case h_1 e he =>
    rw [incrBy_error he]
    exact transmissible_errorReply (by decide)
  case h_2 v hv =>
    obtain ⟨m, rfl⟩ := incrBy_range hv
    exact transmissible_wrap64 m

theorem length_natText_toNat (c : UInt64) : (natText c.toNat).length ≤ 20 :=
  length_natText_le (by omega) (c.toNat_lt.trans (by omega))

theorem length_infoLine (name : String) (value : Bytes) :
    (infoLine name value).length = (ascii name).length + value.length + 3 := by
  rw [infoLine, List.length_append, List.length_append, List.length_cons,
    show crlf.length = 2 from rfl]
  omega

omit [NeZero n] in
theorem length_infoText {ctx : Context} (hctx : ctx.Formatted) (s : ShardedStore n) :
    (infoText ctx s).length ≤ 2000 := by
  have huptime := hctx.uptime
  have hrate := hctx.hitRate s.metrics.cacheHits s.metrics.cacheMisses
  have hc := length_natText_toNat s.metrics.connections
  have ht := length_natText_toNat s.metrics.totalConnections
  have hp := length_natText_toNat s.metrics.commandsProcessed
  have hh := length_natText_toNat s.metrics.cacheHits
  have hm := length_natText_toNat s.metrics.cacheMisses
  have he := length_natText_toNat s.metrics.expiredKeys
  have hv := length_natText_toNat s.metrics.evictedKeys
  have hd := length_intText_wrap64 s.dbSize
  have hb := length_intText_wrap64 s.metrics.memoryBytes
  have hcrlf : crlf.length = 2 := rfl
  have hnames : ∀ name ∈ ["# Server", "uptime_seconds", "# Clients", "connected_clients",
      "total_connections_received", "# Stats", "total_commands_processed", "keyspace_hits",
      "keyspace_misses", "hit_rate", "expired_keys", "evicted_keys", "# Keyspace", "db0:keys=",
      "# Memory", "used_memory_bytes"], (ascii name).length ≤ 26 := by decide
  simp only [List.forall_mem_cons] at hnames
  unfold infoText
  dsimp only
  simp only [List.length_append, length_infoLine]
  -- `omega` would try to evaluate the texts when it compares two of the lengths
  linarith

/-! ### The replies -/

variable [Rounding] {args : List Bytes} {ctx : Context} {s : ShardedStore n}

theorem transmissible_ttlReply (ttl : Option Duration) : Transmissible (ttlReply ttl) := by
  have htruncate : ∀ x : Binary64, -2 ^ 63 ≤ truncate x ∧ truncate x < 2 ^ 63 := by
    intro x
    unfold truncate
    split
    · exact wrap64_mem_range _
    · omega
  unfold ttlReply
  split
  · exact .integer (by omega) (by omega)
  · split
    · exact .integer (by omega) (by omega)
    · dsimp only
      split
      · exact .integer (by omega) (by omega)
      · exact .integer (htruncate _).1 (htruncate _).2

/-- The text of the error of a failed `SAVE`. -/
def saveErrorText (e : Bytes) : Bytes := ascii "ERR SAVE failed: " ++ e

/-- The reply of every handler but `SAVE` can be sent. -/
theorem handle_transmissible {cmd : Command} (hcmd : cmd ≠ .save) (hargs : Receivable args)
    (hs : s.Deliverable) (hctx : ctx.Formatted) : Transmissible (handle cmd args ctx s).1 := by
  cases cmd with
  | ping =>
    match args, hargs with
    | [], _ => exact .simpleString (.of_plain (by decide))
    | [message], hargs => exact transmissible_bulk (hargs.2 message List.mem_cons_self)
    | _ :: _ :: _, _ => exact transmissible_wrongArgs (by decide)
  | echo =>
    match args, hargs with
    | [], _ => exact transmissible_wrongArgs (by decide)
    | [message], hargs => exact transmissible_bulk (hargs.2 message List.mem_cons_self)
    | _ :: _ :: _, _ => exact transmissible_wrongArgs (by decide)
  | set => exact transmissible_set ctx s args
  | get =>
    match args with
    | [] | _ :: _ :: _ => exact transmissible_wrongArgs (by decide)
    | [key] => exact transmissible_get hs key _
  | del =>
    match args with
    | [] => exact transmissible_wrongArgs (by decide)
    | key :: keys => exact transmissible_wrap64 _
  | «exists» =>
    match args with
    | [] => exact transmissible_wrongArgs (by decide)
    | key :: keys => exact transmissible_wrap64 _
  | incr =>
    match args with
    | [] | _ :: _ :: _ => exact transmissible_wrongArgs (by decide)
    | [key] => exact transmissible_incrBy ctx s 1 key
  | decr =>
    match args with
    | [] | _ :: _ :: _ => exact transmissible_wrongArgs (by decide)
    | [key] => exact transmissible_incrBy ctx s (-1) key
  | mset =>
    show Transmissible (handleMSet ctx s args).1
    unfold handleMSet
    split
    · exact transmissible_wrongArgs (by decide)
    · exact transmissible_okReply
  | mget =>
    match args, hargs with
    | [], _ => exact transmissible_wrongArgs (by decide)
    | key :: keys, hargs =>
      refine .array ?_ (transmissible_getAll hs ctx 0 (key :: keys))
      have hlength := hargs.1
      have hmax := maxArrayLength_eq
      have hitems := getAll_length ctx s 0 (key :: keys)
      show ((getAll ctx s 0 (key :: keys)).1.length : Int) ≤ maxArrayLength
      omega
  | type =>
    match args with
    | [] | _ :: _ :: _ => exact transmissible_wrongArgs (by decide)
    | [key] =>
      show Transmissible (.simpleString (ascii (if (s.exists key _).1 then _ else _)))
      split
      · exact .simpleString (.of_plain (by decide))
      · exact .simpleString (.of_plain (by decide))
  | expire => exact transmissible_expire ctx s args
  | persist =>
    match args with
    | [] | _ :: _ :: _ => exact transmissible_wrongArgs (by decide)
    | [key] =>
      show Transmissible (.integer (if (s.persist key _).1 then 1 else 0))
      split <;> exact .integer (by omega) (by omega)
  | ttl =>
    match args with
    | [] | _ :: _ :: _ => exact transmissible_wrongArgs (by decide)
    | [key] => exact transmissible_ttlReply _
  | dbsize =>
    match args with
    | [] => exact transmissible_wrap64 _
    | _ :: _ => exact transmissible_wrongArgs (by decide)
  | flushall =>
    match args with
    | [] => exact transmissible_okReply
    | _ :: _ => exact transmissible_wrongArgs (by decide)
  | info =>
    match args with
    | [] =>
      have hlength := length_infoText hctx s
      refine transmissible_bulk ?_
      rw [maxFieldLength_eq]
      omega
    | _ :: _ => exact transmissible_wrongArgs (by decide)
  | save => exact absurd rfl hcmd

omit [Rounding] in
theorem transmissible_error {msg : Bytes} : Transmissible (.error msg) ↔ OneLine msg :=
  ⟨fun | .error h => h, .error⟩

omit [Rounding] in
theorem transmissible_save_iff : Transmissible (handleSave ctx args) ↔
    ¬ (args = [] ∧ ctx.snapshotPath ≠ [] ∧
      ∃ e, ctx.saveError = some e ∧ ¬ OneLine (saveErrorText e)) := by
  cases args with
  | cons arg rest =>
    exact iff_of_true (transmissible_errorReply (by decide)) fun h => nomatch h.1
  | nil =>
    unfold handleSave
    dsimp only
    split
    case isTrue hpath =>
      exact iff_of_true (transmissible_errorReply (by decide)) fun h => h.2.1 hpath
    case isFalse hpath =>
      split
      case h_1 e he =>
        show Transmissible (.error (saveErrorText e)) ↔ _
        simp [transmissible_error, hpath, he]
      case h_2 he =>
        refine iff_of_true transmissible_okReply ?_
        rintro ⟨-, -, e, he', -⟩
        cases he.symm.trans he'

/-! ### `Dispatch` -/

/-- The text of the error that answers an unknown command. -/
def unknownCommandText (name : Bytes) : Bytes := ascii "ERR unknown command '" ++ name ++ ascii "'"

/-- The reply repeats a text that is more than one line: the name of a command that is not
registered, or the error of a failed `SAVE`. -/
def BreaksLine (args : List Bytes) (ctx : Context) : Prop :=
  match args with
  | [] => False
  | name :: rest =>
    match handlerFor (toUpper name) with
    | none => 10 ∈ name
    | some .save =>
      rest = [] ∧ ctx.snapshotPath ≠ [] ∧ ∃ e, ctx.saveError = some e ∧ ¬ OneLine (saveErrorText e)
    | some _ => False

omit [Rounding] in
theorem oneLine_unknownCommandText {name : Bytes} :
    OneLine (unknownCommandText name) ↔ 10 ∉ name := by
  have hlast : (unknownCommandText name).getLast? = some 39 := List.getLast?_concat
  have hmem : 10 ∈ unknownCommandText name ↔ 10 ∈ name := by
    have hbefore : (10 : UInt8) ∉ ascii "ERR unknown command '" := by decide
    have hafter : (10 : UInt8) ∉ ascii "'" := by decide
    simp [unknownCommandText, hbefore, hafter]
  constructor
  · exact fun h hname => h.noLF (hmem.mpr hname)
  · exact fun h => ⟨fun hname => h (hmem.mp hname), by rw [hlast]; decide⟩

theorem dispatch_transmissible_iff (hargs : Receivable args) (hs : s.Deliverable)
    (hctx : ctx.Formatted) :
    Transmissible (dispatch args ctx s).1 ↔ ¬ BreaksLine args ctx := by
  cases args with
  | nil => exact iff_of_true (transmissible_errorReply (by decide)) id
  | cons name rest =>
    have hrest : Receivable rest :=
      ⟨(Nat.le_succ _).trans hargs.1, fun a ha => hargs.2 a (List.mem_cons_of_mem _ ha)⟩
    have hcount : (countCommand s).Deliverable := hs
    cases hname : handlerFor (toUpper name) with
    | none =>
      simp only [dispatch, BreaksLine, hname]
      exact transmissible_error.trans oneLine_unknownCommandText
    | some cmd =>
      by_cases hcmd : cmd = .save
      · subst hcmd
        simp only [dispatch, BreaksLine, hname]
        exact transmissible_save_iff
      · have hsend := handle_transmissible hcmd hrest hcount hctx
        simp only [dispatch, BreaksLine, hname]
        exact iff_of_true hsend id

end SqlOptimizer.Cache

import Mathlib.Data.Int.ConditionallyCompleteOrder
import SqlOptimizer.Cache.Command.Dispatcher
import SqlOptimizer.Cache.Storage.Expiry

/-! Commands on keys, with and without the sweeps of the expiration worker in between. -/

namespace SqlOptimizer.Cache

/-- The commands that look at keys and write to them, but for `FLUSHALL`. -/
def Command.keyed : Command → Bool
  | .get | .set | .mset | .mget | .del | .exists | .type | .expire | .persist | .ttl | .incr
  | .decr => true
  | .ping | .echo | .dbsize | .flushall | .info | .save => false

variable {n : Nat}

/-! ### The operations of a command -/

/-- One operation for each key, from key `i` on, each with the instant it happens at. -/
def perKey (ctx : Context) (op : Time → Bytes → StoreOp n) (i : Nat) :
    List Bytes → List (Time × StoreOp n)
  | [] => []
  | key :: keys => (ctx.clock (2 * i), op (ctx.clock (2 * i)) key) :: perKey ctx op (i + 1) keys

/-- The writes of `MSET`, from pair `i` on. -/
def perPair (ctx : Context) (i : Nat) : List Bytes → List (Time × StoreOp n)
  | key :: value :: rest =>
    (ctx.clock (2 * i), .set key value {} (ctx.clock (2 * i)) (ctx.clock (2 * i + 1))) ::
      perPair ctx (i + 1) rest
  | _ => []

/-- The operation of a command with one key. -/
def oneKey (ctx : Context) (op : Bytes → StoreOp n) : List Bytes → List (Time × StoreOp n)
  | [key] => [(ctx.clock 0, op key)]
  | _ => []

def setOperations (ctx : Context) : List Bytes → List (Time × StoreOp n)
  | key :: value :: rest =>
    match parseSetOptions rest with
    | .error _ => []
    | .ok opts => [(ctx.clock 0, .set key value opts (ctx.clock 0) (ctx.clock 1))]
  | _ => []

def expireOperations (ctx : Context) : List Bytes → List (Time × StoreOp n)
  | [key, seconds] =>
    match readInt64 seconds with
    | none => []
    | some secs =>
      [(ctx.clock 0, .expire key (wrap64 (secs * second)) (ctx.clock 0) (ctx.clock 1))]
  | _ => []

def msetOperations (ctx : Context) (args : List Bytes) : List (Time × StoreOp n) :=
  if args.length = 0 ∨ args.length % 2 ≠ 0 then [] else perPair ctx 0 args

/-- The operations of a command on keys, each with the instant it happens at. -/
def operations (ctx : Context) : Command → List Bytes → List (Time × StoreOp n)
  | .set => setOperations ctx
  | .get => oneKey ctx fun key => .get key (ctx.clock 0)
  | .del => perKey ctx (fun _ key => .delete key) 0
  | .exists => perKey ctx (fun now key => .exists key now) 0
  | .incr => oneKey ctx fun key => .incrBy key 1 (ctx.clock 0)
  | .decr => oneKey ctx fun key => .incrBy key (-1) (ctx.clock 0)
  | .mset => msetOperations ctx
  | .mget => perKey ctx (fun now key => .get key now) 0
  | .type => oneKey ctx fun key => .exists key (ctx.clock 0)
  | .expire => expireOperations ctx
  | .persist => oneKey ctx fun key => .persist key (ctx.clock 0)
  | .ttl => oneKey ctx fun key => .ttl key (ctx.clock 0) (ctx.clock 1)
  | .ping | .echo | .dbsize | .flushall | .info | .save => fun _ => []

variable [NeZero n]

namespace ShardedStore

/-- The store after the operations. -/
def runTimed (s : ShardedStore n) (ops : List (Time × StoreOp n)) : ShardedStore n :=
  s.run (ops.map (·.2))

/-- What the operations return, one after the other. -/
def results (s : ShardedStore n) : List (Time × StoreOp n) → List OpResult
  | [] => []
  | (_, op) :: ops => op.result (s.held op.shard) :: (s.step op).results ops

end ShardedStore

variable {s s' : ShardedStore n} {ctx : Context} {args : List Bytes}

theorem deleteAll_eq (keys : List Bytes) (i : Nat) :
    (deleteAll s keys).2 = s.runTimed (perKey ctx (fun _ key => .delete key) i keys) := by
  induction keys generalizing s i with
  | nil => rfl
  | cons key keys ih => exact ih (i + 1)

theorem existsAll_eq (keys : List Bytes) (i : Nat) : (existsAll ctx s i keys).2 =
    s.runTimed (perKey ctx (fun now key => .exists key now) i keys) := by
  induction keys generalizing s i with
  | nil => rfl
  | cons key keys ih => exact ih (i + 1)

theorem getAll_eq (keys : List Bytes) (i : Nat) : (getAll ctx s i keys).2 =
    s.runTimed (perKey ctx (fun now key => .get key now) i keys) := by
  induction keys generalizing s i with
  | nil => rfl
  | cons key keys ih => exact ih (i + 1)

theorem setAll_eq (args : List Bytes) (i : Nat) :
    setAll ctx s i args = s.runTimed (perPair ctx i args) := by
  induction args using List.twoStepInduction generalizing s i with
  | nil => rfl
  | singleton => rfl
  | cons_cons key value rest ih _ => exact ih (i + 1)

variable {cmd : Command}

/-- A command on keys runs its operations. -/
theorem handle_eq_run [Rounding] (hcmd : cmd.keyed = true) (args : List Bytes) :
    (handle cmd args ctx s).2 = s.runTimed (operations ctx cmd args) := by
  cases cmd with
  | ping | echo | dbsize | flushall | info | save => cases hcmd
  | get | incr | decr | type | persist | ttl =>
    match args with
    | [] | _ :: _ :: _ => rfl
    | [key] => rfl
  | set =>
    match args with
    | [] | [_] => rfl
    | key :: value :: rest =>
      show (handleSet ctx s (key :: value :: rest)).2 =
        s.runTimed (setOperations ctx (key :: value :: rest))
      unfold handleSet setOperations
      dsimp only
      cases parseSetOptions rest <;> rfl
  | expire =>
    match args with
    | [] | [_] | _ :: _ :: _ :: _ => rfl
    | [key, secs] =>
      show (handleExpire ctx s [key, secs]).2 = s.runTimed (expireOperations ctx [key, secs])
      unfold handleExpire expireOperations
      dsimp only
      cases readInt64 secs <;> rfl
  | del =>
    match args with
    | [] => rfl
    | key :: keys => exact deleteAll_eq (key :: keys) 0
  | «exists» =>
    match args with
    | [] => rfl
    | key :: keys => exact existsAll_eq (key :: keys) 0
  | mget =>
    match args with
    | [] => rfl
    | key :: keys => exact getAll_eq (key :: keys) 0
  | mset =>
    show (handleMSet ctx s args).2 = s.runTimed (msetOperations ctx args)
    unfold handleMSet msetOperations
    split
    · rfl
    · exact setAll_eq args 0

/-! ### Replies are functions of what the operations return

Also of two stores with different numbers of shards. -/

section

variable {m : Nat} [NeZero m] {u : ShardedStore m}

theorem deleteAll_congr {keys : List Bytes} {i : Nat}
    (h : s.results (perKey ctx (fun _ key => .delete key) i keys) =
      u.results (perKey ctx (fun _ key => .delete key) i keys)) :
    (deleteAll s keys).1 = (deleteAll u keys).1 := by
  induction keys generalizing s u i with
  | nil => rfl
  | cons key keys ih =>
    obtain ⟨hkey, hrest⟩ := List.cons.inj h
    have hkey : (s.delete key).1 = (u.delete key).1 := OpResult.flag.inj hkey
    have hrest : (deleteAll (s.delete key).2 keys).1 = (deleteAll (u.delete key).2 keys).1 := ih hrest
    simp only [deleteAll, hkey, hrest]

theorem existsAll_congr {keys : List Bytes} {i : Nat}
    (h : s.results (perKey ctx (fun now key => .exists key now) i keys) =
      u.results (perKey ctx (fun now key => .exists key now) i keys)) :
    (existsAll ctx s i keys).1 = (existsAll ctx u i keys).1 := by
  induction keys generalizing s u i with
  | nil => rfl
  | cons key keys ih =>
    obtain ⟨hkey, hrest⟩ := List.cons.inj h
    have hkey : (s.exists key (ctx.clock (2 * i))).1 = (u.exists key (ctx.clock (2 * i))).1 :=
      OpResult.flag.inj hkey
    have hrest : (existsAll ctx (s.exists key (ctx.clock (2 * i))).2 (i + 1) keys).1 =
        (existsAll ctx (u.exists key (ctx.clock (2 * i))).2 (i + 1) keys).1 := ih hrest
    simp only [existsAll, hkey, hrest]

theorem getAll_congr {keys : List Bytes} {i : Nat}
    (h : s.results (perKey ctx (fun now key => .get key now) i keys) =
      u.results (perKey ctx (fun now key => .get key now) i keys)) :
    (getAll ctx s i keys).1 = (getAll ctx u i keys).1 := by
  induction keys generalizing s u i with
  | nil => rfl
  | cons key keys ih =>
    obtain ⟨hkey, hrest⟩ := List.cons.inj h
    have hkey : (s.get key (ctx.clock (2 * i))).1 = (u.get key (ctx.clock (2 * i))).1 :=
      OpResult.value.inj hkey
    have hrest : (getAll ctx (s.get key (ctx.clock (2 * i))).2 (i + 1) keys).1 =
        (getAll ctx (u.get key (ctx.clock (2 * i))).2 (i + 1) keys).1 := ih hrest
    simp only [getAll, hkey, hrest]

theorem handleIncrBy_congr (name : String) {delta : Int}
    (h : s.results (oneKey ctx (fun key => .incrBy key delta (ctx.clock 0)) args) =
      u.results (oneKey ctx (fun key => .incrBy key delta (ctx.clock 0)) args)) :
    (handleIncrBy name delta ctx s args).1 = (handleIncrBy name delta ctx u args).1 := by
  match args with
  | [] | _ :: _ :: _ => rfl
  | [key] =>
    have hkey : (s.incrBy key delta (ctx.clock 0)).1 = (u.incrBy key delta (ctx.clock 0)).1 :=
      OpResult.number.inj (List.cons.inj h).1
    simp only [handleIncrBy, hkey]

theorem handleSet_congr
    (h : s.results (setOperations ctx args) = u.results (setOperations ctx args)) :
    (handleSet ctx s args).1 = (handleSet ctx u args).1 := by
  match args with
  | [] | [_] => rfl
  | key :: value :: rest =>
    unfold handleSet
    unfold setOperations at h
    dsimp only at h ⊢
    cases hopts : parseSetOptions rest with
    | error e => rfl
    | ok opts =>
      rw [hopts] at h
      have hkey : (s.set key value opts (ctx.clock 0) (ctx.clock 1)).1 =
          (u.set key value opts (ctx.clock 0) (ctx.clock 1)).1 :=
        OpResult.flag.inj (List.cons.inj h).1
      simp only [hkey]

theorem handleExpire_congr
    (h : s.results (expireOperations ctx args) = u.results (expireOperations ctx args)) :
    (handleExpire ctx s args).1 = (handleExpire ctx u args).1 := by
  match args with
  | [] | [_] | _ :: _ :: _ :: _ => rfl
  | [key, seconds] =>
    unfold handleExpire
    unfold expireOperations at h
    dsimp only at h ⊢
    cases hsecs : readInt64 seconds with
    | none => rfl
    | some secs =>
      rw [hsecs] at h
      have hkey : (s.expire key (wrap64 (secs * second)) (ctx.clock 0) (ctx.clock 1)).1 =
          (u.expire key (wrap64 (secs * second)) (ctx.clock 0) (ctx.clock 1)).1 :=
        OpResult.flag.inj (List.cons.inj h).1
      simp only [hkey]

theorem handle_congr [Rounding] (hcmd : cmd.keyed = true)
    (h : s.results (operations ctx cmd args) = u.results (operations ctx cmd args)) :
    (handle cmd args ctx s).1 = (handle cmd args ctx u).1 := by
  cases cmd with
  | ping | echo | dbsize | flushall | info | save => cases hcmd
  | get =>
    match args with
    | [] | _ :: _ :: _ => rfl
    | [key] =>
      have hkey : (s.get key (ctx.clock 0)).1 = (u.get key (ctx.clock 0)).1 :=
        OpResult.value.inj (List.cons.inj h).1
      show (handleGet ctx s [key]).1 = (handleGet ctx u [key]).1
      simp only [handleGet, hkey]
  | incr => exact handleIncrBy_congr "INCR" h
  | decr => exact handleIncrBy_congr "DECR" h
  | type =>
    match args with
    | [] | _ :: _ :: _ => rfl
    | [key] =>
      have hkey : (s.exists key (ctx.clock 0)).1 = (u.exists key (ctx.clock 0)).1 :=
        OpResult.flag.inj (List.cons.inj h).1
      show (handleType ctx s [key]).1 = (handleType ctx u [key]).1
      simp only [handleType, hkey]
  | persist =>
    match args with
    | [] | _ :: _ :: _ => rfl
    | [key] =>
      have hkey : (s.persist key (ctx.clock 0)).1 = (u.persist key (ctx.clock 0)).1 :=
        OpResult.flag.inj (List.cons.inj h).1
      show (handlePersist ctx s [key]).1 = (handlePersist ctx u [key]).1
      simp only [handlePersist, hkey]
  | ttl =>
    match args with
    | [] | _ :: _ :: _ => rfl
    | [key] =>
      have hkey : (s.ttl key (ctx.clock 0) (ctx.clock 1)).1 =
          (u.ttl key (ctx.clock 0) (ctx.clock 1)).1 := OpResult.ttl.inj (List.cons.inj h).1
      show (handleTTL ctx s [key]).1 = (handleTTL ctx u [key]).1
      simp only [handleTTL, hkey]
  | set => exact handleSet_congr h
  | expire => exact handleExpire_congr h
  | del =>
    match args with
    | [] => rfl
    | key :: keys =>
      have hcount : (deleteAll s (key :: keys)).1 = (deleteAll u (key :: keys)).1 :=
        deleteAll_congr h
      show RespValue.integer (wrap64 (deleteAll s (key :: keys)).1) = _
      rw [hcount]
      rfl
  | «exists» =>
    match args with
    | [] => rfl
    | key :: keys =>
      have hcount := existsAll_congr h
      show RespValue.integer (wrap64 (existsAll ctx s 0 (key :: keys)).1) = _
      rw [hcount]
      rfl
  | mget =>
    match args with
    | [] => rfl
    | key :: keys => exact congrArg RespValue.array (getAll_congr h)
  | mset =>
    show (handleMSet ctx s args).1 = (handleMSet ctx u args).1
    unfold handleMSet
    split <;> rfl

end

/-! ### Sequences of commands and sweeps -/

/-- A command, or the sweep of a shard. -/
inductive Action (n : Nat) where
  | command (args : List Bytes) (ctx : Context)
  | sweep (shard : Fin n) (now : Time)

namespace Action

def isCommand : Action n → Bool
  | .command _ _ => true
  | .sweep _ _ => false

/-- If it is a command, it is one on keys. -/
def Keyed : Action n → Prop
  | .command (name :: _) _ => ∃ cmd, handlerFor (toUpper name) = some cmd ∧ cmd.keyed = true
  | .command [] _ => False
  | .sweep _ _ => True

end Action

/-- The operations of a list of arguments. -/
def argsOperations (ctx : Context) : List Bytes → List (Time × StoreOp n)
  | [] => []
  | name :: rest =>
    match handlerFor (toUpper name) with
    | none => []
    | some cmd => operations ctx cmd rest

/-- The clock readings of the actions do not decrease, from `t` on. -/
def InOrder (t : Time) : List (Action n) → Prop
  | [] => True
  | .command args ctx :: rest =>
    t ≤ ctx.clock 0 ∧ Monotone ctx.clock ∧ InOrder (ctx.clock (2 * args.length)) rest
  | .sweep _ now :: rest => t ≤ now ∧ InOrder now rest

namespace ShardedStore

/-- The replies of the commands. -/
def replies [Rounding] (s : ShardedStore n) : List (Action n) → List RespValue
  | [] => []
  | .command args ctx :: rest => (dispatch args ctx s).1 :: (dispatch args ctx s).2.replies rest
  | .sweep i now :: rest => (s.sweepShard i now).replies rest

/-- `P` holds of each operation, with its instant and the shard that it finds. -/
def Along (P : Time → StoreOp n → Held → Prop) (s : ShardedStore n) : List (Time × StoreOp n) → Prop
  | [] => True
  | (clock, op) :: ops => P clock op (s.held op.shard) ∧ (s.step op).Along P ops

/-- `P` holds of each operation of the commands when there are no sweeps. -/
def Unswept [Rounding] (P : Time → StoreOp n → Held → Prop) (s : ShardedStore n) :
    List (Action n) → Prop
  | [] => True
  | .command args ctx :: rest =>
    (countCommand s).Along P (argsOperations ctx args) ∧ (dispatch args ctx s).2.Unswept P rest
  | .sweep _ _ :: rest => s.Unswept P rest

/-- No shard exceeds its budget. -/
def FitsBudget [Rounding] (s : ShardedStore n) (actions : List (Action n)) : Prop :=
  s.Unswept (fun _ op h => op.Fits h) actions

/-- No `DEL`, `INCR` or `DECR` names a key whose entry is expired and still there. -/
def NamesLive [Rounding] (s : ShardedStore n) (actions : List (Action n)) : Prop :=
  s.Unswept (fun clock op h => ∀ k, op.key = some k → op.FindsLive clock (h.lookup k)) actions

/-- Each shard of `s'` is that of `s` without some entries that are expired at `t`. -/
def Covers (t : Time) (s s' : ShardedStore n) : Prop := ∀ i, (s.shards i).Covers t (s'.shards i)

end ShardedStore

omit [NeZero n] in
theorem perKey_timed {op : Time → Bytes → StoreOp n} {keys : List Bytes}
    (hop : ∀ now key, (op now key).instant now = now ∧ (op now key).key = some key)
    (hmono : Monotone ctx.clock) (i : Nat) : ∀ p ∈ perKey ctx op i keys,
      ctx.clock 0 ≤ p.2.instant p.1 ∧ ∃ k, p.2.key = some k := by
  induction keys generalizing i with
  | nil => exact fun _ h => nomatch h
  | cons key keys ih =>
    intro p hp
    rcases List.mem_cons.mp hp with rfl | hp
    · obtain ⟨hinstant, hkey⟩ := hop (ctx.clock (2 * i)) key
      exact ⟨by rw [hinstant]; exact hmono (Nat.zero_le _), key, hkey⟩
    · exact ih (i + 1) p hp

omit [NeZero n] in
theorem perPair_timed (hmono : Monotone ctx.clock) (args : List Bytes) (i : Nat) :
    ∀ p ∈ (perPair ctx i args : List (Time × StoreOp n)),
      ctx.clock 0 ≤ p.2.instant p.1 ∧ ∃ k, p.2.key = some k := by
  induction args using List.twoStepInduction generalizing i with
  | nil => exact fun _ h => nomatch h
  | singleton => exact fun _ h => nomatch h
  | cons_cons key value rest ih _ =>
    intro p hp
    rcases List.mem_cons.mp hp with rfl | hp
    · exact ⟨hmono (Nat.zero_le _), key, rfl⟩
    · exact ih (i + 1) p hp

omit [NeZero n] in
theorem oneKey_timed {op : Bytes → StoreOp n}
    (hop : ∀ key, (op key).instant (ctx.clock 0) = ctx.clock 0 ∧ (op key).key = some key) :
    ∀ p ∈ oneKey ctx op args, ctx.clock 0 ≤ p.2.instant p.1 ∧ ∃ k, p.2.key = some k := by
  intro p hp
  match args, hp with
  | [key], hp =>
    cases List.mem_singleton.mp hp
    exact ⟨(hop key).1.ge, key, (hop key).2⟩

omit [NeZero n] in
/-- The operations of a command happen at its clock readings, each on one key. -/
theorem operations_timed (cmd : Command) (hmono : Monotone ctx.clock) (args : List Bytes) :
    ∀ p ∈ (operations ctx cmd args : List (Time × StoreOp n)),
      ctx.clock 0 ≤ p.2.instant p.1 ∧ ∃ k, p.2.key = some k := by
  cases cmd with
  | ping | echo | dbsize | flushall | info | save => exact fun _ h => nomatch h
  | get | incr | decr | type | persist | ttl => exact oneKey_timed fun _ => ⟨rfl, rfl⟩
  | del | «exists» | mget => exact perKey_timed (fun _ _ => ⟨rfl, rfl⟩) hmono 0
  | mset =>
    show ∀ p ∈ msetOperations ctx args, _
    unfold msetOperations
    split
    · exact fun _ h => nomatch h
    · exact perPair_timed hmono args 0
  | set =>
    show ∀ p ∈ setOperations ctx args, _
    unfold setOperations
    split
    · split
      · exact fun _ h => nomatch h
      · exact List.forall_mem_singleton.mpr ⟨le_rfl, _, rfl⟩
    · exact fun _ h => nomatch h
  | expire =>
    show ∀ p ∈ expireOperations ctx args, _
    unfold expireOperations
    split
    · split
      · exact fun _ h => nomatch h
      · exact List.forall_mem_singleton.mpr ⟨le_rfl, _, rfl⟩
    · exact fun _ h => nomatch h

namespace ShardedStore

variable {t t' : Time} {ops : List (Time × StoreOp n)}

omit [NeZero n] in
theorem Covers.mono (h : s.Covers t s') (hle : t ≤ t') : s.Covers t' s' := fun i => (h i).mono hle

theorem Covers.step (h : s.Covers t s') {clock : Time} {op : StoreOp n} {k : Bytes}
    (hk : op.key = some k) (ht : t ≤ op.instant clock)
    (hlive : op.FindsLive clock ((s.held op.shard).lookup k)) (hfits : op.Fits (s.held op.shard)) :
    op.result (s.held op.shard) = op.result (s'.held op.shard) ∧
      (s.step op).Covers t (s'.step op) := by
  obtain ⟨hresult, hcovers⟩ :=
    @Shard.Covers.step _ _ _ (s.held op.shard) (s'.held op.shard) _ _ (h op.shard) hk ht hlive hfits
  refine ⟨hresult, fun i => ?_⟩
  rw [step_shards, step_shards]
  split
  · exact hcovers
  · exact h i

/-- The operations of a command return the same with and without the sweeps before it. -/
theorem Covers.run (h : s.Covers t s')
    (hops : ∀ p ∈ ops, t ≤ p.2.instant p.1 ∧ ∃ k, p.2.key = some k)
    (hfits : s.Along (fun _ op h => op.Fits h) ops)
    (hlive : s.Along (fun clock op h => ∀ k, op.key = some k → op.FindsLive clock (h.lookup k)) ops) :
    s.results ops = s'.results ops ∧ (s.runTimed ops).Covers t (s'.runTimed ops) := by
  induction ops generalizing s s' with
  | nil => exact ⟨rfl, h⟩
  | cons p ops ih =>
    obtain ⟨clock, op⟩ := p
    obtain ⟨ht, k, hk⟩ := hops (clock, op) List.mem_cons_self
    obtain ⟨hresult, hnext⟩ := h.step hk ht (hlive.1 k hk) hfits.1
    obtain ⟨hresults, hrun⟩ := ih hnext (fun p hp => hops p (List.mem_cons_of_mem _ hp)) hfits.2 hlive.2
    exact ⟨congrArg₂ List.cons hresult hresults, hrun⟩

omit [NeZero n] in
theorem Covers.sweep (h : s.Covers t s') {now : Time} (hle : t ≤ now) (i : Fin n) :
    s.Covers now (s'.sweepShard i now) := by
  intro j
  show (s.shards j).Covers now (Function.update s'.shards i _ j)
  rw [Function.update_apply]
  split
  case isTrue hj =>
    subst hj
    exact @Shard.Covers.sweep _ (s.held j) (s'.held j) (h j) _ hle
  case isFalse => exact (h j).mono hle

/-- A command on keys replies the same with and without the sweeps before it. -/
theorem Covers.dispatch [Rounding] (h : s.Covers t s')
    (hkeyed : (Action.command args ctx : Action n).Keyed) (ht : t ≤ ctx.clock 0) (hmono : Monotone ctx.clock)
    (hfits : (countCommand s).Along (fun _ op h => op.Fits h) (argsOperations ctx args))
    (hlive : (countCommand s).Along (fun clock op h => ∀ k, op.key = some k →
      op.FindsLive clock (h.lookup k)) (argsOperations ctx args)) :
    (dispatch args ctx s).1 = (dispatch args ctx s').1 ∧
      (dispatch args ctx s).2.Covers t (dispatch args ctx s').2 := by
  match args, hkeyed with
  | name :: rest, hkeyed =>
    obtain ⟨cmd, hname, hcmd⟩ := hkeyed
    simp only [argsOperations, hname] at hfits hlive
    have hcount : (countCommand s).Covers t (countCommand s') := h
    obtain ⟨hresults, hrun⟩ := hcount.run
      (fun p hp => (operations_timed cmd hmono rest p hp).imp_left ht.trans) hfits hlive
    simp only [Cache.dispatch, hname]
    rw [handle_eq_run hcmd, handle_eq_run hcmd]
    exact ⟨handle_congr hcmd hresults, hrun⟩

variable [Rounding]

theorem Covers.replies {actions : List (Action n)} (h : s.Covers t s')
    (hkeyed : ∀ a ∈ actions, a.Keyed) (horder : InOrder t actions) (hfits : s.FitsBudget actions)
    (hlive : s.NamesLive actions) :
    s'.replies actions = s.replies (actions.filter (·.isCommand)) := by
  induction actions generalizing s s' t with
  | nil => rfl
  | cons a actions ih =>
    have hrest : ∀ a ∈ actions, a.Keyed := fun a ha => hkeyed a (List.mem_cons_of_mem _ ha)
    cases a with
    | command args ctx =>
      obtain ⟨ht, hmono, horder⟩ := horder
      obtain ⟨hreply, hnext⟩ :=
        h.dispatch (hkeyed _ List.mem_cons_self) ht hmono hfits.1 hlive.1
      have hlate := hnext.mono (ht.trans (hmono (Nat.zero_le (2 * args.length))))
      have hreplies := ih hlate hrest horder hfits.2 hlive.2
      exact congrArg₂ List.cons hreply.symm hreplies
    | sweep i now => exact ih (h.sweep horder.1 i) hrest horder.2 hfits hlive

/-- Sweeps of any shards at any instants in between change no reply: an entry past its expiry is
not observable, as long as no `DEL`, `INCR` or `DECR` names it. -/
theorem sweeps_unobservable {s : ShardedStore n} {actions : List (Action n)} {t : Time}
    (hsizes : ∀ i k, 0 ≤ entryBytes ((s.shards i).entries.lookup k))
    (hkeyed : ∀ a ∈ actions, a.Keyed) (horder : InOrder t actions) (hfits : s.FitsBudget actions)
    (hlive : s.NamesLive actions) :
    s.replies actions = s.replies (actions.filter (·.isCommand)) :=
  have hcovers : s.Covers t s := fun i => .refl (hsizes i)
  hcovers.replies hkeyed horder hfits hlive

end ShardedStore

/-! ### A key that expires after a millisecond -/

/-- A command that reads the clock at `now` only. -/
def contextAt (now : Time) : Context := ⟨fun _ => now, [], none, [], fun _ _ => []⟩

/-- The key is set, and named again three milliseconds later, after a sweep. -/
def expiringKey (cmd : String) : List (Action (shardCount 1)) :=
  [.command [ascii "SET", ascii "k", ascii "v", ascii "PX", ascii "1"] (contextAt 0),
    .sweep 0 (2 * millisecond),
    .command [ascii cmd, ascii "k"] (contextAt (3 * millisecond))]

theorem newStore_sizes (numShards maxMemoryBytes : Int) (i : Fin (shardCount numShards)) (k : Bytes) :
    0 ≤ entryBytes (((newStore numShards maxMemoryBytes).shards i).entries.lookup k) := le_rfl

section

attribute [local instance] Rounding.exact

theorem sweeps_unobservable_get : (newStore 1 1000).replies (expiringKey "GET") =
    (newStore 1 1000).replies ((expiringKey "GET").filter (·.isCommand)) := by
  apply @ShardedStore.sweeps_unobservable _ _ _ _ _ 0 (newStore_sizes 1 1000)
  · simp only [expiringKey, List.forall_mem_cons]
    exact ⟨⟨.set, rfl, rfl⟩, trivial, ⟨.get, rfl, rfl⟩, fun _ h => nomatch h⟩
  · exact ⟨le_rfl, fun _ _ _ => le_rfl, by decide, by decide, fun _ _ _ => le_rfl, trivial⟩
  · refine ⟨⟨?_, trivial⟩, ⟨?_, trivial⟩, trivial⟩
    · rintro _ ⟨⟩
      decide
    · rintro _ ⟨⟩
      decide
  · exact ⟨⟨fun _ _ => trivial, trivial⟩, ⟨fun _ _ => trivial, trivial⟩, trivial⟩

/-- `DEL` counts the key when the sweep has not come yet, and does not count it afterwards. -/
theorem delete_observes_sweep : (∀ a ∈ expiringKey "DEL", a.Keyed) ∧ InOrder 0 (expiringKey "DEL") ∧
    (newStore 1 1000).FitsBudget (expiringKey "DEL") ∧
    (newStore 1 1000).replies (expiringKey "DEL") = [okReply, .integer 0] ∧
    (newStore 1 1000).replies ((expiringKey "DEL").filter (·.isCommand)) =
      [okReply, .integer 1] ∧
    (newStore 1 1000).replies (expiringKey "DEL") ≠
      (newStore 1 1000).replies ((expiringKey "DEL").filter (·.isCommand)) := by
  have hswept : (newStore 1 1000).replies (expiringKey "DEL") = [okReply, .integer 0] := rfl
  have hunswept : (newStore 1 1000).replies ((expiringKey "DEL").filter (·.isCommand)) =
      [okReply, .integer 1] := rfl
  refine ⟨?_, ?_, ?_, hswept, hunswept, ?_⟩
  · simp only [expiringKey, List.forall_mem_cons]
    exact ⟨⟨.set, rfl, rfl⟩, trivial, ⟨.del, rfl, rfl⟩, fun _ h => nomatch h⟩
  · exact ⟨le_rfl, fun _ _ _ => le_rfl, by decide, by decide, fun _ _ _ => le_rfl, trivial⟩
  · refine ⟨⟨?_, trivial⟩, ⟨?_, trivial⟩, trivial⟩
    · rintro _ ⟨⟩
      decide
    · rintro _ ⟨⟩
      decide
  · rw [hswept, hunswept]
    intro h
    cases h

end

end SqlOptimizer.Cache

import SqlOptimizer.Cache.Command.Dispatcher
import SqlOptimizer.Cache.Persistence.RoundTrip

/-! Every command is a sequence of operations of the store. -/

namespace SqlOptimizer.Cache

variable {n : Nat} [NeZero n]

/-- `s'` is `s` after operations that write nothing longer than `limit`. -/
def Runs (limit : Nat) (s s' : ShardedStore n) : Prop :=
  ∃ ops : List (StoreOp n), s' = s.run ops ∧
    ∀ op ∈ ops, ∀ key ent, op.Writes key ent → key.length ≤ limit ∧ ent.value.length ≤ limit

namespace Runs

variable {limit : Nat} {s s' s'' : ShardedStore n} {key value : Bytes}

theorem refl (s : ShardedStore n) : Runs limit s s := ⟨[], rfl, fun _ h => nomatch h⟩

theorem trans (h1 : Runs limit s s') (h2 : Runs limit s' s'') : Runs limit s s'' := by
  obtain ⟨ops, rfl, hops⟩ := h1
  obtain ⟨ops', rfl, hops'⟩ := h2
  refine ⟨ops ++ ops', List.foldl_append.symm, fun op hop => ?_⟩
  rcases List.mem_append.mp hop with hop | hop
  · exact hops op hop
  · exact hops' op hop

/-- One operation that writes nothing. -/
theorem quiet (op : StoreOp n) (h : ∀ key ent, ¬ op.Writes key ent) : Runs limit s (s.step op) :=
  ⟨[op], rfl, fun _ hop key ent hw => absurd (List.mem_singleton.mp hop ▸ hw) (h key ent)⟩

theorem get (now : Time) : Runs limit s (s.get key now).2 := quiet (.get key now) fun _ _ => id

theorem «exists» (now : Time) : Runs limit s (s.exists key now).2 :=
  quiet (.exists key now) fun _ _ => id

theorem delete : Runs limit s (s.delete key).2 := quiet (.delete key) fun _ _ => id

theorem expire (ttl : Duration) (now now' : Time) : Runs limit s (s.expire key ttl now now').2 :=
  quiet (.expire key ttl now now') fun _ _ => id

theorem persist (now : Time) : Runs limit s (s.persist key now).2 :=
  quiet (.persist key now) fun _ _ => id

theorem ttl (now now' : Time) : Runs limit s (s.ttl key now now').2 :=
  quiet (.ttl key now now') fun _ _ => id

theorem set (hkey : key.length ≤ limit) (hvalue : value.length ≤ limit) (opts : SetOptions)
    (now now' : Time) : Runs limit s (s.set key value opts now now').2 := by
  refine ⟨[.set key value opts now now'], rfl, fun op hop k ent hw => ?_⟩
  rw [List.mem_singleton.mp hop] at hw
  obtain ⟨rfl, rfl⟩ := hw
  refine ⟨hkey, ?_⟩
  unfold Held.newEntry
  split <;> exact hvalue

theorem incrBy (hkey : key.length ≤ limit) (hlimit : 20 ≤ limit) (delta : Int) (now : Time) :
    Runs limit s (s.incrBy key delta now).2 := by
  refine ⟨[.incrBy key delta now], rfl, fun op hop k ent hw => ?_⟩
  rw [List.mem_singleton.mp hop] at hw
  obtain ⟨rfl, ⟨m, hm⟩, -⟩ := hw
  rw [hm]
  exact ⟨hkey, (length_intText_wrap64 m).trans hlimit⟩

theorem flushAll : Runs limit s s.flushAll := by
  refine ⟨(List.finRange n).map .flushAll, ?_, fun op hop => ?_⟩
  · rw [ShardedStore.run, List.foldl_map]
    rfl
  · obtain ⟨i, -, rfl⟩ := List.mem_map.mp hop
    exact fun _ _ => False.elim

theorem deleteAll (keys : List Bytes) : Runs limit s (deleteAll s keys).2 := by
  induction keys generalizing s with
  | nil => exact refl s
  | cons key keys ih => exact delete.trans ih

theorem existsAll (ctx : Context) (keys : List Bytes) (i : Nat) :
    Runs limit s (existsAll ctx s i keys).2 := by
  induction keys generalizing s i with
  | nil => exact refl s
  | cons key keys ih => exact («exists» _).trans (ih _)

theorem getAll (ctx : Context) (keys : List Bytes) (i : Nat) :
    Runs limit s (getAll ctx s i keys).2 := by
  induction keys generalizing s i with
  | nil => exact refl s
  | cons key keys ih => exact (get _).trans (ih _)

theorem setAll (ctx : Context) {args : List Bytes} (hargs : ∀ a ∈ args, a.length ≤ limit)
    (i : Nat) : Runs limit s (setAll ctx s i args) := by
  induction args using List.twoStepInduction generalizing s i with
  | nil => exact refl s
  | singleton => exact refl s
  | cons_cons key value rest ih _ =>
    have hkey := hargs key List.mem_cons_self
    have hvalue := hargs value (List.mem_cons_of_mem _ List.mem_cons_self)
    exact (set hkey hvalue {} _ _).trans
      (ih (fun a ha => hargs a (List.mem_cons_of_mem _ (List.mem_cons_of_mem _ ha))) _)

end Runs

variable [Rounding] {limit : Nat} {s : ShardedStore n}

/-- The operations of a handler write the arguments, or the text of a number. -/
theorem handle_runs (cmd : Command) {args : List Bytes} (ctx : Context) (s : ShardedStore n)
    (hlimit : 20 ≤ limit) (hargs : ∀ a ∈ args, a.length ≤ limit) :
    Runs limit s (handle cmd args ctx s).2 := by
  cases cmd with
  | ping | echo | dbsize | info | save => exact .refl s
  | set =>
    match args with
    | [] | [_] => exact .refl s
    | key :: value :: rest =>
      have hkey := hargs key List.mem_cons_self
      have hvalue := hargs value (List.mem_cons_of_mem _ List.mem_cons_self)
      show Runs limit s (handleSet ctx s (key :: value :: rest)).2
      unfold handleSet
      dsimp only
      split
      · exact .refl s
      · exact .set hkey hvalue _ _ _
  | get =>
    match args with
    | [] | _ :: _ :: _ => exact .refl s
    | [key] => exact .get _
  | del =>
    match args with
    | [] => exact .refl s
    | key :: keys => exact .deleteAll (key :: keys)
  | «exists» =>
    match args with
    | [] => exact .refl s
    | key :: keys => exact .existsAll ctx (key :: keys) 0
  | incr | decr =>
    match args with
    | [] | _ :: _ :: _ => exact .refl s
    | [key] => exact .incrBy (hargs key List.mem_cons_self) hlimit _ _
  | mset =>
    show Runs limit s (handleMSet ctx s args).2
    unfold handleMSet
    split
    · exact .refl s
    · exact .setAll ctx hargs 0
  | mget =>
    match args with
    | [] => exact .refl s
    | key :: keys => exact .getAll ctx (key :: keys) 0
  | type =>
    match args with
    | [] | _ :: _ :: _ => exact .refl s
    | [key] => exact .exists _
  | expire =>
    match args with
    | [] | [_] | _ :: _ :: _ :: _ => exact .refl s
    | [key, secs] =>
      show Runs limit s (handleExpire ctx s [key, secs]).2
      unfold handleExpire
      dsimp only
      split
      · exact .refl s
      · exact .expire _ _ _
  | persist =>
    match args with
    | [] | _ :: _ :: _ => exact .refl s
    | [key] => exact .persist _
  | ttl =>
    match args with
    | [] | _ :: _ :: _ => exact .refl s
    | [key] => exact .ttl _ _
  | flushall =>
    match args with
    | [] => exact .flushAll
    | _ :: _ => exact .refl s

/-- A command counts itself, and then runs operations. -/
theorem dispatch_runs {args : List Bytes} (ctx : Context) (s : ShardedStore n)
    (hlimit : 20 ≤ limit) (hargs : ∀ a ∈ args, a.length ≤ limit) :
    Runs limit s (dispatch args ctx s).2 ∨ Runs limit (countCommand s) (dispatch args ctx s).2 := by
  cases args with
  | nil => exact .inl (.refl s)
  | cons name rest =>
    right
    unfold dispatch
    dsimp only
    split
    · exact .refl _
    · exact handle_runs _ ctx _ hlimit fun a ha => hargs a (List.mem_cons_of_mem _ ha)

end SqlOptimizer.Cache

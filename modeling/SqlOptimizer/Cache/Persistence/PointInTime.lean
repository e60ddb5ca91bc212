import SqlOptimizer.Cache.Command.Sweeps
import SqlOptimizer.Cache.Persistence.RoundTrip
import SqlOptimizer.Cache.Storage.Objects

/-! `SaveSnapshot` while clients write.  It collects the pointers of one shard after the other, and
encodes what they point to after that, so that a command in between can change a part of what is
written. -/

namespace SqlOptimizer.Cache

variable {n : Nat} [NeZero n]

/-! ### Commands -/

/-- The operations of a command of a client. -/
def clientOperations (ctx : Context) : List Bytes → List (StoreOp n)
  | [] => []
  | name :: rest =>
    match handlerFor (toUpper name) with
    | none => []
    | some .flushall => if rest.isEmpty then (List.finRange n).map .flushAll else []
    | some cmd => (operations ctx cmd rest).map (·.2)

namespace Memory

def count (x : Memory n) : Memory n := { x with store := countCommand x.store }

/-- A command of a client, all of it at once. -/
def client (x : Memory n) (args : List Bytes) (ctx : Context) : Memory n :=
  match args with
  | [] => x
  | _ :: _ => x.count.run (clientOperations ctx args)

theorem store_client [Rounding] (x : Memory n) (args : List Bytes) (ctx : Context) :
    (x.client args ctx).store = (dispatch args ctx x.store).2 := by
  cases args with
  | nil => rfl
  | cons name rest =>
    rw [client, store_run]
    show (countCommand x.store).run (clientOperations ctx (name :: rest)) = _
    cases hname : handlerFor (toUpper name) with
    | none =>
      simp only [clientOperations, dispatch, hname]
      rfl
    | some cmd =>
      simp only [clientOperations, dispatch, hname]
      cases hkeyed : cmd.keyed with
      | true =>
        rw [handle_eq_run hkeyed]
        cases cmd with
        | flushall => cases hkeyed
        | _ => rfl
      | false =>
        cases cmd with
        | flushall =>
          cases rest with
          | nil => exact List.foldl_map
          | cons => rfl
        | ping | echo | dbsize | info | save => rfl
        | _ => cases hkeyed

theorem Sound.client {x : Memory n} (h : x.Sound) (args : List Bytes) (ctx : Context) :
    (x.client args ctx).Sound := by
  have hcount : x.count.Sound := ⟨h.placed, h.heap, h.inj⟩
  cases args with
  | nil => exact h
  | cons name rest => exact hcount.run _

end Memory

/-! ### The steps of a save -/

/-- A save in progress: the shards that were collected, the keys and addresses that were found
there, and what is encoded. -/
structure Saving (n : Nat) where
  memory : Memory n
  shards : Nat
  collected : List (Bytes × Nat)
  written : List (Bytes × CacheEntry)

/-- The next shard is collected, at the clock reading `now`, or the next entry is encoded, or a
client sends a command. -/
inductive Move where
  | client (args : List Bytes) (ctx : Context)
  | collect (now : Time)
  | encode

/-- The command that a move sends. -/
def Move.command : Move → Option (List Bytes × Context)
  | .client args ctx => some (args, ctx)
  | _ => none

namespace Saving

def start (memory : Memory n) : Saving n := ⟨memory, 0, [], []⟩

def step (x : Saving n) : Move → Saving n
  | .client args ctx => { x with memory := x.memory.client args ctx }
  | .collect now =>
    if h : x.shards < n then
      { x with
        shards := x.shards + 1
        collected := x.collected ++
          ((x.memory.store.shards ⟨x.shards, h⟩).live now).map fun e => (e.1, x.memory.object e.1) }
    else x
  | .encode =>
    if x.shards = n then
      match x.collected[x.written.length]? with
      | some (key, p) => { x with written := x.written ++ [(key, x.memory.heap p)] }
      | none => x
    else x

def run (x : Saving n) (moves : List Move) : Saving n := moves.foldl step x

theorem memory_collect (x : Saving n) (now : Time) : (x.step (.collect now)).memory = x.memory := by
  unfold step
  dsimp only
  split <;> rfl

theorem memory_encode (x : Saving n) : (x.step .encode).memory = x.memory := by
  unfold step
  dsimp only
  split
  · split <;> rfl
  · rfl

/-- A save does not touch the store: while it goes on, the clients' commands are dispatched as they
come. -/
theorem store_run [Rounding] (x : Saving n) (moves : List Move) : (x.run moves).memory.store =
    (moves.filterMap Move.command).foldl (fun s c => (dispatch c.1 c.2 s).2) x.memory.store := by
  induction moves generalizing x with
  | nil => rfl
  | cons move moves ih =>
    rw [run, List.foldl_cons]
    refine (ih (x.step move)).trans ?_
    cases move with
    | client args ctx =>
      rw [show (x.step (.client args ctx)).memory.store = _ from x.memory.store_client args ctx]
      rfl
    | collect now =>
      rw [memory_collect]
      rfl
    | encode =>
      rw [memory_encode]
      rfl

/-- All shards are collected and all that was collected is encoded. -/
def Done (x : Saving n) : Prop := x.shards = n ∧ x.written.length = x.collected.length

/-- The addresses whose objects are encoded. -/
def encoded (x : Saving n) : List Nat := (x.collected.take x.written.length).map (·.2)

end Saving

/-- What the file has of an entry. -/
def storedFields (e : Bytes × CacheEntry) : Bytes × Bytes × Option Time :=
  (e.1, e.2.value, if e.2.hasExpiry then some e.2.expiresAt else none)

/-- The clock readings of a step. -/
def Move.readings : Move → List Time
  | .client args ctx => (List.range (2 * args.length + 1)).map ctx.clock
  | .collect now => [now]
  | .encode => []

/-- `t` is after the steps `before` and not after the steps `later`. -/
def Between (t : Time) (before later : List Move) : Prop :=
  (∀ move ∈ before, ∀ r ∈ move.readings, r ≤ t) ∧ ∀ move ∈ later, ∀ r ∈ move.readings, t ≤ r

/-- At some moment of the save, the live contents of the store are what the file has. -/
def PointInTime (memory : Memory n) (moves : List Move) : Prop :=
  ∃ before later t, moves = before ++ later ∧ Between t before later ∧
    (((Saving.start memory).run moves).written.map storedFields).Perm
      ((((Saving.start memory).run before).memory.store.live fun _ => t).map storedFields)

/-! ### Steps that do no harm -/

section

variable (late : Bool) (moment : Memory n) (t : Time)

/-- The key is live at the moment, with its entry at address `p`. -/
def Memory.LiveAt (k : Bytes) (p : Nat) : Prop :=
  moment.bound k = some p ∧ isExpired (moment.heap p) t = false

/-- A step before the moment or, when `late`, after it.  Between the collect of a shard and the
moment, in either order, no key of the shard is bound to another object; between the encoding of an
entry and the moment, in either order, nothing is assigned to its fields; and an entry is expired
at the collect of its shard as it is at the moment. -/
def Harmless (x : Saving n) : Move → Prop
  | .client args ctx =>
    (∀ k, decide ((shardFor n k).val < x.shards) ≠ late →
      (x.memory.client args ctx).bound k = x.memory.bound k) ∧
    ∀ p, (late = true → ∃ k, moment.LiveAt t k p) → decide (p ∈ x.encoded) ≠ late →
      (x.memory.client args ctx).heap p = x.memory.heap p
  | .collect now => ∀ k p, (shardFor n k).val = x.shards → x.memory.bound k = some p →
    isExpired (x.memory.heap p) now = isExpired (moment.heap p) t
  | .encode => True

def AllHarmless (x : Saving n) : List Move → Prop
  | [] => True
  | move :: moves => Harmless late moment t x move ∧ AllHarmless (x.step move) moves

end

/-- No step does harm to the moment between `before` and `later` at the time `t`. -/
def Undisturbed (memory : Memory n) (before later : List Move) (t : Time) : Prop :=
  AllHarmless false ((Saving.start memory).run before).memory t (.start memory) before ∧
    AllHarmless true ((Saving.start memory).run before).memory t ((Saving.start memory).run before)
      later

/-! ### What is collected and written -/

/-- The shards collected gave the keys that `bound` has in them at an address which is `live`, and
for each of these that is encoded the file has what `heap` holds. -/
structure Takes (live : Nat → Prop) (bound : Bytes → Option Nat) (heap : Nat → CacheEntry)
    (x : Saving n) : Prop where
  shards : x.shards ≤ n
  nodup : (x.collected.map (·.1)).Nodup
  collected : ∀ k p, (k, p) ∈ x.collected ↔
    (shardFor n k).val < x.shards ∧ bound k = some p ∧ live p
  written : x.written = (x.collected.take x.written.length).map fun e => (e.1, heap e.2)

section

variable {live : Nat → Prop} {bound : Bytes → Option Nat} {heap : Nat → CacheEntry}
  {moment : Memory n} {t now : Time} {x : Saving n} {k : Bytes} {p : Nat}

theorem Memory.bound_eq_some {m : Memory n} : m.bound k = some p ↔
    ∃ ent, m.entry k = some ent ∧ m.object k = p := by
  rw [Memory.bound, Option.map_eq_some_iff]

/-- The keys found in a shard, each with the address of its entry. -/
theorem mem_collect (hsound : x.memory.Sound) (hlt : x.shards < n) :
    (k, p) ∈ ((x.memory.store.shards ⟨x.shards, hlt⟩).live now).map
        (fun e => (e.1, x.memory.object e.1)) ↔
      (shardFor n k).val = x.shards ∧ x.memory.bound k = some p ∧
        isExpired (x.memory.heap p) now = false := by
  simp only [Shard.live, List.map_map, List.mem_map, List.mem_filter, Function.comp_apply,
    Bool.not_eq_true', Prod.mk.injEq]
  constructor
  · rintro ⟨e, ⟨he, hexp⟩, rfl, rfl⟩
    have hlookup := AList.mem_lookup_iff.mpr he
    have hplaced := hsound.placed _ e.1 (AList.mem_keys.mpr (List.mem_keys_of_mem he))
    have hentry : x.memory.entry e.1 = some e.2 := by
      rw [Memory.entry, hplaced]
      exact hlookup
    refine ⟨congrArg Fin.val hplaced, Memory.bound_eq_some.mpr ⟨e.2, hentry, rfl⟩, ?_⟩
    rwa [(hsound.heap e.1 e.2 hentry).1]
  · rintro ⟨hshard, hbound, hexp⟩
    obtain ⟨ent, hentry, rfl⟩ := Memory.bound_eq_some.mp hbound
    rw [(hsound.heap k ent hentry).1] at hexp
    have hplaced : shardFor n k = ⟨x.shards, hlt⟩ := Fin.ext hshard
    rw [Memory.entry, hplaced] at hentry
    exact ⟨⟨k, ent⟩, ⟨AList.mem_lookup_iff.mp hentry, hexp⟩, rfl, rfl⟩

omit [NeZero n] in
theorem nodup_collect (hlt : x.shards < n) :
    ((((x.memory.store.shards ⟨x.shards, hlt⟩).live now).map
      (fun e => (e.1, x.memory.object e.1))).map (·.1)).Nodup := by
  have hkeys := (x.memory.store.shards ⟨x.shards, hlt⟩).entries.keys_nodup
  rw [Shard.live, List.map_map, List.map_map]
  exact (List.Sublist.map _ List.filter_sublist).nodup hkeys

theorem Takes.length_le (h : Takes live bound heap x) :
    x.written.length ≤ x.collected.length := by
  have hlength := congrArg List.length h.written
  rw [List.length_map, List.length_take] at hlength
  omega

theorem Takes.collect (h : Takes live bound heap x) (hsound : x.memory.Sound)
    (hhere : ∀ k p, (shardFor n k).val = x.shards →
      (x.memory.bound k = some p ∧ isExpired (x.memory.heap p) now = false ↔
        bound k = some p ∧ live p)) :
    Takes live bound heap (x.step (.collect now)) := by
  unfold Saving.step
  dsimp only
  split
  case isFalse => exact h
  case isTrue hlt =>
    refine ⟨hlt, ?_, fun k p => ?_, ?_⟩
    · rw [List.map_append, List.nodup_append]
      refine ⟨h.nodup, nodup_collect hlt, fun k hk k' hk' heq => ?_⟩
      subst heq
      obtain ⟨⟨_, p⟩, he, rfl⟩ := List.mem_map.mp hk
      obtain ⟨⟨_, p'⟩, he', heq⟩ := List.mem_map.mp hk'
      have hbefore := ((h.collected _ _).mp he).1
      have hnow := ((mem_collect hsound hlt).mp he').1
      dsimp only at heq hbefore hnow
      rw [heq] at hnow
      omega
    · rw [List.mem_append, h.collected, mem_collect hsound hlt]
      constructor
      · rintro (⟨hshard, hrest⟩ | ⟨hshard, hrest⟩)
        · exact ⟨Nat.lt_succ_of_lt hshard, hrest⟩
        · exact ⟨Nat.lt_succ_of_le hshard.le, (hhere k p hshard).mp hrest⟩
      · rintro ⟨hshard, hrest⟩
        rcases Nat.lt_succ_iff_lt_or_eq.mp hshard with hshard | hshard
        · exact .inl ⟨hshard, hrest⟩
        · exact .inr ⟨hshard, (hhere k p hshard).mpr hrest⟩
    · rw [List.take_append_of_le_length h.length_le]
      exact h.written

theorem Takes.encode (h : Takes live bound heap x)
    (hnext : ∀ k p, x.collected[x.written.length]? = some (k, p) → x.memory.heap p = heap p) :
    Takes live bound heap (x.step .encode) := by
  unfold Saving.step
  dsimp only
  split
  case isFalse => exact h
  case isTrue =>
    split
    case h_2 => exact h
    case h_1 key p hentry =>
      refine ⟨h.shards, h.nodup, h.collected, ?_⟩
      rw [List.length_append, List.length_singleton, List.take_add_one, hentry, List.map_append,
        ← h.written, hnext key p hentry]
      rfl

/-! ### Before the moment -/

/-- Before the moment: the keys as they are bound, of which those stay that are live then, and the
fields as they are. -/
structure Before (moment : Memory n) (t : Time) (x : Saving n) : Prop where
  sound : x.memory.Sound
  takes : Takes (fun p => isExpired (moment.heap p) t = false) x.memory.bound x.memory.heap x

theorem Before.start {m : Memory n} (h : m.Sound) : Before moment t (.start m) where
  sound := h
  takes := ⟨Nat.zero_le n, List.nodup_nil, fun k p => by simp [Saving.start], rfl⟩

theorem Before.step (h : Before moment t x) {move : Move} (hmove : Harmless false moment t x move) :
    Before moment t (x.step move) := by
  cases move with
  | client args ctx =>
    obtain ⟨hbound, hheap⟩ := hmove
    refine ⟨h.sound.client args ctx, h.takes.shards, h.takes.nodup, fun k p => ?_, ?_⟩
    · refine (h.takes.collected k p).trans (and_congr_right fun hshard => ?_)
      rw [show (x.step (.client args ctx)).memory.bound k = x.memory.bound k from
        hbound k (by simp [hshard])]
    · refine h.takes.written.trans (List.map_congr_left fun e he => ?_)
      have hencoded : e.2 ∈ x.encoded := List.mem_map_of_mem he
      rw [show (x.step (.client args ctx)).memory.heap e.2 = x.memory.heap e.2 from
        hheap e.2 (fun hc => absurd hc Bool.false_ne_true) (by simp [hencoded])]
  | collect now =>
    have htakes : Takes (fun p => isExpired (moment.heap p) t = false) x.memory.bound x.memory.heap
        (x.step (.collect now)) :=
      h.takes.collect h.sound fun k p hshard =>
        and_congr_right fun hbound => by rw [hmove k p hshard hbound]
    refine ⟨?_, ?_⟩ <;> rw [Saving.memory_collect]
    · exact h.sound
    · exact htakes
  | encode =>
    have htakes := h.takes.encode fun _ _ _ => rfl
    refine ⟨?_, ?_⟩ <;> rw [Saving.memory_encode]
    · exact h.sound
    · exact htakes

theorem Before.run (h : Before moment t x) {moves : List Move}
    (hmoves : AllHarmless false moment t x moves) : Before moment t (x.run moves) := by
  induction moves generalizing x with
  | nil => exact h
  | cons move moves ih => exact ih (h.step hmoves.1) hmoves.2

/-! ### After the moment -/

/-- After the moment: the keys and fields are those of then; so are, in the memory, the keys of the
shards that are not collected yet, and the objects that are not encoded yet. -/
structure After (moment : Memory n) (t : Time) (x : Saving n) : Prop where
  sound : x.memory.Sound
  takes : Takes (fun p => isExpired (moment.heap p) t = false) moment.bound moment.heap x
  bound : ∀ k, ¬ (shardFor n k).val < x.shards → x.memory.bound k = moment.bound k
  heap : ∀ k p, moment.LiveAt t k p → p ∉ x.encoded → x.memory.heap p = moment.heap p

theorem Before.after (h : Before x.memory t x) : After x.memory t x :=
  ⟨h.sound, h.takes, fun _ _ => rfl, fun _ _ _ _ => rfl⟩

/-- The entry that is encoded next is not encoded yet, under another key neither. -/
theorem After.not_encoded (h : After moment t x) (hmoment : moment.Sound)
    (hnext : x.collected[x.written.length]? = some (k, p)) : p ∉ x.encoded := by
  intro hp
  obtain ⟨⟨k', p'⟩, hmem, heq⟩ := List.mem_map.mp hp
  obtain rfl : p' = p := heq
  have hlive := (h.takes.collected k p').mp (List.mem_of_getElem? hnext)
  have hlive' := (h.takes.collected k' p').mp (List.mem_of_mem_take hmem)
  obtain ⟨ent, hent, hobject⟩ := Memory.bound_eq_some.mp hlive.2.1
  obtain ⟨ent', hent', hobject'⟩ := Memory.bound_eq_some.mp hlive'.2.1
  have hkey : k' = k := by
    refine hmoment.inj k' k ?_ ?_ (hobject'.trans hobject.symm)
    · rw [hent']
      rfl
    · rw [hent]
      rfl
  have hlater : k ∈ (x.collected.map (·.1)).drop x.written.length := by
    rw [← List.map_drop]
    have hhead : (x.collected.drop x.written.length)[0]? = some (k, p') := by
      rw [List.getElem?_drop, Nat.add_zero]
      exact hnext
    exact List.mem_map_of_mem (List.mem_of_getElem? hhead)
  have hearlier : k ∈ (x.collected.map (·.1)).take x.written.length := by
    rw [← List.map_take, ← hkey]
    exact List.mem_map_of_mem hmem
  exact List.disjoint_take_drop h.takes.nodup le_rfl hearlier hlater

theorem After.step (h : After moment t x) (hmoment : moment.Sound) {move : Move}
    (hmove : Harmless true moment t x move) : After moment t (x.step move) := by
  cases move with
  | client args ctx =>
    obtain ⟨hbound, hheap⟩ := hmove
    refine ⟨h.sound.client args ctx, ⟨h.takes.shards, h.takes.nodup, h.takes.collected,
      h.takes.written⟩, fun k hk => ?_, fun k p hlive hp => ?_⟩
    · have hk : ¬ (shardFor n k).val < x.shards := hk
      exact (hbound k (by simpa using hk)).trans (h.bound k hk)
    · have hp : p ∉ x.encoded := hp
      exact (hheap p (fun _ => ⟨k, hlive⟩) (by simpa using hp)).trans (h.heap k p hlive hp)
  | collect now =>
    have hshards : x.shards ≤ (x.step (.collect now)).shards := by
      unfold Saving.step
      dsimp only
      split
      · exact Nat.le_succ _
      · exact le_rfl
    have hencoded : (x.step (.collect now)).encoded = x.encoded := by
      unfold Saving.encoded Saving.step
      dsimp only
      split
      · rw [List.take_append_of_le_length h.takes.length_le]
      · rfl
    have htakes : Takes (fun p => isExpired (moment.heap p) t = false) moment.bound moment.heap
        (x.step (.collect now)) := by
      refine h.takes.collect h.sound fun k p hshard => ?_
      have hsame := h.bound k hshard.not_lt
      rw [hsame]
      exact and_congr_right fun hbound => by rw [hmove k p hshard (hsame.trans hbound)]
    refine ⟨?_, htakes, fun k hk => ?_, fun k p hlive hp => ?_⟩ <;> rw [Saving.memory_collect]
    · exact h.sound
    · exact h.bound k fun hlt => hk (hlt.trans_le hshards)
    · exact h.heap k p hlive (hencoded ▸ hp)
  | encode =>
    have hshards : (x.step .encode).shards = x.shards := by
      unfold Saving.step
      dsimp only
      split
      · split <;> rfl
      · rfl
    have hencoded : x.encoded ⊆ (x.step .encode).encoded := by
      unfold Saving.encoded Saving.step
      dsimp only
      split
      · split
        · rw [List.length_append]
          exact List.map_subset _ (List.take_subset_take_left _ (Nat.le_add_right _ _))
        · exact List.Subset.refl _
      · exact List.Subset.refl _
    have htakes : Takes (fun p => isExpired (moment.heap p) t = false) moment.bound moment.heap
        (x.step .encode) := by
      refine h.takes.encode fun k p hnext => ?_
      have hlive := (h.takes.collected k p).mp (List.mem_of_getElem? hnext)
      exact h.heap k p hlive.2 (h.not_encoded hmoment hnext)
    refine ⟨?_, htakes, fun k hk => ?_, fun k p hlive hp => ?_⟩ <;> rw [Saving.memory_encode]
    · exact h.sound
    · exact h.bound k (hshards ▸ hk)
    · exact h.heap k p hlive fun hmem => hp (hencoded hmem)

theorem After.run (h : After moment t x) (hmoment : moment.Sound) {moves : List Move}
    (hmoves : AllHarmless true moment t x moves) : After moment t (x.run moves) := by
  induction moves generalizing x with
  | nil => exact h
  | cons move moves ih => exact ih (h.step hmoment hmoves.1) hmoves.2

/-! ### The file -/

/-- The live contents, by the addresses of the entries. -/
theorem Memory.Sound.mem_live {m : Memory n} (h : m.Sound) {e : Bytes × CacheEntry} :
    e ∈ (m.store.live fun _ => t) ↔
      ∃ p, m.bound e.1 = some p ∧ isExpired (m.heap p) t = false ∧ e = (e.1, m.heap p) := by
  rw [Cache.mem_live]
  constructor
  · rintro ⟨i, he, hexp⟩
    have hplaced := h.placed i e.1 (AList.mem_keys.mpr (List.mem_keys_of_mem he))
    have hentry : m.entry e.1 = some e.2 := by
      rw [Memory.entry, hplaced]
      exact AList.mem_lookup_iff.mpr he
    have hheap := (h.heap e.1 e.2 hentry).1
    refine ⟨m.object e.1, Memory.bound_eq_some.mpr ⟨e.2, hentry, rfl⟩, ?_, ?_⟩
    · rwa [hheap]
    · rw [hheap]
  · rintro ⟨p, hbound, hexp, he⟩
    obtain ⟨ent, hentry, rfl⟩ := Memory.bound_eq_some.mp hbound
    have hheap := (h.heap e.1 ent hentry).1
    have hent : e.2 = ent := by rw [he, hheap]
    rw [hheap] at hexp
    refine ⟨shardFor n e.1, AList.mem_lookup_iff.mp ?_, ?_⟩
    · rw [hent]
      exact hentry
    · rwa [hent]

/-- When all is collected and encoded, the file has the live contents of the moment. -/
theorem After.written_perm (h : After moment t x) (hmoment : moment.Sound) (hdone : x.Done) :
    x.written.Perm (moment.store.live fun _ => t) := by
  obtain ⟨hshards, hlength⟩ := hdone
  have hwritten : x.written = x.collected.map fun e => (e.1, moment.heap e.2) := by
    have hwritten := h.takes.written
    rwa [hlength, List.take_length] at hwritten
  have hnodup : (x.written.map (·.1)).Nodup := by
    rw [hwritten, List.map_map]
    exact h.takes.nodup
  have hplaced : ∀ i, ∀ e ∈ (moment.store.shards i).entries.entries, shardFor n e.1 = i :=
    fun i e he => hmoment.placed i e.1 (AList.mem_keys.mpr (List.mem_keys_of_mem he))
  refine (List.perm_ext_iff_of_nodup (.of_map _ hnodup) (.of_map _ (nodup_live hplaced _))).mpr
    fun e => ?_
  rw [hwritten, hmoment.mem_live, List.mem_map]
  constructor
  · rintro ⟨⟨k, p⟩, he, rfl⟩
    obtain ⟨-, hbound, hlive⟩ := (h.takes.collected k p).mp he
    exact ⟨p, hbound, hlive, rfl⟩
  · rintro ⟨p, hbound, hlive, he⟩
    refine ⟨(e.1, p), (h.takes.collected e.1 p).mpr ⟨?_, hbound, hlive⟩, he.symm⟩
    rw [hshards]
    exact (shardFor n e.1).isLt

end

/-- A save whose commands do no harm to a moment writes the live contents of that moment. -/
theorem snapshot_point_in_time {memory : Memory n} (hsound : memory.Sound) {before later : List Move}
    {t : Time} (hbetween : Between t before later) (hundisturbed : Undisturbed memory before later t)
    (hdone : ((Saving.start memory).run (before ++ later)).Done) :
    PointInTime memory (before ++ later) := by
  obtain ⟨hbefore, hlater⟩ := hundisturbed
  have hmoment := (Before.start hsound).run hbefore
  have hend := hmoment.after.run hmoment.sound hlater
  have hrun : ((Saving.start memory).run before).run later =
      (Saving.start memory).run (before ++ later) := List.foldl_append.symm
  rw [hrun] at hend
  exact ⟨before, later, t, rfl, hbetween, (hend.written_perm hmoment.sound hdone).map storedFields⟩

/-! Two keys in one shard. -/

/-- `SET a 1` and `SET b 1` -/
def twoNumbers : Memory (shardCount 1) :=
  (newMemory 1 1000).run
    [.set (ascii "a") (ascii "1") {} 0 0, .set (ascii "b") (ascii "1") {} 0 0]

theorem twoNumbers_sound : twoNumbers.Sound := (newMemory_sound 1 1000).run _

/-- After the collect, `a` goes away. -/
def deletesOne : List Move :=
  [.client [ascii "DEL", ascii "a"] (contextAt 0), .encode, .encode]

theorem snapshot_point_in_time_del : PointInTime twoNumbers ([.collect 0] ++ deletesOne) := by
  refine snapshot_point_in_time twoNumbers_sound (t := 0) ⟨?_, ?_⟩ ⟨⟨?_, trivial⟩, ?_⟩ ?_
  · decide
  · decide
  · exact fun k p _ _ => rfl
  · refine ⟨⟨fun k hk => ?_, fun p _ _ => rfl⟩, trivial, trivial, trivial⟩
    refine absurd ?_ hk
    exact decide_eq_true (shardFor (shardCount 1) k).isLt
  · exact ⟨by decide, by decide⟩

/-- After that, `b` grows: the number of the collected entry, which the file takes with `a`. -/
def deletesAndIncrements : List Move :=
  [.collect 0, .client [ascii "DEL", ascii "a"] (contextAt 0),
    .client [ascii "INCR", ascii "b"] (contextAt 0), .encode, .encode]

omit [NeZero n] in
theorem live_of_no_expiry {s : ShardedStore n}
    (h : ∀ i, ∀ e ∈ (s.shards i).entries.entries, e.2.hasExpiry = false) (clock clock' : Fin n → Time) :
    s.live clock = s.live clock' := by
  refine List.flatMap_congr fun i _ => congrArg (List.map _) (List.filter_congr fun e he => ?_)
  rw [isExpired, isExpired, h i e he]
  rfl

/-- No moment had both `a` and the new number. -/
theorem snapshot_mixes_moments :
    ((Saving.start twoNumbers).run deletesAndIncrements).Done ∧
      ¬ PointInTime twoNumbers deletesAndIncrements := by
  refine ⟨⟨by decide, by decide⟩, ?_⟩
  rintro ⟨before, later, t, hmoves, -, hperm⟩
  have hbefore : before = deletesAndIncrements.take before.length := by
    rw [hmoves, List.take_left]
  have hlength : before.length < 6 := by
    have hlength := congrArg List.length hmoves
    rw [List.length_append] at hlength
    have : deletesAndIncrements.length = 5 := rfl
    omega
  have hnever : ∀ j < 6,
      (∀ i, ∀ e ∈ ((((Saving.start twoNumbers).run (deletesAndIncrements.take j)).memory.store.shards
        i).entries.entries), e.2.hasExpiry = false) ∧
      ¬ ((((Saving.start twoNumbers).run deletesAndIncrements).written.map storedFields).Perm
        ((((Saving.start twoNumbers).run (deletesAndIncrements.take j)).memory.store.live
          fun _ => 0).map storedFields)) := by
    decide
  obtain ⟨hexpiry, hperm'⟩ := hnever before.length hlength
  rw [← hbefore] at hexpiry hperm'
  rw [live_of_no_expiry hexpiry _ fun _ => 0] at hperm
  exact hperm' hperm

end SqlOptimizer.Cache

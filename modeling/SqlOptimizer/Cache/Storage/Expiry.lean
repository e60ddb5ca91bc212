import SqlOptimizer.Cache.Storage.Bookkeeping

/-! Of a shard, an operation sees the entry of its key alone.  What it makes of an entry that is
expired, and of none. -/

namespace SqlOptimizer.Cache

/-- The entry, unless it is expired. -/
def liveAt (now : Time) (e : Option CacheEntry) : Option CacheEntry :=
  e.filter fun ent => !isExpired ent now

/-- What an operation returns. -/
inductive OpResult where
  | value (v : Option Bytes)
  | flag (b : Bool)
  | ttl (d : Option Duration)
  | number (n : Except String Int)
  | done

variable {n : Nat}

namespace StoreOp

/-- The key whose entry the operation looks at. -/
def key : StoreOp n → Option Bytes
  | .get k _ | .exists k _ | .set k _ _ _ _ | .delete k | .expire k _ _ _ | .persist k _
  | .ttl k _ _ | .incrBy k _ _ => some k
  | .flushAll _ | .sweepExpired _ _ => none

def result : StoreOp n → Held → OpResult
  | .get k now, h => .value (h.get k now).1
  | .exists k now, h => .flag (h.exists k now).1
  | .set k value opts now now', h => .flag (h.set k value opts now now').1
  | .delete k, h => .flag (h.delete k).1
  | .expire k d now now', h => .flag (h.expire k d now now').1
  | .persist k now, h => .flag (h.persist k now).1
  | .ttl k now now', h => .ttl (h.ttl k now now').1
  | .incrBy k delta now, h => .number (h.incrBy k delta now).1
  | .flushAll _, _ | .sweepExpired _ _, _ => .done

/-- The operation on the entry of a key: what it returns, and the entry it leaves. -/
def onEntry : StoreOp n → Option CacheEntry → OpResult × Option CacheEntry
  | .get _ now, e => (.value ((liveAt now e).map (·.value)), liveAt now e)
  | .exists _ now, e => (.flag (liveAt now e).isSome, liveAt now e)
  | .set k value opts now now', e =>
    let «exists» := (liveAt now e).isSome
    if opts.nx && «exists» then (.flag false, liveAt now e)
    else if opts.xx && !«exists» then (.flag false, liveAt now e)
    else (.flag true, some (Held.newEntry k value opts now'))
  | .delete _, e => (.flag e.isSome, none)
  | .expire _ d now now', e =>
    match liveAt now e with
    | none => (.flag false, e)
    | some ent => (.flag true, some { ent with hasExpiry := true, expiresAt := now' + d })
  | .persist _ now, e =>
    match liveAt now e with
    | none => (.flag false, e)
    | some ent =>
      if ent.hasExpiry then (.flag true, some { ent with hasExpiry := false }) else (.flag false, e)
  | .ttl _ now now', e =>
    (.ttl ((liveAt now e).map fun ent =>
      if ent.hasExpiry then Held.untilTime ent.expiresAt now' else 0), liveAt now e)
  | .incrBy k delta now, e =>
    match (match liveAt now e with
      | none => some 0
      | some ent => readInt64 ent.value) with
    | none => (.number (.error "value is not an integer or out of range"), e)
    | some current =>
      let value := intText (wrap64 (current + delta))
      let size := approxSize k value
      (.number (.ok (wrap64 (current + delta))),
        some (match e with
          | some ent => { ent with value, sizeBytes := size }
          | none => { value, sizeBytes := size }))
  | .flushAll _, _ => (.done, none)
  | .sweepExpired _ now, e => (.done, liveAt now e)

end StoreOp

def entryBytes : Option CacheEntry → Int
  | none => 0
  | some ent => ent.sizeBytes

/-- The bytes of the shard after the operation, before any eviction, are within its budget. -/
def StoreOp.Fits (op : StoreOp n) (h : Held) : Prop :=
  ∀ k, op.key = some k → h.shard.usedBytes - entryBytes (h.lookup k) +
    entryBytes (op.onEntry (h.lookup k)).2 ≤ h.shard.maxBytes

/-! ### Entries after each step -/

namespace Held

variable {h : Held} {k k' : Bytes} {ent : CacheEntry} {now : Time}

theorem lookup_removeLocked : (h.removeLocked k).lookup k' = if k' = k then none else h.lookup k' := by
  unfold removeLocked
  split
  case h_1 hnone =>
    split
    case isTrue heq => rw [heq, hnone]
    case isFalse => rfl
  case h_2 ent hent =>
    show (h.shard.entries.erase k).lookup k' = _
    split
    case isTrue heq => rw [heq, AList.lookup_erase]
    case isFalse hne => exact AList.lookup_erase_ne hne

theorem lookup_insert (s : AList fun _ : Bytes => CacheEntry) :
    (s.insert k ent).lookup k' = if k' = k then some ent else s.lookup k' := by
  split
  case isTrue heq => rw [heq, AList.lookup_insert]
  case isFalse hne => exact AList.lookup_insert_ne hne

theorem lookup_putEntry :
    (h.putEntry k ent).lookup k' = if k' = k then some ent else h.lookup k' := by
  show (h.putEntry k ent).shard.entries.lookup k' = _
  rw [shard_entries_putEntry]
  exact lookup_insert _

theorem liveAt_some (hexp : isExpired ent now = false) : liveAt now (some ent) = some ent :=
  Option.filter_some_pos (by rw [hexp]; rfl)

theorem liveAt_expired (hexp : isExpired ent now = true) : liveAt now (some ent) = none :=
  Option.filter_some_neg (by rw [hexp]; decide)

theorem lookup_dropExpired :
    (h.dropExpired k now).lookup k' = if k' = k then liveAt now (h.lookup k) else h.lookup k' := by
  unfold dropExpired
  split
  case h_1 hnone =>
    split
    case isTrue heq => rw [heq, hnone]; rfl
    case isFalse => rfl
  case h_2 ent hent =>
    split
    case isTrue hexp => rw [lookup_removeLocked, hent, liveAt_expired hexp]
    case isFalse hexp =>
      rw [hent, liveAt_some (Bool.eq_false_iff.mpr hexp)]
      split
      case isTrue heq => rw [heq, hent]
      case isFalse => rfl

theorem usedBytes_removeLocked :
    (h.removeLocked k).shard.usedBytes = h.shard.usedBytes - entryBytes (h.lookup k) := by
  unfold removeLocked
  split
  case h_1 hnone => rw [hnone, entryBytes, sub_zero]
  case h_2 ent hent => rw [hent]; rfl

theorem usedBytes_putEntry : (h.putEntry k ent).shard.usedBytes =
    h.shard.usedBytes - entryBytes (h.lookup k) + ent.sizeBytes := by
  unfold putEntry
  split
  case h_1 old hold =>
    rw [hold, entryBytes]
    dsimp only
    omega
  case h_2 hnone => rw [hnone, entryBytes, sub_zero]

theorem usedBytes_dropExpired : (h.dropExpired k now).shard.usedBytes =
    h.shard.usedBytes - entryBytes (h.lookup k) + entryBytes (liveAt now (h.lookup k)) := by
  unfold dropExpired
  split
  case h_1 hnone =>
    rw [hnone]
    show _ = h.shard.usedBytes - 0 + 0
    omega
  case h_2 ent hent =>
    split
    case isTrue hexp =>
      rw [usedBytes_removeLocked, hent, liveAt_expired hexp]
      show _ = _ + (0 : Int)
      omega
    case isFalse hexp =>
      rw [hent, liveAt_some (Bool.eq_false_iff.mpr hexp)]
      omega

theorem maxBytes_dropExpired : (h.dropExpired k now).shard.maxBytes = h.shard.maxBytes := by
  unfold dropExpired
  split
  · rfl
  · split
    · exact (step_removeLocked h k).budget
    · rfl

/-- Within the budget nothing is evicted. -/
theorem evictIfOverBudget_of_le (hle : h.shard.usedBytes ≤ h.shard.maxBytes) :
    h.evictIfOverBudget = h := by
  have honce : h.evictOnce = none := if_neg (by omega)
  rw [evictIfOverBudget, evictLoop, honce]
  rfl

/-- `h'` has the entry `e` at `k`, with its bytes, and the entries of `h` elsewhere. -/
structure Sets (h h' : Held) (k : Bytes) (e : Option CacheEntry) : Prop where
  lookup : ∀ k', h'.lookup k' = if k' = k then e else h.lookup k'
  used : h'.shard.usedBytes = h.shard.usedBytes - entryBytes (h.lookup k) + entryBytes e
  budget : h'.shard.maxBytes = h.shard.maxBytes

/-- The counters and the recency list do not matter. -/
theorem Sets.congr {h' h'' : Held} {e : Option CacheEntry} (hsets : Sets h h' k e)
    (hentries : h''.shard.entries = h'.shard.entries)
    (hused : h''.shard.usedBytes = h'.shard.usedBytes)
    (hbudget : h''.shard.maxBytes = h'.shard.maxBytes) : Sets h h'' k e :=
  ⟨fun k' => (congrArg (AList.lookup k') hentries).trans (hsets.lookup k'), hused.trans hsets.used,
    hbudget.trans hsets.budget⟩

theorem sets_self {e : Option CacheEntry} (he : h.lookup k = e) : Sets h h k e := by
  refine ⟨fun k' => ?_, by rw [he]; omega, rfl⟩
  split
  case isTrue heq => rw [heq, he]
  case isFalse => rfl

theorem sets_removeLocked : Sets h (h.removeLocked k) k none :=
  ⟨fun _ => lookup_removeLocked, usedBytes_removeLocked.trans (add_zero _).symm,
    (step_removeLocked h k).budget⟩

theorem sets_update {old : CacheEntry} (hold : h.lookup k = some old)
    (hsize : ent.sizeBytes = old.sizeBytes) : Sets h (h.update k ent) k (some ent) := by
  refine ⟨fun _ => lookup_insert _, ?_, rfl⟩
  rw [hold, entryBytes, entryBytes, hsize]
  show h.shard.usedBytes = _
  omega

/-- A write, before any eviction; an entry that was set before it does not matter. -/
theorem Sets.put {h' : Held} {e : Option CacheEntry} (hsets : Sets h h' k e)
    (he : h'.lookup k = e) : Sets h (h'.putEntry k ent) k (some ent) := by
  refine ⟨fun k' => ?_, ?_, (maxBytes_putEntry h' k ent).trans hsets.budget⟩
  · rw [lookup_putEntry, hsets.lookup k']
    split <;> rfl
  · rw [usedBytes_putEntry, hsets.used, he]
    show _ = _ + ent.sizeBytes
    omega

theorem currentValue_eq : h.currentValue k now =
    match liveAt now (h.lookup k) with
    | none => some 0
    | some ent => readInt64 ent.value := by
  unfold currentValue
  cases hent : h.lookup k with
  | none => rfl
  | some ent =>
    dsimp only
    cases hexp : isExpired ent now with
    | true => rw [liveAt_expired hexp]; rfl
    | false => rw [liveAt_some hexp]; rfl

theorem get_entry : (h.get k now).1 = (liveAt now (h.lookup k)).map (·.value) ∧
    Sets h (h.get k now).2 k (liveAt now (h.lookup k)) := by
  unfold Held.get
  cases hent : h.lookup k with
  | none => exact ⟨rfl, (sets_self hent).congr rfl rfl rfl⟩
  | some ent =>
    cases hexp : isExpired ent now with
    | true =>
      simp only [liveAt_expired hexp, hexp, if_true]
      exact ⟨rfl, sets_removeLocked.congr rfl rfl rfl⟩
    | false =>
      simp only [liveAt_some hexp, hexp, Bool.false_eq_true, if_false]
      exact ⟨rfl, (sets_self hent).congr rfl rfl rfl⟩

theorem exists_entry : (h.exists k now).1 = (liveAt now (h.lookup k)).isSome ∧
    Sets h (h.exists k now).2 k (liveAt now (h.lookup k)) := by
  unfold Held.exists
  cases hent : h.lookup k with
  | none => exact ⟨rfl, (sets_self hent).congr rfl rfl rfl⟩
  | some ent =>
    cases hexp : isExpired ent now with
    | true =>
      simp only [liveAt_expired hexp, hexp, if_true]
      exact ⟨rfl, sets_removeLocked.congr rfl rfl rfl⟩
    | false =>
      simp only [liveAt_some hexp, hexp, Bool.false_eq_true, if_false]
      exact ⟨rfl, (sets_self hent).congr rfl rfl rfl⟩

theorem ttl_entry {now' : Time} : (h.ttl k now now').1 = ((liveAt now (h.lookup k)).map fun ent =>
      if ent.hasExpiry then untilTime ent.expiresAt now' else 0) ∧
    Sets h (h.ttl k now now').2 k (liveAt now (h.lookup k)) := by
  unfold Held.ttl
  cases hent : h.lookup k with
  | none => exact ⟨rfl, sets_self hent⟩
  | some ent =>
    cases hexp : isExpired ent now with
    | true =>
      simp only [liveAt_expired hexp, hexp, if_true]
      exact ⟨rfl, sets_removeLocked.congr rfl rfl rfl⟩
    | false =>
      simp only [liveAt_some hexp, hexp, Bool.false_eq_true, if_false]
      cases hkept : ent.hasExpiry with
      | true => exact ⟨by simp [hkept], sets_self hent⟩
      | false => exact ⟨by simp [hkept], sets_self hent⟩

end Held

namespace StoreOp

open Held

theorem shard_eq [NeZero n] {op : StoreOp n} {k : Bytes} (hk : op.key = some k) :
    op.shard = shardFor n k := by
  cases op <;> cases hk <;> rfl

/-- An operation acts on the entry of its key as `onEntry` says, and on no other, and then may
evict. -/
theorem onHeld_evicts {op : StoreOp n} {h : Held} {k : Bytes} (hk : op.key = some k) :
    op.result h = (op.onEntry (h.lookup k)).1 ∧
      ∃ h', Sets h h' k (op.onEntry (h.lookup k)).2 ∧
        (op.onHeld h = h' ∨ op.onHeld h = h'.evictIfOverBudget) := by
  cases op with
  | flushAll | sweepExpired => cases hk
  | get key now =>
    cases hk
    exact ⟨congrArg OpResult.value get_entry.1, _, get_entry.2, .inl rfl⟩
  | «exists» key now =>
    cases hk
    exact ⟨congrArg OpResult.flag exists_entry.1, _, exists_entry.2, .inl rfl⟩
  | ttl key now now' =>
    cases hk
    exact ⟨congrArg OpResult.ttl ttl_entry.1, _, ttl_entry.2, .inl rfl⟩
  | set key value opts now now' =>
    cases hk
    have hdrop : Sets h (h.dropExpired k now) k (liveAt now (h.lookup k)) :=
      ⟨fun _ => lookup_dropExpired, usedBytes_dropExpired, maxBytes_dropExpired⟩
    have hlookup : (h.dropExpired k now).lookup k = liveAt now (h.lookup k) := by
      rw [hdrop.lookup k, if_pos rfl]
    simp only [result, onHeld, onEntry]
    unfold Held.set
    dsimp only
    rw [hlookup]
    split
    case isTrue => exact ⟨rfl, _, hdrop, .inl rfl⟩
    case isFalse =>
      split
      case isTrue => exact ⟨rfl, _, hdrop, .inl rfl⟩
      case isFalse => exact ⟨rfl, _, hdrop.put hlookup, .inr rfl⟩
  | delete key =>
    cases hk
    simp only [result, onHeld, onEntry]
    unfold Held.delete
    cases hent : h.lookup k with
    | none => exact ⟨rfl, _, sets_self hent, .inl rfl⟩
    | some ent => exact ⟨rfl, _, sets_removeLocked, .inl rfl⟩
  | expire key d now now' =>
    cases hk
    simp only [result, onHeld, onEntry]
    unfold Held.expire
    cases hent : h.lookup k with
    | none => exact ⟨rfl, _, sets_self hent, .inl rfl⟩
    | some ent =>
      cases hexp : isExpired ent now with
      | true =>
        simp only [liveAt_expired hexp, hexp, if_true]
        exact ⟨trivial, _, sets_self hent, .inl rfl⟩
      | false =>
        simp only [liveAt_some hexp, hexp, Bool.false_eq_true, if_false]
        exact ⟨trivial, _, sets_update hent rfl, .inl rfl⟩
  | persist key now =>
    cases hk
    simp only [result, onHeld, onEntry]
    unfold Held.persist
    cases hent : h.lookup k with
    | none => exact ⟨rfl, _, sets_self hent, .inl rfl⟩
    | some ent =>
      cases hexp : isExpired ent now with
      | true =>
        simp only [liveAt_expired hexp, hexp, Bool.true_or, if_true]
        exact ⟨trivial, _, sets_self hent, .inl rfl⟩
      | false =>
        simp only [liveAt_some hexp, hexp, Bool.false_or]
        cases hkept : ent.hasExpiry with
        | true => exact ⟨rfl, _, sets_update hent rfl, .inl rfl⟩
        | false => exact ⟨rfl, _, sets_self hent, .inl rfl⟩
  | incrBy key delta now =>
    cases hk
    simp only [result, onHeld, onEntry, ← currentValue_eq]
    unfold Held.incrBy
    cases hcurrent : h.currentValue k now with
    | none => exact ⟨rfl, _, sets_self rfl, .inl rfl⟩
    | some current => exact ⟨rfl, _, (sets_self rfl).put rfl, .inr rfl⟩

/-- Within the budget nothing is evicted. -/
theorem onHeld_entry {op : StoreOp n} {h : Held} {k : Bytes} (hk : op.key = some k)
    (hfits : op.Fits h) : op.result h = (op.onEntry (h.lookup k)).1 ∧
      Sets h (op.onHeld h) k (op.onEntry (h.lookup k)).2 := by
  obtain ⟨hresult, h', hsets, heq | heq⟩ := onHeld_evicts hk
  · rw [heq]
    exact ⟨hresult, hsets⟩
  · have hle : h'.shard.usedBytes ≤ h'.shard.maxBytes := by
      rw [hsets.used, hsets.budget]
      exact hfits k hk
    rw [heq, evictIfOverBudget_of_le hle]
    exact ⟨hresult, hsets⟩

/-- What is there after an operation, evictions or not, is what `onEntry` says of its key and what
was there of the others. -/
theorem lookup_onHeld {op : StoreOp n} {h : Held} {k k' : Bytes} {ent : CacheEntry}
    (hk : op.key = some k) (hent : (op.onHeld h).lookup k' = some ent) :
    (if k' = k then (op.onEntry (h.lookup k)).2 else h.lookup k') = some ent := by
  obtain ⟨-, h', hsets, heq | heq⟩ := onHeld_evicts (h := h) hk
  · rw [← hsets.lookup k', ← heq]
    exact hent
  · rw [heq] at hent
    rw [← hsets.lookup k']
    exact AList.mem_lookup_iff.mpr (mem_entries_evictIfOverBudget (AList.mem_lookup_iff.mp hent))

end StoreOp

/-! ### Sweeps -/

theorem mem_expiredKeys {s : Shard} {now : Time} {k : Bytes} : k ∈ Held.expiredKeys s now ↔
    ∃ ent, s.entries.lookup k = some ent ∧ isExpired ent now = true := by
  rw [Held.expiredKeys, List.mem_map]
  constructor
  · rintro ⟨⟨k', ent⟩, he, rfl⟩
    obtain ⟨he, hexp⟩ := List.mem_filter.mp he
    exact ⟨ent, AList.mem_lookup_iff.mpr he, hexp⟩
  · rintro ⟨ent, hent, hexp⟩
    exact ⟨⟨k, ent⟩, List.mem_filter.mpr ⟨AList.mem_lookup_iff.mp hent, hexp⟩, rfl⟩

theorem lookup_removeAll (h : Held) (keys : List Bytes) (k : Bytes) :
    (keys.foldl (fun h key => (h.removeLocked key).countExpired) h).lookup k =
      if k ∈ keys then none else h.lookup k := by
  induction keys generalizing h with
  | nil => rfl
  | cons key keys ih =>
    rw [List.foldl_cons, ih]
    show (if k ∈ keys then none else (h.removeLocked key).lookup k) = _
    rw [Held.lookup_removeLocked]
    by_cases hk : k = key <;> by_cases hkeys : k ∈ keys <;> simp [hk, hkeys]

theorem lookup_sweepExpired (h : Held) (now : Time) (k : Bytes) :
    (h.sweepExpired now).lookup k = liveAt now (h.lookup k) := by
  rw [Held.sweepExpired, lookup_removeAll]
  split
  case isTrue hexp =>
    obtain ⟨ent, hent, hexp⟩ := mem_expiredKeys.mp hexp
    rw [show h.lookup k = some ent from hent, Held.liveAt_expired hexp]
  case isFalse hlive =>
    cases hent : h.lookup k with
    | none => rfl
    | some ent =>
      have hexp : isExpired ent now = false :=
        Bool.eq_false_iff.mpr fun hexp => hlive (mem_expiredKeys.mpr ⟨ent, hent, hexp⟩)
      rw [Held.liveAt_some hexp]

/-! ### A shard and the same shard with some sweeps -/

/-- An entry, and what sweeps up to `t` may have left of it. -/
def Swept (t : Time) (e e' : Option CacheEntry) : Prop :=
  e' = e ∨ e' = none ∧ ∃ ent, e = some ent ∧ isExpired ent t = true

theorem isExpired_mono {ent : CacheEntry} {t t' : Time} (hle : t ≤ t')
    (hexp : isExpired ent t = true) : isExpired ent t' = true := by
  simp only [isExpired, Bool.and_eq_true, decide_eq_true_eq] at hexp ⊢
  exact ⟨hexp.1, hexp.2.trans_le hle⟩

theorem Swept.mono {e e' : Option CacheEntry} {t t' : Time} (h : Swept t e e') (hle : t ≤ t') :
    Swept t' e e' := by
  rcases h with h | ⟨h, ent, hent, hexp⟩
  · exact .inl h
  · exact .inr ⟨h, ent, hent, isExpired_mono hle hexp⟩

theorem Swept.some {e e' : Option CacheEntry} {t : Time} {ent : CacheEntry} (h : Swept t e e')
    (he : e' = some ent) : e = some ent := by
  rcases h with rfl | ⟨rfl, -⟩
  · exact he
  · cases he

namespace StoreOp

variable {op : StoreOp n} {e e' : Option CacheEntry} {t clock : Time}

/-- The first clock reading of the operation; `clock` if it takes none. -/
def instant (clock : Time) : StoreOp n → Time
  | .get _ now | .exists _ now | .set _ _ _ now _ | .expire _ _ now _ | .persist _ now
  | .ttl _ now _ | .incrBy _ _ now | .sweepExpired _ now => now
  | .delete _ | .flushAll _ => clock

/-- The operations without an expiry check of their own, or with one for the value alone, find no
expired entry. -/
def FindsLive (clock : Time) (op : StoreOp n) (e : Option CacheEntry) : Prop :=
  match op with
  | .delete _ | .incrBy _ _ _ => ∀ ent, e = some ent → isExpired ent (op.instant clock) = false
  | _ => True

/-- An operation returns the same for an entry past its expiry as for none, and leaves as much. -/
theorem onEntry_swept {k : Bytes} (hk : op.key = some k) (hswept : Swept t e e')
    (ht : t ≤ op.instant clock) (hlive : op.FindsLive clock e) :
    (op.onEntry e).1 = (op.onEntry e').1 ∧ Swept t (op.onEntry e).2 (op.onEntry e').2 := by
  rcases hswept with rfl | ⟨rfl, ent, rfl, hexp⟩
  · exact ⟨rfl, .inl rfl⟩
  · have hexp' := isExpired_mono ht hexp
    have hnone : liveAt (op.instant clock) (some ent) = none := Held.liveAt_expired hexp'
    cases op with
    | flushAll | sweepExpired => cases hk
    | get | «exists» | ttl =>
      simp only [instant] at hnone
      simp only [onEntry, hnone]
      exact ⟨rfl, .inl rfl⟩
    | set k value opts now now' =>
      simp only [instant] at hnone
      simp only [onEntry, hnone]
      exact ⟨rfl, .inl rfl⟩
    | expire | persist =>
      simp only [instant] at hnone
      simp only [onEntry, hnone]
      exact ⟨rfl, .inr ⟨rfl, ent, rfl, hexp⟩⟩
    | delete | incrBy => exact absurd (hlive ent rfl) (by rw [hexp']; decide)

theorem entryBytes_liveAt (h : 0 ≤ entryBytes e) : 0 ≤ entryBytes (liveAt clock e) := by
  cases e with
  | none => exact h
  | some ent =>
    cases hexp : isExpired ent clock with
    | true => rw [Held.liveAt_expired hexp]; exact le_rfl
    | false => rw [Held.liveAt_some hexp]; exact h

theorem entryBytes_of_liveAt {ent : CacheEntry} (hent : liveAt clock e = some ent)
    (h : 0 ≤ entryBytes e) : 0 ≤ ent.sizeBytes := by
  have hlive : 0 ≤ entryBytes (liveAt clock e) := entryBytes_liveAt h
  rwa [hent] at hlive

theorem entryBytes_onEntry (op : StoreOp n) (h : 0 ≤ entryBytes e) :
    0 ≤ entryBytes (op.onEntry e).2 := by
  cases op with
  | get | «exists» | ttl | sweepExpired => exact entryBytes_liveAt h
  | delete | flushAll => exact le_rfl
  | set k value opts now now' =>
    simp only [onEntry]
    split
    · exact entryBytes_liveAt h
    split
    · exact entryBytes_liveAt h
    · show 0 ≤ (Held.newEntry k value opts now').sizeBytes
      rw [newEntry_sizeBytes]
      exact (approxSize_pos _ _).le
  | expire k d now now' =>
    simp only [onEntry]
    split
    · exact h
    case h_2 ent hent =>
      have hsize := entryBytes_of_liveAt hent h
      exact hsize
  | persist k now =>
    simp only [onEntry]
    split
    · exact h
    case h_2 ent hent =>
      split
      · have hsize := entryBytes_of_liveAt hent h
        exact hsize
      · exact h
  | incrBy k delta now =>
    simp only [onEntry]
    split
    · exact h
    case h_2 current hcurrent =>
      cases e with
      | none => exact (approxSize_pos _ _).le
      | some ent => exact (approxSize_pos _ _).le

end StoreOp

/-- The bytes counted beyond those of the entries. -/
def Shard.surplus (s : Shard) : Int := s.usedBytes - totalWeight (fun e => e.2.sizeBytes) s.entries

theorem Shard.usedBytes_sub (s : Shard) (k : Bytes) :
    s.usedBytes - entryBytes (s.entries.lookup k) =
      s.surplus + totalWeight (fun e => e.2.sizeBytes) (s.entries.erase k) := by
  unfold Shard.surplus
  cases hent : s.entries.lookup k with
  | none =>
    rw [erase_of_lookup_none hent, entryBytes]
    omega
  | some ent =>
    rw [totalWeight_erase hent]
    dsimp only [entryBytes]
    omega

/-- No operation on one key changes the surplus. -/
theorem Held.Sets.surplus {h h' : Held} {k : Bytes} {e : Option CacheEntry} (hsets : Sets h h' k e) :
    h'.shard.surplus = h.shard.surplus := by
  have hself : h'.shard.entries.lookup k = e := (hsets.lookup k).trans (if_pos rfl)
  have herase : totalWeight (fun e => e.2.sizeBytes) (h'.shard.entries.erase k) =
      totalWeight (fun e => e.2.sizeBytes) (h.shard.entries.erase k) := by
    refine totalWeight_congr fun k' => ?_
    by_cases hk : k' = k
    · rw [hk, AList.lookup_erase, AList.lookup_erase]
    · rw [AList.lookup_erase_ne hk, AList.lookup_erase_ne hk]
      exact (hsets.lookup k').trans (if_neg hk)
  have hused := hsets.used
  have hbefore := h.shard.usedBytes_sub k
  have hafter := h'.shard.usedBytes_sub k
  rw [hself, herase] at hafter
  simp only [Held.lookup] at hused
  omega

theorem surplus_removeAll (h : Held) (keys : List Bytes) :
    (keys.foldl (fun h key => (h.removeLocked key).countExpired) h).shard.surplus =
      h.shard.surplus := by
  induction keys generalizing h with
  | nil => rfl
  | cons key keys ih => exact (ih _).trans (@Held.sets_removeLocked h key).surplus

/-- `b` is `a` without some entries that are expired at `t`. -/
structure Shard.Covers (t : Time) (a b : Shard) : Prop where
  entries : ∀ k, Swept t (a.entries.lookup k) (b.entries.lookup k)
  sizes : ∀ k, 0 ≤ entryBytes (a.entries.lookup k)
  surplus : b.surplus = a.surplus
  budget : b.maxBytes = a.maxBytes

namespace Shard.Covers

variable {t t' clock : Time} {a b : Held} {op : StoreOp n} {k : Bytes}

theorem refl {a : Shard} (hsizes : ∀ k, 0 ≤ entryBytes (a.entries.lookup k)) : a.Covers t a :=
  ⟨fun _ => .inl rfl, hsizes, rfl, rfl⟩

theorem mono {a b : Shard} (h : a.Covers t b) (hle : t ≤ t') : a.Covers t' b :=
  { h with entries := fun k => (h.entries k).mono hle }

/-- Of the entries of the other keys, the swept shard has at most as many bytes. -/
theorem usedBytes_le (h : a.shard.Covers t b.shard) (k : Bytes) :
    b.shard.usedBytes - entryBytes (b.lookup k) ≤ a.shard.usedBytes - entryBytes (a.lookup k) := by
  have ha := a.shard.usedBytes_sub k
  have hb := b.shard.usedBytes_sub k
  have hsurplus := h.surplus
  have hless : totalWeight (fun e => e.2.sizeBytes) (b.shard.entries.erase k) ≤
      totalWeight (fun e => e.2.sizeBytes) (a.shard.entries.erase k) := by
    refine totalWeight_le (fun k' ent hent => ?_) fun e he => ?_
    · by_cases hk : k' = k
      · rw [hk, AList.lookup_erase] at hent
        cases hent
      · rw [AList.lookup_erase_ne hk] at hent ⊢
        exact (h.entries k').some hent
    · have hlookup := AList.mem_lookup_iff.mpr (mem_entries_erase he)
      have hsize := h.sizes e.1
      rwa [Option.mem_def.mp hlookup] at hsize
  simp only [Held.lookup]
  omega

theorem fits (h : a.shard.Covers t b.shard) (ht : t ≤ op.instant clock)
    (hlive : ∀ k, op.key = some k → op.FindsLive clock (a.lookup k)) (hfits : op.Fits a) :
    op.Fits b := by
  intro k hk
  have hle := h.usedBytes_le k
  have hbudget := h.budget
  have hafter := hfits k hk
  have hswept := (StoreOp.onEntry_swept hk (h.entries k) ht (hlive k hk)).2
  have hentry : entryBytes (op.onEntry (b.lookup k)).2 ≤ entryBytes (op.onEntry (a.lookup k)).2 := by
    rcases hswept with heq | ⟨hnone, -⟩
    · exact (congrArg entryBytes heq).le
    · show entryBytes (op.onEntry (b.shard.entries.lookup k)).2 ≤ _
      rw [hnone]
      exact op.entryBytes_onEntry (h.sizes k)
  omega

/-- An operation on both shards returns the same, and keeps the relation. -/
theorem step (h : a.shard.Covers t b.shard) (hk : op.key = some k) (ht : t ≤ op.instant clock)
    (hlive : op.FindsLive clock (a.lookup k)) (hfits : op.Fits a) :
    op.result a = op.result b ∧ (op.onHeld a).shard.Covers t (op.onHeld b).shard := by
  have hlive' : ∀ k', op.key = some k' → op.FindsLive clock (a.lookup k') := by
    intro k' hk'
    rw [hk] at hk'
    cases hk'
    exact hlive
  obtain ⟨hresult, hsets⟩ := StoreOp.onHeld_entry hk hfits
  obtain ⟨hresult', hsets'⟩ := StoreOp.onHeld_entry hk (h.fits ht hlive' hfits)
  obtain ⟨hsame, hswept⟩ := StoreOp.onEntry_swept hk (h.entries k) ht hlive
  refine ⟨hresult.trans (hsame.trans hresult'.symm), fun k' => ?_, fun k' => ?_,
    hsets'.surplus.trans (h.surplus.trans hsets.surplus.symm),
    hsets'.budget.trans (h.budget.trans hsets.budget.symm)⟩
  · show Swept t ((op.onHeld a).lookup k') ((op.onHeld b).lookup k')
    rw [hsets.lookup k', hsets'.lookup k']
    split
    · exact hswept
    · exact h.entries k'
  · show 0 ≤ entryBytes ((op.onHeld a).lookup k')
    rw [hsets.lookup k']
    split
    · exact op.entryBytes_onEntry (h.sizes k)
    · exact h.sizes k'

/-- A sweep of the second shard keeps the relation. -/
theorem sweep (h : a.shard.Covers t b.shard) {now : Time} (hle : t ≤ now) :
    a.shard.Covers now (b.sweepExpired now).shard := by
  have hkeeps := Held.Acts.keeps (@Held.acts_sweepExpired (fun _ _ => False) b now)
    fun _ _ hw => hw.elim
  have hsurplus : (b.sweepExpired now).shard.surplus = b.shard.surplus := surplus_removeAll b _
  refine ⟨fun k => ?_, h.sizes, hsurplus.trans h.surplus, hkeeps.budget.trans h.budget⟩
  show Swept now (a.lookup k) ((b.sweepExpired now).lookup k)
  rw [lookup_sweepExpired]
  rcases (h.entries k).mono hle with heq | ⟨hnone, hexp⟩
  · rw [show b.lookup k = a.lookup k from heq]
    cases hent : a.lookup k with
    | none => exact .inl rfl
    | some ent =>
      cases hexp : isExpired ent now with
      | true => exact .inr ⟨Held.liveAt_expired hexp, ent, rfl, hexp⟩
      | false => exact .inl (Held.liveAt_some hexp)
  · rw [show b.lookup k = none from hnone]
    exact .inr ⟨rfl, hexp⟩

end Shard.Covers

end SqlOptimizer.Cache

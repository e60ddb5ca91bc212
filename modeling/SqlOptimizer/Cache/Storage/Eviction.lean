import SqlOptimizer.Cache.Storage.Expiry
import SqlOptimizer.Library.Recency

/-! Which entries a write evicts: the least recently used ones, and no more than it must. -/

namespace SqlOptimizer.Cache

namespace Held

variable {h h' : Held} {key : Bytes} {ent : CacheEntry} {log : List Bytes}

/-- The keys in the order in which they are evicted. -/
def candidates (h : Held) : List Bytes := h.shard.lru.keys.reverse

/-- The bytes of the entries of some keys. -/
def bytesOf (h : Held) (keys : List Bytes) : Int := (keys.map fun k => entryBytes (h.lookup k)).sum

theorem nodup_candidates (ht : h.shard.Tracked) : h.candidates.Nodup :=
  List.nodup_reverse.mpr ht.lru.nodup

theorem mem_candidates (ht : h.shard.Tracked) : key ∈ h.candidates ↔ (h.lookup key).isSome := by
  rw [candidates, List.mem_reverse, ht.mem_keys, Option.isSome_iff_exists]
  rfl

/-- The candidates of a shard use all its bytes. -/
theorem bytesOf_candidates (ht : h.shard.Tracked) :
    h.bytesOf h.candidates = h.shard.usedBytes := by
  have hperm : h.candidates.Perm h.shard.entries.keys :=
    (List.reverse_perm _).trans ht.keys
  rw [bytesOf, (hperm.map _).sum_eq, ht.used, totalWeight]
  show ((h.shard.entries.entries.map Sigma.fst).map _).sum = _
  rw [List.map_map]
  refine congrArg List.sum (List.map_congr_left fun e he => ?_)
  have hlookup : h.lookup e.1 = some e.2 := AList.mem_lookup_iff.mpr he
  show entryBytes (h.lookup e.1) = e.2.sizeBytes
  rw [hlookup]
  rfl

theorem reverse_erase {keys : List Bytes} (hnodup : keys.Nodup) (key : Bytes) :
    (keys.erase key).reverse = keys.reverse.erase key := by
  rw [hnodup.erase_eq_filter, (List.nodup_reverse.mpr hnodup).erase_eq_filter, List.filter_reverse]

theorem candidates_removeLocked (ht : h.shard.Tracked) (key : Bytes) :
    (h.removeLocked key).candidates = h.candidates.erase key := by
  unfold removeLocked
  split
  case h_1 hnone =>
    rw [List.erase_of_not_mem]
    rw [mem_candidates ht, hnone]
    decide
  case h_2 =>
    show (h.shard.lru.remove key).keys.reverse = _
    rw [ht.lru.remove_keys, reverse_erase ht.lru.nodup]
    rfl

theorem candidates_touch (ht : h.shard.Tracked) (key : Bytes) :
    (h.touch key).candidates = h.candidates.erase key ++ [key] := by
  show (h.shard.lru.touch key).keys.reverse = _
  rw [ht.lru.touch_keys, List.reverse_cons, reverse_erase ht.lru.nodup]
  rfl

theorem candidates_putEntry (ht : h.shard.Tracked) (key : Bytes) (ent : CacheEntry) :
    (h.putEntry key ent).candidates = h.candidates.erase key ++ [key] := by
  rw [← candidates_touch ht key]
  unfold putEntry
  split <;> rfl

theorem sizeBytes_newEntry (key value : Bytes) (opts : SetOptions) (now : Time) :
    (newEntry key value opts now).sizeBytes = approxSize key value := by
  unfold newEntry
  split <;> rfl

theorem tracked_dropExpired (ht : h.shard.Tracked) (key : Bytes) (now : Time) :
    (h.dropExpired key now).shard.Tracked :=
  ((acts_dropExpired h key now).keeps fun _ _ hw => (hw : False).elim).tracked ht

@[simp] theorem entryBytes_some (ent : CacheEntry) : entryBytes (some ent) = ent.sizeBytes := rfl

/-! ### The loop -/

/-- `h'` is `h` without its first `k` candidates, each removed while the shard was over its
budget. -/
structure Evicts (h h' : Held) (k : Nat) : Prop where
  le : k ≤ h.candidates.length
  lookup : ∀ key, h'.lookup key = if key ∈ h.candidates.take k then none else h.lookup key
  rest : h'.candidates = h.candidates.drop k
  used : h'.shard.usedBytes = h.shard.usedBytes - h.bytesOf (h.candidates.take k)
  excess : ∀ j < k, h.shard.maxBytes < h.shard.usedBytes - h.bytesOf (h.candidates.take j)

/-- One round removes the first candidate. -/
theorem evictOnce_eq_some (ht : h.shard.Tracked) (hh : h.evictOnce = some h') :
    h.shard.maxBytes < h.shard.usedBytes ∧ ∃ first rest, h.candidates = first :: rest ∧
      h'.candidates = rest ∧ h'.shard.maxBytes = h.shard.maxBytes ∧
      h'.shard.usedBytes = h.shard.usedBytes - entryBytes (h.lookup first) ∧
      ∀ k, h'.lookup k = if k = first then none else h.lookup k := by
  unfold evictOnce at hh
  split at hh
  case isTrue hover =>
    obtain ⟨first, hfirst, rfl⟩ := Option.map_eq_some_iff.mp hh
    have hhead : h.candidates.head? = some first := by
      rw [candidates, List.head?_reverse]
      exact hfirst
    obtain ⟨rest, hrest⟩ := List.head?_eq_some_iff.mp hhead
    refine ⟨hover, first, rest, hrest, ?_, (step_removeLocked h first).budget,
      usedBytes_removeLocked, fun k => lookup_removeLocked⟩
    show (h.removeLocked first).candidates = rest
    rw [candidates_removeLocked ht, hrest, List.erase_cons_head]
  case isFalse => cases hh

theorem evictLoop_evicts {rounds : Nat} (ht : h.shard.Tracked)
    (hh : evictLoop rounds h = some h') : ∃ k, Evicts h h' k := by
  induction rounds generalizing h with
  | zero => cases hh
  | succ rounds ih =>
    rw [evictLoop] at hh
    split at hh
    case h_1 =>
      cases hh
      exact ⟨0, Nat.zero_le _, fun _ => by simp, rfl, by simp [bytesOf], fun j hj => by omega⟩
    case h_2 h1 hround =>
      obtain ⟨hover, first, rest, hcand, hcand1, hmax1, hused1, hlookup1⟩ :=
        evictOnce_eq_some ht hround
      obtain ⟨k, hk⟩ := ih ((step_evictOnce hround).tracked ht) hh
      have hnodup := nodup_candidates ht
      rw [hcand, List.nodup_cons] at hnodup
      -- the bytes of the later candidates are the same before and after the round
      have hbytes : ∀ j, h1.bytesOf (rest.take j) = h.bytesOf (rest.take j) := by
        intro j
        refine congrArg List.sum (List.map_congr_left fun key hkey => ?_)
        have hne : key ≠ first := fun heq => hnodup.1 (heq ▸ List.mem_of_mem_take hkey)
        rw [hlookup1, if_neg hne]
      have hcons : ∀ j, h.bytesOf (h.candidates.take (j + 1)) =
          entryBytes (h.lookup first) + h1.bytesOf (rest.take j) := by
        intro j
        rw [hcand, List.take_succ_cons, hbytes, bytesOf, List.map_cons, List.sum_cons]
        rfl
      refine ⟨k + 1, ?_, fun key => ?_, ?_, ?_, fun j hj => ?_⟩
      · have hle := hk.le
        rw [hcand1] at hle
        rw [hcand, List.length_cons]
        omega
      · rw [hk.lookup, hcand1, hlookup1, hcand, List.take_succ_cons]
        by_cases hfirst : key = first <;> by_cases hmem : key ∈ rest.take k <;>
          simp [hfirst, hmem]
      · rw [hk.rest, hcand1, hcand, List.drop_succ_cons]
      · rw [hk.used, hcand1, hused1, hcons]
        omega
      · cases j with
        | zero => simpa [bytesOf] using hover
        | succ j =>
          have hlater := hk.excess j (by omega)
          rw [hcand1, hmax1, hused1] at hlater
          rw [hcons]
          omega

/-- The loop stops at the budget, or when nothing is left. -/
theorem evictIfOverBudget_evicts (ht : h.shard.Tracked) : ∃ k, Evicts h h.evictIfOverBudget k ∧
    (h.evictIfOverBudget.shard.usedBytes ≤ h.shard.maxBytes ∨ k = h.candidates.length) := by
  obtain ⟨h', hh', hstep, hnone⟩ := evictLoop_eq_some ht (Nat.lt_succ_self _)
  have heq : h.evictIfOverBudget = h' := by rw [evictIfOverBudget, hh', Option.getD_some]
  obtain ⟨k, hk⟩ := evictLoop_evicts ht hh'
  rw [heq]
  refine ⟨k, hk, ?_⟩
  by_cases hle : h'.shard.usedBytes ≤ h.shard.maxBytes
  · exact .inl hle
  · right
    have hover : h'.shard.maxBytes < h'.shard.usedBytes := by
      rw [hstep.budget]
      omega
    rw [evictOnce, if_pos hover, Option.map_eq_none_iff] at hnone
    have hempty : h'.candidates = [] := by
      rw [candidates, List.reverse_eq_nil_iff]
      exact List.getLast?_eq_none_iff.mp hnone
    have hdrop := hk.rest
    rw [hempty] at hdrop
    have hlength := List.drop_eq_nil_iff.mp hdrop.symm
    have hle := hk.le
    omega

theorem bytesOf_append (h : Held) (keys keys' : List Bytes) :
    h.bytesOf (keys ++ keys') = h.bytesOf keys + h.bytesOf keys' := by
  rw [bytesOf, List.map_append, List.sum_append]
  rfl

theorem bytesOf_singleton (h : Held) (key : Bytes) : h.bytesOf [key] = entryBytes (h.lookup key) := by
  rw [bytesOf, List.map_singleton, List.sum_singleton]

/-- The last candidate stays when it fits the budget. -/
theorem lookup_evict_of_fits (ht : h.shard.Tracked) {rest : List Bytes}
    (hlast : h.candidates = rest ++ [key]) (hfits : entryBytes (h.lookup key) ≤ h.shard.maxBytes) :
    h.evictIfOverBudget.lookup key = h.lookup key := by
  obtain ⟨k, hk, -⟩ := evictIfOverBudget_evicts ht
  have hbytes := bytesOf_candidates ht
  rw [hlast, bytesOf_append, bytesOf_singleton] at hbytes
  have hkeep : k ≤ rest.length := by
    by_contra hmore
    have hover := hk.excess rest.length (by omega)
    rw [hlast, List.take_left] at hover
    omega
  have hnodup := nodup_candidates ht
  rw [hlast, List.nodup_append] at hnodup
  have hmem : key ∉ h.candidates.take k := by
    rw [hlast, List.take_append_of_le_length hkeep]
    exact fun hmem => hnodup.2.2 key (List.mem_of_mem_take hmem) key (by simp) rfl
  rw [hk.lookup, if_neg hmem]

/-- An entry that does not fit the budget goes, and all the others before it. -/
theorem entries_evict_of_large (ht : h.shard.Tracked) (hsizes : ∀ k, 0 ≤ entryBytes (h.lookup k))
    {rest : List Bytes} (hlast : h.candidates = rest ++ [key])
    (hlarge : h.shard.maxBytes < entryBytes (h.lookup key)) :
    h.evictIfOverBudget.shard.entries = ∅ := by
  obtain ⟨k, hk, hstop⟩ := evictIfOverBudget_evicts ht
  have hnonneg : ∀ keys, 0 ≤ h.bytesOf keys := by
    intro keys
    refine List.sum_nonneg fun x hx => ?_
    obtain ⟨b, -, rfl⟩ := List.mem_map.mp hx
    exact hsizes b
  have hall : k = h.candidates.length := by
    rcases hstop with hle | hall
    · have hused := hk.used
      have hbytes := bytesOf_candidates ht
      have hlength := congrArg List.length hlast
      rw [List.length_append, List.length_singleton] at hlength
      by_cases hkeep : k ≤ rest.length
      · have hsplit := List.take_append_drop k rest
        rw [hlast, List.take_append_of_le_length hkeep] at hused
        rw [hlast, bytesOf_append, bytesOf_singleton, ← hsplit, bytesOf_append] at hbytes
        have := hnonneg (rest.drop k)
        omega
      · have := hk.le
        omega
    · exact hall
  have hcand : h.evictIfOverBudget.candidates = [] := by
    rw [hk.rest, hall, List.drop_length]
  have ht' := (step_evictIfOverBudget h).tracked ht
  have hkeys := ht'.keys
  rw [List.reverse_eq_nil_iff.mp hcand, List.nil_perm] at hkeys
  exact AList.ext (List.map_eq_nil_iff.mp hkeys)

/-! ### Recency -/

/-- The candidates are in the order of their last use in the log. -/
def Ordered (log : List Bytes) (h : Held) : Prop :=
  h.candidates = byLastUse log fun k => (h.lookup k).isSome

/-- The counters do not matter. -/
theorem Ordered.congr (ho : Ordered log h) (hshard : h'.shard = h.shard) : Ordered log h' := by
  unfold Ordered candidates Held.lookup at ho ⊢
  rw [hshard]
  exact ho

theorem Ordered.removeLocked (ho : Ordered log h) (ht : h.shard.Tracked) (key : Bytes) :
    Ordered log (h.removeLocked key) := by
  rw [Ordered, candidates_removeLocked ht, ho]
  symm
  apply byLastUse_drop
  intro b
  rw [lookup_removeLocked]
  by_cases hb : b = key <;> simp [hb]

theorem Ordered.touch (ho : Ordered log h) (ht : h.shard.Tracked)
    (hent : h.lookup key = some ent) : Ordered (log ++ [key]) (h.touch key) := by
  rw [Ordered, candidates_touch ht, ho]
  symm
  apply byLastUse_use
  intro b
  show (h.lookup b).isSome = _
  by_cases hb : b = key <;> simp [hb, hent]

theorem Ordered.putEntry (ho : Ordered log h) (ht : h.shard.Tracked) (key : Bytes)
    (ent : CacheEntry) : Ordered (log ++ [key]) (h.putEntry key ent) := by
  rw [Ordered, candidates_putEntry ht, ho]
  symm
  apply byLastUse_use
  intro b
  rw [lookup_putEntry]
  by_cases hb : b = key <;> simp [hb]

theorem Ordered.update (ho : Ordered log h) (hent : h.lookup key = some ent) (ent' : CacheEntry) :
    Ordered log (h.update key ent') := by
  show h.candidates = _
  rw [ho]
  refine byLastUse_congr fun b => ?_
  show _ = ((h.shard.entries.insert key ent').lookup b).isSome
  rw [lookup_insert]
  by_cases hb : b = key
  · rw [if_pos hb, hb, hent]
    rfl
  · rw [if_neg hb]
    rfl

theorem Ordered.dropExpired (ho : Ordered log h) (ht : h.shard.Tracked) (key : Bytes)
    (now : Time) : Ordered log (h.dropExpired key now) := by
  unfold Held.dropExpired
  split
  · exact ho
  · split
    · exact ho.removeLocked ht key
    · exact ho

theorem Ordered.removeAll (ho : Ordered log h) (ht : h.shard.Tracked) (keys : List Bytes) :
    Ordered log (keys.foldl (fun h key => (h.removeLocked key).countExpired) h) := by
  induction keys generalizing h with
  | nil => exact ho
  | cons key keys ih => exact ih (ho.removeLocked ht key) ((step_removeLocked h key).tracked ht)

theorem Ordered.evicts (ho : Ordered log h) {k : Nat} (hk : Evicts h h' k)
    (hnodup : h.candidates.Nodup) : Ordered log h' := by
  -- the candidates that are left are those that are not among the first `k`
  have hdrop : h.candidates.drop k = h.candidates.filter fun b => decide (b ∉ h.candidates.take k) := by
    have hsplit := List.take_append_drop k h.candidates
    rw [← hsplit, List.nodup_append] at hnodup
    conv_rhs => rw [← hsplit]
    rw [List.filter_append, List.filter_eq_nil_iff.mpr, List.nil_append,
      List.filter_eq_self.mpr]
    · rw [List.take_append_drop]
      exact fun b hb => decide_eq_true fun hmem => hnodup.2.2 b hmem b hb rfl
    · rw [List.take_append_drop]
      exact fun b hb => by simpa using hb
  have hleft := hk.rest.trans hdrop
  have hlookup := hk.lookup
  generalize h.candidates.take k = taken at hleft hlookup
  rw [Ordered, hleft, ho, byLastUse, byLastUse, List.filter_filter]
  refine List.filter_congr fun b _ => ?_
  rw [hlookup]
  by_cases hb : b ∈ taken <;> simp [hb]

theorem Ordered.evict (ho : Ordered log h) (ht : h.shard.Tracked) :
    Ordered log h.evictIfOverBudget := by
  obtain ⟨k, hk, -⟩ := evictIfOverBudget_evicts ht
  exact ho.evicts hk (nodup_candidates ht)

end Held

/-! ### Runs -/

/-- The entry that an increment to `next` writes. -/
def Held.incremented (h : Held) (key : Bytes) (next : Int) : CacheEntry :=
  match h.lookup key with
  | some ent => { ent with value := intText next, sizeBytes := approxSize key (intText next) }
  | none => { value := intText next, sizeBytes := approxSize key (intText next) }

theorem Held.sizeBytes_incremented (h : Held) (key : Bytes) (next : Int) :
    (h.incremented key next).sizeBytes = approxSize key (intText next) := by
  unfold Held.incremented
  split <;> rfl

variable {n : Nat}

namespace StoreOp

/-- The key that the operation gets, sets or increments with success. -/
def uses : StoreOp n → Held → List Bytes
  | .get key now, h => if (h.get key now).1.isSome then [key] else []
  | .set key value opts now now', h => if (h.set key value opts now now').1 then [key] else []
  | .incrBy key delta now, h => if (h.incrBy key delta now).1.isOk then [key] else []
  | _, _ => []

/-- What a SET or INCR leaves before it evicts. -/
def written : StoreOp n → Held → Option Held
  | .set key value opts now now', h =>
    if (h.set key value opts now now').1 then
      some ((h.dropExpired key now).putEntry key (Held.newEntry key value opts now'))
    else none
  | .incrBy key delta now, h => (h.currentValue key now).map fun current =>
    h.putEntry key (h.incremented key (wrap64 (current + delta)))
  | _, _ => none

open Held

variable {op : StoreOp n} {h w : Held} {log : List Bytes}

theorem onHeld_of_written (hw : op.written h = some w) : op.onHeld h = w.evictIfOverBudget := by
  cases op with
  | set key value opts now now' =>
    simp only [written] at hw
    split at hw
    case isFalse => cases hw
    case isTrue happlied =>
      cases hw
      simp only [onHeld]
      unfold Held.set at happlied ⊢
      dsimp only at happlied ⊢
      split at happlied
      · cases happlied
      rename_i hnx
      split at happlied
      · cases happlied
      rename_i hxx
      rw [if_neg hnx, if_neg hxx]
  | incrBy key delta now =>
    obtain ⟨current, hcurrent, rfl⟩ := Option.map_eq_some_iff.mp hw
    simp only [onHeld]
    unfold Held.incrBy
    rw [hcurrent]
    rfl
  | _ => cases hw

theorem maxBytes_written (hw : op.written h = some w) : w.shard.maxBytes = h.shard.maxBytes := by
  have hevict := (step_evictIfOverBudget w).budget
  rw [← onHeld_of_written hw, (op.keeps h).budget] at hevict
  exact hevict.symm

theorem written_set {key value : Bytes} {opts : SetOptions} {now now' : Time}
    (hw : (set key value opts now now' : StoreOp n).written h = some w) :
    w = (h.dropExpired key now).putEntry key (newEntry key value opts now') := by
  simp only [written] at hw
  split at hw
  · exact (Option.some.inj hw).symm
  · cases hw

/-- What is written is used last. -/
theorem ordered_written (ho : Ordered log h) (ht : h.shard.Tracked) (hw : op.written h = some w) :
    Ordered (log ++ op.uses h) w ∧ w.shard.Tracked := by
  cases op with
  | set key value opts now now' =>
    simp only [written] at hw
    split at hw
    case isFalse => cases hw
    case isTrue happlied =>
      cases hw
      have hdrop : (h.dropExpired key now).shard.Tracked := tracked_dropExpired ht key now
      rw [uses, if_pos happlied]
      exact ⟨(ho.dropExpired ht key now).putEntry hdrop _ _, tracked_putEntry hdrop _ _⟩
  | incrBy key delta now =>
    obtain ⟨current, hcurrent, rfl⟩ := Option.map_eq_some_iff.mp hw
    have hok : (h.incrBy key delta now).1.isOk = true := by
      unfold Held.incrBy
      rw [hcurrent]
      rfl
    rw [uses, if_pos hok]
    exact ⟨ho.putEntry ht _ _, tracked_putEntry ht _ _⟩
  | _ => cases hw

theorem ordered_onHeld (op : StoreOp n) (ho : Ordered log h) (ht : h.shard.Tracked) :
    Ordered (log ++ op.uses h) (op.onHeld h) := by
  cases hw : op.written h with
  | some w =>
    obtain ⟨how, htw⟩ := ordered_written ho ht hw
    rw [onHeld_of_written hw]
    exact how.evict htw
  | none =>
    have hdone : ∀ h', op.uses h = [] → Ordered log h' → Ordered (log ++ op.uses h) h' := by
      intro h' huses ho'
      rwa [huses, List.append_nil]
    cases op with
    | get key now =>
      simp only [uses, onHeld]
      unfold Held.get
      split
      case h_1 =>
        have hmiss : Ordered log h.countMiss := ho.congr rfl
        simpa using hmiss
      case h_2 ent hent =>
        split
        · have hgone : Ordered log (h.removeLocked key).countExpired.countMiss :=
            (ho.removeLocked ht key).congr rfl
          simpa using hgone
        · have hhit : Ordered (log ++ [key]) (h.touch key).countHit := (ho.touch ht hent).congr rfl
          simpa using hhit
    | «exists» key now =>
      refine hdone _ rfl ?_
      simp only [onHeld]
      unfold Held.exists
      split
      · exact ho
      · split
        · exact ho.removeLocked ht key
        · exact ho
    | set key value opts now now' =>
      simp only [written] at hw
      split at hw
      case isTrue => cases hw
      case isFalse hblocked =>
        have huses : (set key value opts now now' : StoreOp n).uses h = [] := by
          rw [uses, if_neg hblocked]
        refine hdone _ huses ?_
        simp only [onHeld]
        unfold Held.set at hblocked ⊢
        dsimp only at hblocked ⊢
        split
        · exact ho.dropExpired ht key now
        · split
          · exact ho.dropExpired ht key now
          · rename_i hnx hxx
            rw [if_neg hnx, if_neg hxx] at hblocked
            exact absurd rfl hblocked
    | delete key =>
      refine hdone _ rfl ?_
      simp only [onHeld]
      unfold Held.delete
      split
      · exact ho
      · exact ho.removeLocked ht key
    | expire key ttl now now' =>
      refine hdone _ rfl ?_
      simp only [onHeld]
      unfold Held.expire
      split
      case h_1 => exact ho
      case h_2 ent hent =>
        split
        · exact ho
        · exact ho.update hent _
    | persist key now =>
      refine hdone _ rfl ?_
      simp only [onHeld]
      unfold Held.persist
      split
      case h_1 => exact ho
      case h_2 ent hent =>
        split
        · exact ho
        · exact ho.update hent _
    | ttl key now now' =>
      refine hdone _ rfl ?_
      simp only [onHeld]
      unfold Held.ttl
      split
      · exact ho
      · split
        · exact ho.removeLocked ht key
        · split <;> exact ho
    | incrBy key delta now =>
      have hcurrent : h.currentValue key now = none := Option.map_eq_none_iff.mp hw
      have hrefused : h.incrBy key delta now =
          (.error "value is not an integer or out of range", h) := by
        unfold Held.incrBy
        rw [hcurrent]
      simp only [uses, onHeld, hrefused]
      simpa [Except.isOk, Except.toBool] using ho
    | flushAll i =>
      refine hdone _ rfl ?_
      show [] = byLastUse log _
      exact (byLastUse_none fun _ => rfl).symm
    | sweepExpired i now => exact hdone _ rfl (ho.removeAll ht _)

end StoreOp

/-- The keys that a run gets, sets or increments with success, the earliest first. -/
def useLog : List (StoreOp n) → Held → List Bytes
  | [], _ => []
  | op :: ops, h => op.uses h ++ useLog ops (op.onHeld h)

/-- A shard after a run of operations. -/
def Held.run (h : Held) (ops : List (StoreOp n)) : Held := ops.foldl (fun h op => op.onHeld h) h

theorem Held.run_tracked_sized {h : Held} (ht : h.shard.Tracked) (hs : h.shard.Sized)
    (ops : List (StoreOp n)) : (h.run ops).shard.Tracked ∧ (h.run ops).shard.Sized ∧
      (h.run ops).shard.maxBytes = h.shard.maxBytes := by
  induction ops generalizing h with
  | nil => exact ⟨ht, hs, rfl⟩
  | cons op ops ih =>
    have hstep := ih ((op.keeps h).tracked ht) ((op.keeps h).sized hs)
    exact ⟨hstep.1, hstep.2.1, hstep.2.2.trans (op.keeps h).budget⟩

theorem Held.Ordered.run {h : Held} {log : List Bytes} (ho : h.Ordered log) (ht : h.shard.Tracked)
    (ops : List (StoreOp n)) :
    (h.run ops).Ordered (log ++ useLog ops h) ∧ (h.run ops).shard.Tracked := by
  induction ops generalizing h log with
  | nil => exact ⟨by rw [useLog, List.append_nil]; exact ho, ht⟩
  | cons op ops ih =>
    have hstep := ih (op.ordered_onHeld ho ht) ((op.keeps h).tracked ht)
    rw [useLog, ← List.append_assoc]
    exact hstep

/-- The value of a SET that fits the budget by itself is there after it. -/
theorem StoreOp.lookup_set_of_fits {h w : Held} (ht : h.shard.Tracked) {key value : Bytes}
    {opts : SetOptions} {now now' : Time}
    (hw : (set key value opts now now' : StoreOp n).written h = some w)
    (hfits : approxSize key value ≤ h.shard.maxBytes) :
    ((set key value opts now now' : StoreOp n).onHeld h).lookup key =
      some (Held.newEntry key value opts now') := by
  have hdrop : (h.dropExpired key now).shard.Tracked := Held.tracked_dropExpired ht key now
  have hsize := Held.sizeBytes_newEntry key value opts now'
  rw [onHeld_of_written hw]
  have hmax := maxBytes_written hw
  rw [written_set hw] at hmax ⊢
  have hself : ((h.dropExpired key now).putEntry key
      (Held.newEntry key value opts now')).lookup key = some (Held.newEntry key value opts now') := by
    rw [Held.lookup_putEntry, if_pos rfl]
  rw [Held.lookup_evict_of_fits (Held.tracked_putEntry hdrop _ _)
    (Held.candidates_putEntry hdrop key _), hself]
  rw [hself, hmax, Held.entryBytes_some, hsize]
  exact hfits

/-- The value of a SET that does not fit leaves nothing. -/
theorem StoreOp.entries_set_of_large {h w : Held} (ht : h.shard.Tracked)
    (hsizes : ∀ k, 0 ≤ entryBytes (h.lookup k)) {key value : Bytes}
    {opts : SetOptions} {now now' : Time}
    (hw : (set key value opts now now' : StoreOp n).written h = some w)
    (hlarge : h.shard.maxBytes < approxSize key value) :
    ((set key value opts now now' : StoreOp n).onHeld h).shard.entries = ∅ := by
  have hdrop : (h.dropExpired key now).shard.Tracked := Held.tracked_dropExpired ht key now
  have hsize := Held.sizeBytes_newEntry key value opts now'
  rw [onHeld_of_written hw]
  have hmax := maxBytes_written hw
  rw [written_set hw] at hmax ⊢
  refine Held.entries_evict_of_large (Held.tracked_putEntry hdrop _ _) (fun k => ?_)
    (Held.candidates_putEntry hdrop key _) ?_
  · rw [Held.lookup_putEntry]
    split
    · rw [Held.entryBytes_some, hsize]
      exact (approxSize_pos _ _).le
    · rw [Held.lookup_dropExpired]
      split
      · exact entryBytes_liveAt (hsizes key)
      · exact hsizes k
  · rw [Held.lookup_putEntry, if_pos rfl, hmax, Held.entryBytes_some, hsize]
    exact hlarge

/-- The sum of an INCR that fits the budget by itself is there after it. -/
theorem StoreOp.lookup_incrBy_of_fits {h : Held} (ht : h.shard.Tracked) {key : Bytes}
    {delta current : Int} {now : Time} (hcurrent : h.currentValue key now = some current)
    (hfits : approxSize key (intText (wrap64 (current + delta))) ≤ h.shard.maxBytes) :
    ((incrBy key delta now : StoreOp n).onHeld h).lookup key =
      some (h.incremented key (wrap64 (current + delta))) := by
  have hw : (incrBy key delta now : StoreOp n).written h =
      some (h.putEntry key (h.incremented key (wrap64 (current + delta)))) := by
    rw [written, hcurrent, Option.map_some]
  have hself : (h.putEntry key (h.incremented key (wrap64 (current + delta)))).lookup key =
      some (h.incremented key (wrap64 (current + delta))) := by
    rw [Held.lookup_putEntry, if_pos rfl]
  rw [onHeld_of_written hw, Held.lookup_evict_of_fits (Held.tracked_putEntry ht _ _)
    (Held.candidates_putEntry ht key _), hself]
  rw [hself, Held.maxBytes_putEntry, Held.entryBytes_some, Held.sizeBytes_incremented]
  exact hfits

/-- When a SET or INCR has written its entry in a shard that started empty, the keys that go are
the first ones in the order of their last successful get, set or increment, as many as bring the
bytes down to the budget and no more.  So a value that fits the budget by itself is there right
after its SET, and one that does not leaves the shard empty. -/
theorem evicts_least_recently_used (maxBytes : Int) (metrics : Metrics) (ops : List (StoreOp n))
    (op : StoreOp n) (w : Held)
    (hw : op.written (Held.run ⟨newShard maxBytes, metrics⟩ ops) = some w) :
    let start : Held := ⟨newShard maxBytes, metrics⟩
    let h := start.run ops
    let order := byLastUse (useLog ops start ++ op.uses h) fun key => (w.lookup key).isSome
    (∃ k ≤ order.length,
      (∀ key, (op.onHeld h).lookup key = if key ∈ order.take k then none else w.lookup key) ∧
      (op.onHeld h).shard.usedBytes = w.shard.usedBytes - w.bytesOf (order.take k) ∧
      (∀ j < k, maxBytes < w.shard.usedBytes - w.bytesOf (order.take j)) ∧
      (0 ≤ maxBytes → w.shard.usedBytes - w.bytesOf (order.take k) ≤ maxBytes)) ∧
    ∀ key value opts now now', op = .set key value opts now now' →
      (approxSize key value ≤ maxBytes →
        (op.onHeld h).lookup key = some (Held.newEntry key value opts now')) ∧
      (maxBytes < approxSize key value → (op.onHeld h).shard.entries = ∅) := by
  intro start h order
  have hempty : start.Ordered [] := rfl
  obtain ⟨ho, ht⟩ := hempty.run (newShard_tracked maxBytes) ops
  obtain ⟨-, hsized, hmax⟩ := start.run_tracked_sized (newShard_tracked maxBytes)
    (fun _ he => nomatch he) ops
  have hbudget : w.shard.maxBytes = maxBytes := (StoreOp.maxBytes_written hw).trans hmax
  obtain ⟨how, htw⟩ := StoreOp.ordered_written ho ht hw
  have horder : w.candidates = order := how
  constructor
  · obtain ⟨k, hk, hstop⟩ := Held.evictIfOverBudget_evicts htw
    have hused := hk.used
    have hover := hk.excess
    have hle := hk.le
    have hlookup := hk.lookup
    rw [← StoreOp.onHeld_of_written hw] at hused hlookup hstop
    rw [horder] at hused hover hle hlookup hstop
    rw [hbudget] at hover hstop
    refine ⟨k, hle, hlookup, hused, hover, fun hpos => ?_⟩
    rcases hstop with hstop | rfl
    · rw [← hused]
      exact hstop
    · have hall := Held.bytesOf_candidates htw
      rw [horder] at hall
      rw [List.take_length, hall]
      omega
  · rintro key value opts now now' rfl
    have hsizes : ∀ k, 0 ≤ entryBytes (h.lookup k) := by
      intro k
      cases hent : h.lookup k with
      | none => exact le_rfl
      | some ent =>
        have hsize := hsized ⟨k, ent⟩ (List.of_mem_dlookup hent)
        rw [Held.entryBytes_some, show ent.sizeBytes = _ from hsize]
        exact (approxSize_pos _ _).le
    refine ⟨fun hfits => ?_, fun hlarge => ?_⟩
    · exact StoreOp.lookup_set_of_fits ht hw (by rw [hmax]; exact hfits)
    · exact StoreOp.entries_set_of_large ht hsizes hw (by rw [hmax]; exact hlarge)

/-- Two entries of 66 bytes, the first of them read again. -/
def twoEntries : List (StoreOp 1) :=
  [.set (ascii "a") (ascii "1") {} 0 0, .set (ascii "b") (ascii "1") {} 0 0, .get (ascii "a") 0]

def thirdEntry : StoreOp 1 := .set (ascii "c") (ascii "1") {} 0 0

/-- The shard of 140 bytes with the third entry, before the eviction. -/
def threeEntries : Held :=
  (thirdEntry.written (Held.run ⟨newShard 140, {}⟩ twoEntries)).getD ⟨newShard 0, {}⟩

theorem evicts_least_recently_used_third :
    let start : Held := ⟨newShard 140, {}⟩
    let h := start.run twoEntries
    let order := byLastUse (useLog twoEntries start ++ thirdEntry.uses h) fun key =>
      (threeEntries.lookup key).isSome
    order = [ascii "b", ascii "a", ascii "c"] ∧
      ∃ k ≤ order.length, ∀ key, (thirdEntry.onHeld h).lookup key =
        if key ∈ order.take k then none else threeEntries.lookup key := by
  have hwritten : thirdEntry.written (Held.run ⟨newShard 140, {}⟩ twoEntries) =
      some threeEntries := rfl
  obtain ⟨⟨k, hle, hlookup, -⟩, -⟩ :=
    evicts_least_recently_used 140 {} twoEntries thirdEntry threeEntries hwritten
  exact ⟨by decide, k, hle, hlookup⟩

end SqlOptimizer.Cache

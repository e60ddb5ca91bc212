import SqlOptimizer.Cache.Storage.Store

/-! What every operation of the store keeps: the recency list, the byte counters and the metrics
agree with the entries. -/

namespace SqlOptimizer.Cache

/-! ### The recency list -/

/-- The map finds exactly the elements of the list. -/
structure Lru.Valid (l : Lru) : Prop where
  distinct : l.list.Distinct
  items : ∀ key el, l.items.lookup key = some el ↔ (el, key) ∈ l.list.elements

namespace Lru

variable {l : Lru} {key : Bytes}

theorem valid_empty : Lru.empty.Valid :=
  ⟨LinkedList.distinct_empty, fun _ _ => by simp [Lru.empty, LinkedList.empty]⟩

theorem mem_keys : key ∈ l.keys ↔ ∃ el, (el, key) ∈ l.list.elements := LinkedList.mem_values

namespace Valid

theorem nodup (h : l.Valid) : l.keys.Nodup := by
  apply List.Nodup.map_on _ h.distinct.nodup.of_map
  rintro ⟨i, k⟩ hi ⟨j, k'⟩ hj (rfl : k = k')
  rw [← h.items] at hi hj
  rw [hi] at hj
  cases hj
  rfl

theorem lookup_none (h : l.Valid) : l.items.lookup key = none ↔ key ∉ l.keys := by
  rw [mem_keys, not_exists]
  constructor
  · intro hnone el hel
    rw [← h.items, hnone] at hel
    cases hel
  · intro hno
    rw [Option.eq_none_iff_forall_ne_some]
    exact fun el hel => hno el ((h.items key el).mp hel)

/-- The element that the map finds is the only one with its identity and the only one with its
key. -/
theorem unique (h : l.Valid) {el : Nat} (hel : l.items.lookup key = some el) :
    ∀ e ∈ l.list.elements, e.1 = el ↔ e.2 = key := by
  rintro ⟨i, k⟩ he
  constructor
  · rintro rfl
    have hfind := h.distinct.find? he
    rw [h.distinct.find? ((h.items key i).mp hel)] at hfind
    cases hfind
    rfl
  · rintro rfl
    rw [← h.items, hel] at he
    cases he
    rfl

theorem remove_keys (h : l.Valid) : (l.remove key).keys = l.keys.erase key := by
  unfold Lru.remove
  split
  case h_1 el hel => exact LinkedList.values_remove (h.unique hel)
  case h_2 hnone => rw [List.erase_of_not_mem (h.lookup_none.mp hnone)]

theorem remove (h : l.Valid) : (l.remove key).Valid := by
  unfold Lru.remove
  split
  case h_1 el hel =>
    refine ⟨h.distinct.remove el, fun k i => ?_⟩
    rw [h.distinct.mem_remove]
    by_cases hk : k = key
    · subst hk
      rw [AList.lookup_erase, ← h.items, hel]
      constructor
      · exact fun h => nomatch h
      · rintro ⟨hi, hne⟩
        cases hi
        exact absurd rfl hne
    · rw [AList.lookup_erase_ne hk, h.items]
      exact ⟨fun hi => ⟨hi, fun hid => hk ((h.unique hel _ hi).mp hid)⟩, fun hi => hi.1⟩
  case h_2 => exact h

theorem touch_keys (h : l.Valid) : (l.touch key).keys = key :: l.keys.erase key := by
  unfold Lru.touch
  split
  case h_1 el hel =>
    show ((l.list.moveToFront el).elements.map (·.2)) = _
    rw [h.distinct.moveToFront ((h.items key el).mp hel), List.map_cons]
    exact congrArg (key :: ·) (LinkedList.values_remove (h.unique hel))
  case h_2 hnone =>
    rw [List.erase_of_not_mem (h.lookup_none.mp hnone)]
    rfl

theorem touch (h : l.Valid) : (l.touch key).Valid := by
  unfold Lru.touch
  split
  case h_1 el hel =>
    have hmem := (h.items key el).mp hel
    have hmove := h.distinct.moveToFront hmem
    have hall : ∀ e, e ∈ (l.list.moveToFront el).elements ↔ e ∈ l.list.elements := by
      intro e
      rw [hmove, List.mem_cons, h.distinct.mem_remove]
      constructor
      · rintro (rfl | he)
        · exact hmem
        · exact he.1
      · intro he
        by_cases hid : e.1 = el
        · exact .inl (Prod.ext hid ((h.unique hel e he).mp hid))
        · exact .inr ⟨he, hid⟩
    refine ⟨⟨?_, fun e he => ?_⟩, fun k i => ?_⟩
    · show ((l.list.moveToFront el).elements.map (·.1)).Nodup
      rw [hmove, List.map_cons, List.nodup_cons]
      refine ⟨fun hin => ?_, (h.distinct.remove el).nodup⟩
      obtain ⟨e, he, hid⟩ := List.mem_map.mp hin
      exact (h.distinct.mem_remove.mp he).2 hid
    · have hfresh : (l.list.moveToFront el).fresh = l.list.fresh := by
        rw [LinkedList.moveToFront, h.distinct.find? hmem]
      rw [hfresh]
      exact h.distinct.old e ((hall e).mp he)
    · rw [hall, ← h.items]
  case h_2 hnone =>
    refine ⟨h.distinct.pushFront key, fun k i => ?_⟩
    show (l.items.insert key l.list.fresh).lookup k = some i ↔
      (i, k) ∈ (l.list.fresh, key) :: l.list.elements
    rw [List.mem_cons]
    by_cases hk : k = key
    · subst hk
      rw [AList.lookup_insert]
      constructor
      · intro hi
        cases hi
        exact .inl rfl
      · rintro (hi | hi)
        · cases hi
          rfl
        · exact absurd (mem_keys.mpr ⟨i, hi⟩) (h.lookup_none.mp hnone)
    · rw [AList.lookup_insert_ne hk, h.items]
      exact ⟨.inr, fun hi => hi.resolve_left fun heq => hk (Prod.ext_iff.mp heq).2⟩

end Valid

end Lru

/-! ### One shard -/

/-- The recency list and the byte counter belong to the entries. -/
structure Shard.Tracked (s : Shard) : Prop where
  lru : s.lru.Valid
  keys : s.lru.keys.Perm s.entries.keys
  used : s.usedBytes = totalWeight (fun e => e.2.sizeBytes) s.entries

/-- Every entry has the size of its key and value. -/
def Shard.Sized (s : Shard) : Prop :=
  ∀ e ∈ s.entries.entries, e.2.sizeBytes = approxSize e.1 e.2.value

structure Shard.Within (s : Shard) : Prop where
  budget : 0 ≤ s.maxBytes
  used : s.usedBytes ≤ s.maxBytes

theorem approxSize_pos (key value : Bytes) : 0 < approxSize key value := by
  unfold approxSize entryOverheadBytes
  omega

theorem Shard.Tracked.mem_keys {s : Shard} (h : s.Tracked) {key : Bytes} :
    key ∈ s.lru.keys ↔ ∃ ent, s.entries.lookup key = some ent := by
  rw [h.keys.mem_iff, ← AList.mem_keys, ← AList.lookup_isSome, Option.isSome_iff_exists]

namespace Held

/-- What every locked section does: it keeps the shard in order, and counts what it changes. -/
structure Step (h h' : Held) : Prop where
  tracked : h.shard.Tracked → h'.shard.Tracked
  sized : h.shard.Sized → h'.shard.Sized
  entries : h'.metrics.currentEntries - h'.shard.entries.entries.length =
    h.metrics.currentEntries - h.shard.entries.entries.length
  bytes : h'.metrics.memoryBytes - h'.shard.usedBytes = h.metrics.memoryBytes - h.shard.usedBytes
  budget : h'.shard.maxBytes = h.shard.maxBytes

/-- A locked section that also stays within the budget. -/
structure Keeps (h h' : Held) : Prop extends Step h h' where
  within : h.shard.Tracked → h.shard.Sized → h.shard.Within → h'.shard.Within

variable {h h' h'' : Held} {key : Bytes} {ent : CacheEntry} {now : Time}

theorem Step.refl (h : Held) : Step h h := ⟨id, id, rfl, rfl, rfl⟩

theorem Step.trans (h1 : Step h h') (h2 : Step h' h'') : Step h h'' :=
  ⟨h2.tracked ∘ h1.tracked, h2.sized ∘ h1.sized, h2.entries.trans h1.entries,
    h2.bytes.trans h1.bytes, h2.budget.trans h1.budget⟩

theorem Keeps.refl (h : Held) : Keeps h h := ⟨.refl h, fun _ _ hw => hw⟩

theorem Keeps.trans (h1 : Keeps h h') (h2 : Keeps h' h'') : Keeps h h'' :=
  ⟨h1.toStep.trans h2.toStep, fun ht hs hw =>
    h2.within (h1.tracked ht) (h1.sized hs) (h1.within ht hs hw)⟩

theorem keeps_metrics (h : Held) {m : Metrics} (he : m.currentEntries = h.metrics.currentEntries)
    (hb : m.memoryBytes = h.metrics.memoryBytes) : Keeps h { h with metrics := m } :=
  ⟨⟨id, id, by rw [he], by rw [hb], rfl⟩, fun _ _ hw => hw⟩

theorem step_removeLocked (h : Held) (key : Bytes) : Step h (h.removeLocked key) := by
  unfold removeLocked
  split
  case h_1 => exact .refl h
  case h_2 ent hent =>
    have hlen := length_erase hent
    refine ⟨fun ht => ⟨ht.lru.remove, ?_, ?_⟩, fun hs e he => hs e (mem_entries_erase he), ?_, ?_,
      rfl⟩
    · show (h.shard.lru.remove key).keys.Perm (h.shard.entries.erase key).keys
      rw [ht.lru.remove_keys, keys_erase]
      exact ht.keys.erase key
    · show h.shard.usedBytes - ent.sizeBytes = _
      rw [totalWeight_erase hent, ht.used]
    · show h.metrics.currentEntries - 1 - ((h.shard.entries.erase key).entries.length : Int) = _
      omega
    · show h.metrics.memoryBytes - ent.sizeBytes - (h.shard.usedBytes - ent.sizeBytes) = _
      omega

theorem keeps_removeLocked (h : Held) (key : Bytes) : Keeps h (h.removeLocked key) := by
  refine ⟨step_removeLocked h key, fun _ hs hw => ?_⟩
  unfold removeLocked
  split
  case h_1 => exact hw
  case h_2 ent hent =>
    have hmem : (⟨key, ent⟩ : Sigma fun _ : Bytes => CacheEntry) ∈ h.shard.entries.entries :=
      List.of_mem_dlookup hent
    have hsize := hs _ hmem
    have hpos := approxSize_pos key ent.value
    have hused := hw.used
    refine ⟨hw.budget, ?_⟩
    show h.shard.usedBytes - ent.sizeBytes ≤ h.shard.maxBytes
    simp only at hsize
    omega

theorem keeps_touch (hent : h.lookup key = some ent) : Keeps h (h.touch key) := by
  refine ⟨⟨fun ht => ⟨ht.lru.touch, ?_, ht.used⟩, id, rfl, rfl, rfl⟩, fun _ _ hw => ⟨hw.1, hw.2⟩⟩
  show (h.shard.lru.touch key).keys.Perm h.shard.entries.keys
  rw [ht.lru.touch_keys]
  exact (List.perm_cons_erase (ht.mem_keys.mpr ⟨ent, hent⟩)).symm.trans ht.keys

theorem tracked_putEntry (ht : h.shard.Tracked) (key : Bytes) (ent : CacheEntry) :
    (h.putEntry key ent).shard.Tracked := by
  have hkeys : (h.shard.lru.touch key).keys.Perm (h.shard.entries.insert key ent).keys := by
    rw [ht.lru.touch_keys, keys_insert]
    exact (ht.keys.erase key).cons key
  unfold putEntry
  split
  case h_1 old hold =>
    refine ⟨ht.lru.touch, hkeys, ?_⟩
    show h.shard.usedBytes + (ent.sizeBytes - old.sizeBytes) = _
    rw [totalWeight_insert, totalWeight_erase hold, ht.used]
    dsimp only
    omega
  case h_2 hnone =>
    refine ⟨ht.lru.touch, hkeys, ?_⟩
    show h.shard.usedBytes + ent.sizeBytes = _
    rw [totalWeight_insert, erase_of_lookup_none hnone, ht.used]
    dsimp only
    omega

theorem shard_entries_putEntry (h : Held) (key : Bytes) (ent : CacheEntry) :
    (h.putEntry key ent).shard.entries = h.shard.entries.insert key ent := by
  unfold putEntry
  split <;> rfl

@[simp] theorem maxBytes_putEntry (h : Held) (key : Bytes) (ent : CacheEntry) :
    (h.putEntry key ent).shard.maxBytes = h.shard.maxBytes := by
  unfold putEntry
  split <;> rfl

theorem step_putEntry (h : Held) (hsize : ent.sizeBytes = approxSize key ent.value) :
    Step h (h.putEntry key ent) := by
  refine ⟨fun ht => tracked_putEntry ht key ent, ?_, ?_, ?_, maxBytes_putEntry h key ent⟩
  · intro hs e he
    rw [shard_entries_putEntry] at he
    rcases mem_entries_insert he with rfl | he
    · exact hsize
    · exact hs e he
  · have hlen := length_insert (s := h.shard.entries) (a := key) ent
    rw [shard_entries_putEntry]
    unfold putEntry
    split
    case h_1 old hold =>
      have hlen' := length_erase hold
      dsimp only
      omega
    case h_2 hnone =>
      rw [erase_of_lookup_none hnone] at hlen
      dsimp only
      omega
  · unfold putEntry
    split <;> dsimp only <;> omega

theorem step_evictOnce (hh : h.evictOnce = some h') : Step h h' := by
  unfold evictOnce at hh
  split at hh
  · obtain ⟨key, -, rfl⟩ := Option.map_eq_some_iff.mp hh
    have hcount : Step (h.removeLocked key) (h.removeLocked key).countEvicted :=
      (keeps_metrics (h.removeLocked key) (m := (h.removeLocked key).countEvicted.metrics) rfl
        rfl).toStep
    exact (step_removeLocked h key).trans hcount
  · cases hh

/-- A round takes one key off the recency list, since the map has it. -/
theorem len_evictOnce (ht : h.shard.Tracked) (hh : h.evictOnce = some h') :
    h'.shard.lru.len + 1 = h.shard.lru.len := by
  unfold evictOnce at hh
  split at hh
  · obtain ⟨key, hkey, rfl⟩ := Option.map_eq_some_iff.mp hh
    have hmem : key ∈ h.shard.lru.keys := List.mem_of_getLast? hkey
    obtain ⟨ent, hent⟩ := ht.mem_keys.mp hmem
    have hlru : ((h.removeLocked key).countEvicted).shard.lru = h.shard.lru.remove key := by
      show (h.removeLocked key).shard.lru = _
      unfold removeLocked
      rw [show h.lookup key = some ent from hent]
    rw [hlru, Lru.len, Lru.len, ht.lru.remove_keys, List.length_erase_of_mem hmem]
    have := List.length_pos_of_mem hmem
    omega
  · cases hh

/-- The loop ends, and it ends because its guard fails or there is no candidate. -/
theorem evictLoop_eq_some {rounds : Nat} (ht : h.shard.Tracked) (hr : h.shard.lru.len < rounds) :
    ∃ h', evictLoop rounds h = some h' ∧ Step h h' ∧ h'.evictOnce = none := by
  induction rounds generalizing h with
  | zero => omega
  | succ rounds ih =>
    rw [evictLoop]
    split
    case h_1 hnone => exact ⟨h, rfl, .refl h, hnone⟩
    case h_2 h' hh =>
      have hlen := len_evictOnce ht hh
      have hstep := step_evictOnce hh
      obtain ⟨h'', hloop, hstep', hnone⟩ := ih (hstep.tracked ht) (by omega)
      exact ⟨h'', hloop, hstep.trans hstep', hnone⟩

theorem evictLoop_isSome (ht : h.shard.Tracked) :
    (evictLoop (h.shard.lru.len + 1) h).isSome = true := by
  obtain ⟨h', hh', -⟩ := evictLoop_eq_some ht (Nat.lt_succ_self _)
  rw [hh']
  rfl

theorem step_evictLoop {rounds : Nat} (hh : evictLoop rounds h = some h') : Step h h' := by
  induction rounds generalizing h with
  | zero => cases hh
  | succ rounds ih =>
    rw [evictLoop] at hh
    split at hh
    case h_1 =>
      cases hh
      exact .refl _
    case h_2 h1 h1eq => exact (step_evictOnce h1eq).trans (ih hh)

theorem step_evictIfOverBudget (h : Held) : Step h h.evictIfOverBudget := by
  unfold evictIfOverBudget
  cases hh : evictLoop (h.shard.lru.len + 1) h with
  | none => exact .refl h
  | some h' => exact step_evictLoop hh

/-- After the loop the shard is within its budget: an empty one uses no bytes. -/
theorem within_evictIfOverBudget (ht : h.shard.Tracked) (hb : 0 ≤ h.shard.maxBytes) :
    h.evictIfOverBudget.shard.Within := by
  obtain ⟨h', hh', hstep, hnone⟩ := evictLoop_eq_some ht (Nat.lt_succ_self _)
  have heq : h.evictIfOverBudget = h' := by rw [evictIfOverBudget, hh', Option.getD_some]
  have ht' := hstep.tracked ht
  have hb' : 0 ≤ h'.shard.maxBytes := by rw [hstep.budget]; exact hb
  rw [heq]
  refine ⟨hb', ?_⟩
  by_contra hlt
  rw [evictOnce, if_pos (by omega), Option.map_eq_none_iff] at hnone
  have hempty : h'.shard.lru.keys = [] := List.getLast?_eq_none_iff.mp hnone
  have hkeys : h'.shard.entries.keys = [] := by
    have := ht'.keys
    rw [hempty] at this
    exact List.nil_perm.mp this
  have hentries : h'.shard.entries.entries = [] := List.map_eq_nil_iff.mp hkeys
  have hused := ht'.used
  rw [totalWeight, hentries, List.map_nil, List.sum_nil] at hused
  omega

theorem keeps_write (h : Held) (hsize : ent.sizeBytes = approxSize key ent.value) :
    Keeps h (h.putEntry key ent).evictIfOverBudget := by
  have hput := step_putEntry h hsize
  refine ⟨hput.trans (step_evictIfOverBudget _), fun ht _ hw => ?_⟩
  exact within_evictIfOverBudget (hput.tracked ht) (by rw [hput.budget]; exact hw.budget)

theorem keeps_update (hent : h.lookup key = some ent) {ent' : CacheEntry}
    (hsize : ent'.sizeBytes = ent.sizeBytes) (hvalue : ent'.value = ent.value) :
    Keeps h (h.update key ent') := by
  have hmem : (⟨key, ent⟩ : Sigma fun _ : Bytes => CacheEntry) ∈ h.shard.entries.entries :=
    List.of_mem_dlookup hent
  have hkey : key ∈ h.shard.entries.keys := List.mem_map_of_mem (f := Sigma.fst) hmem
  have hlen := length_insert (s := h.shard.entries) (a := key) ent'
  have hlen' := length_erase hent
  refine ⟨⟨fun ht => ⟨ht.lru, ?_, ?_⟩, fun hs e he => ?_, ?_, rfl, rfl⟩, fun _ _ hw => ⟨hw.1, hw.2⟩⟩
  · show h.shard.lru.keys.Perm (h.shard.entries.insert key ent').keys
    rw [keys_insert]
    exact ht.keys.trans (List.perm_cons_erase hkey)
  · show h.shard.usedBytes = totalWeight _ (h.shard.entries.insert key ent')
    rw [totalWeight_insert, totalWeight_erase hent, ht.used]
    dsimp only
    omega
  · rcases mem_entries_insert he with rfl | he
    · show ent'.sizeBytes = approxSize key ent'.value
      rw [hsize, hvalue]
      exact hs _ hmem
    · exact hs e he
  · show h.metrics.currentEntries - ((h.shard.entries.insert key ent').entries.length : Int) = _
    omega

theorem keeps_flushAll (h : Held) : Keeps h h.flushAll := by
  refine ⟨⟨fun _ => ⟨Lru.valid_empty, .refl _, rfl⟩, fun _ _ he => (nomatch he), ?_, ?_, rfl⟩,
    fun _ _ hw => ⟨hw.1, hw.1⟩⟩
  · show h.metrics.currentEntries - _ - ((∅ : AList fun _ : Bytes => CacheEntry).entries.length :
      Int) = _
    simp
  · show h.metrics.memoryBytes - _ - 0 = _
    omega

/-! What a locked section does to a shard, in steps. -/

/-- `W key ent` says that `ent` may be written at `key`. -/
inductive Acts (W : Bytes → CacheEntry → Prop) : Held → Held → Prop
  | refl (h : Held) : Acts W h h
  | trans {h h' h'' : Held} (h1 : Acts W h h') (h2 : Acts W h' h'') : Acts W h h''
  | count (h : Held) {m : Metrics} (he : m.currentEntries = h.metrics.currentEntries)
      (hb : m.memoryBytes = h.metrics.memoryBytes) : Acts W h { h with metrics := m }
  | remove (h : Held) (key : Bytes) : Acts W h (h.removeLocked key)
  | touch {h : Held} {key : Bytes} {ent : CacheEntry} (hent : h.lookup key = some ent) :
      Acts W h (h.touch key)
  | write (h : Held) {key : Bytes} {ent : CacheEntry} (hw : W key ent) :
      Acts W h (h.putEntry key ent).evictIfOverBudget
  | update {h : Held} {key : Bytes} {ent ent' : CacheEntry} (hent : h.lookup key = some ent)
      (hsize : ent'.sizeBytes = ent.sizeBytes) (hvalue : ent'.value = ent.value) :
      Acts W h (h.update key ent')
  | flush (h : Held) : Acts W h h.flushAll

variable {W : Bytes → CacheEntry → Prop}

theorem Acts.keeps (hacts : Acts W h h')
    (hW : ∀ key ent, W key ent → ent.sizeBytes = approxSize key ent.value) : Keeps h h' := by
  induction hacts with
  | refl h => exact .refl h
  | trans _ _ ih1 ih2 => exact ih1.trans ih2
  | count h he hb => exact keeps_metrics h he hb
  | remove h key => exact keeps_removeLocked h key
  | touch hent => exact keeps_touch hent
  | write h hw => exact keeps_write h (hW _ _ hw)
  | update hent hsize hvalue => exact keeps_update hent hsize hvalue
  | flush h => exact keeps_flushAll h

theorem mem_entries_removeLocked {e : Sigma fun _ : Bytes => CacheEntry}
    (he : e ∈ (h.removeLocked key).shard.entries.entries) : e ∈ h.shard.entries.entries := by
  unfold removeLocked at he
  split at he
  · exact he
  · exact mem_entries_erase he

/-- Eviction only takes entries away. -/
theorem mem_entries_evictIfOverBudget {e : Sigma fun _ : Bytes => CacheEntry}
    (he : e ∈ h.evictIfOverBudget.shard.entries.entries) : e ∈ h.shard.entries.entries := by
  have hloop : ∀ {rounds : Nat} {h h' : Held}, evictLoop rounds h = some h' →
      e ∈ h'.shard.entries.entries → e ∈ h.shard.entries.entries := by
    intro rounds
    induction rounds with
    | zero => exact fun hh => nomatch hh
    | succ rounds ih =>
      intro h h' hh he
      rw [evictLoop] at hh
      split at hh
      case h_1 =>
        cases hh
        exact he
      case h_2 h1 h1eq =>
        have he1 := ih hh he
        unfold evictOnce at h1eq
        split at h1eq
        · obtain ⟨key, -, rfl⟩ := Option.map_eq_some_iff.mp h1eq
          exact mem_entries_removeLocked he1
        · cases h1eq
  unfold evictIfOverBudget at he
  cases hh : evictLoop (h.shard.lru.len + 1) h with
  | none =>
    rw [hh] at he
    exact he
  | some h' =>
    rw [hh] at he
    exact hloop hh he

/-- What holds of the key and value of every entry, and of all that may be written, still holds. -/
theorem Acts.entries_forall {P : Bytes → Bytes → Prop} (hacts : Acts W h h')
    (hW : ∀ key ent, W key ent → P key ent.value)
    (hP : ∀ e ∈ h.shard.entries.entries, P e.1 e.2.value) :
    ∀ e ∈ h'.shard.entries.entries, P e.1 e.2.value := by
  induction hacts with
  | refl => exact hP
  | trans _ _ ih1 ih2 => exact ih2 (ih1 hP)
  | count => exact hP
  | remove h key => exact fun e he => hP e (mem_entries_removeLocked he)
  | touch => exact hP
  | @write h key ent hw =>
    intro e he
    have he' := mem_entries_evictIfOverBudget he
    rw [shard_entries_putEntry] at he'
    rcases mem_entries_insert he' with rfl | he'
    · exact hW _ _ hw
    · exact hP e he'
  | @update h key ent ent' hent hsize hvalue =>
    intro e he
    rcases mem_entries_insert he with rfl | he
    · show P key ent'.value
      rw [hvalue]
      exact hP _ (List.of_mem_dlookup hent)
    · exact hP e he
  | flush => exact fun e he => nomatch he

/-- The removal of an expired entry on the way, with its count. -/
theorem acts_expired (h : Held) (key : Bytes) : Acts W h (h.removeLocked key).countExpired :=
  (Acts.remove h key).trans (.count _ rfl rfl)

theorem acts_dropExpired (h : Held) (key : Bytes) (now : Time) :
    Acts W h (h.dropExpired key now) := by
  unfold dropExpired
  split
  · exact .refl h
  · split
    · exact .remove h key
    · exact .refl h

theorem acts_sweepExpired (h : Held) (now : Time) : Acts W h (h.sweepExpired now) := by
  unfold sweepExpired
  generalize expiredKeys h.shard now = keys
  induction keys generalizing h with
  | nil => exact .refl h
  | cons key keys ih => exact (acts_expired h key).trans (ih _)

end Held

theorem newEntry_sizeBytes (key value : Bytes) (opts : SetOptions) (now : Time) :
    (Held.newEntry key value opts now).sizeBytes =
      approxSize key (Held.newEntry key value opts now).value := by
  unfold Held.newEntry
  split <;> rfl

namespace StoreOp

variable {n : Nat}

/-- The entries that an operation may write. -/
def Writes : StoreOp n → Bytes → CacheEntry → Prop
  | .set key value opts _ now', k, ent => k = key ∧ ent = Held.newEntry key value opts now'
  | .incrBy key _ _, k, ent =>
    k = key ∧ (∃ m, ent.value = intText (wrap64 m)) ∧ ent.sizeBytes = approxSize key ent.value
  | _, _, _ => False

theorem Writes.sizeBytes {op : StoreOp n} {key : Bytes} {ent : CacheEntry}
    (h : op.Writes key ent) : ent.sizeBytes = approxSize key ent.value := by
  cases op with
  | set k value opts now now' =>
    obtain ⟨rfl, rfl⟩ := h
    exact newEntry_sizeBytes _ _ _ _
  | incrBy k delta now =>
    obtain ⟨rfl, -, hsize⟩ := h
    exact hsize
  | _ => exact h.elim

open Held in
/-- The steps of every operation. -/
theorem acts (op : StoreOp n) (h : Held) : Acts op.Writes h (op.onHeld h) := by
  cases op with
  | get key now =>
    show Acts _ h (h.get key now).2
    unfold Held.get
    split
    case h_1 => exact .count h rfl rfl
    case h_2 ent hent =>
      split
      · exact (acts_expired h key).trans (.count _ rfl rfl)
      · exact (Acts.touch hent).trans (.count _ rfl rfl)
  | «exists» key now =>
    show Acts _ h (h.exists key now).2
    unfold Held.exists
    split
    · exact .refl h
    · split
      · exact acts_expired h key
      · exact .refl h
  | set key value opts now now' =>
    show Acts _ h (h.set key value opts now now').2
    have hdrop : Acts (set key value opts now now' : StoreOp n).Writes h (h.dropExpired key now) :=
      acts_dropExpired h key now
    unfold Held.set
    dsimp only
    split
    · exact hdrop
    · split
      · exact hdrop
      · exact hdrop.trans (.write _ ⟨rfl, rfl⟩)
  | delete key =>
    show Acts _ h (h.delete key).2
    unfold Held.delete
    split
    · exact .refl h
    · exact .remove h key
  | expire key ttl now now' =>
    show Acts _ h (h.expire key ttl now now').2
    unfold Held.expire
    split
    case h_1 => exact .refl h
    case h_2 ent hent =>
      split
      · exact .refl h
      · exact .update hent rfl rfl
  | persist key now =>
    show Acts _ h (h.persist key now).2
    unfold Held.persist
    split
    case h_1 => exact .refl h
    case h_2 ent hent =>
      split
      · exact .refl h
      · exact .update hent rfl rfl
  | ttl key now now' =>
    show Acts _ h (h.ttl key now now').2
    unfold Held.ttl
    split
    · exact .refl h
    · split
      · exact acts_expired h key
      · split <;> exact .refl h
  | incrBy key delta now =>
    show Acts _ h (h.incrBy key delta now).2
    unfold Held.incrBy
    split
    · exact .refl h
    · apply Acts.write
      split <;> exact ⟨rfl, ⟨_, rfl⟩, rfl⟩
  | flushAll i => exact .flush h
  | sweepExpired i now => exact acts_sweepExpired h now

theorem keeps (op : StoreOp n) (h : Held) : Held.Keeps h (op.onHeld h) :=
  (op.acts h).keeps fun _ _ hw => hw.sizeBytes

end StoreOp

/-! ### The store -/

/-- The shared counters count the entries and the bytes of all shards. -/
structure ShardedStore.Counted {n : Nat} (s : ShardedStore n) : Prop where
  entries : s.metrics.currentEntries = ∑ i, ((s.shards i).entries.entries.length : Int)
  bytes : s.metrics.memoryBytes = ∑ i, (s.shards i).usedBytes

structure ShardedStore.Consistent {n : Nat} (s : ShardedStore n) : Prop where
  tracked : ∀ i, (s.shards i).Tracked
  sized : ∀ i, (s.shards i).Sized
  within : ∀ i, (s.shards i).Within
  counted : s.Counted

namespace ShardedStore

variable {n : Nat} {s : ShardedStore n} {i : Fin n} {h : Held}

theorem Counted.release (hs : s.Counted) (hstep : Held.Step (s.held i) h) :
    (s.release i h).Counted := by
  have he := hstep.entries
  have hb := hstep.bytes
  have he' := hs.entries
  have hb' := hs.bytes
  simp only [held] at he hb
  constructor
  · show h.metrics.currentEntries = _
    have := sum_update_add s.shards (fun sh => (sh.entries.entries.length : Int)) i h.shard
    simp only [ShardedStore.release]
    omega
  · show h.metrics.memoryBytes = _
    have := sum_update_add s.shards (fun sh => sh.usedBytes) i h.shard
    simp only [ShardedStore.release]
    omega

/-- What holds of the changed shard, and of the others before, holds of all of them after. -/
theorem release_forall {P : Shard → Prop} (hs : ∀ j, P (s.shards j)) (hi : P h.shard) (j : Fin n) :
    P ((s.release i h).shards j) := by
  show P (Function.update s.shards i h.shard j)
  by_cases hj : j = i
  · subst hj
    rw [Function.update_self]
    exact hi
  · rw [Function.update_of_ne hj]
    exact hs j

theorem Consistent.release (hs : s.Consistent) (hk : Held.Keeps (s.held i) h) :
    (s.release i h).Consistent :=
  ⟨release_forall hs.tracked (hk.tracked (hs.tracked i)),
    release_forall hs.sized (hk.sized (hs.sized i)),
    release_forall hs.within (hk.within (hs.tracked i) (hs.sized i) (hs.within i)),
    hs.counted.release hk.toStep⟩

theorem Consistent.run [NeZero n] (hs : s.Consistent) (ops : List (StoreOp n)) :
    (s.run ops).Consistent := by
  induction ops generalizing s with
  | nil => exact hs
  | cons op ops ih => exact ih (hs.release (op.keeps _))

theorem step_shards [NeZero n] (s : ShardedStore n) (op : StoreOp n) (i : Fin n) :
    (s.step op).shards i =
      if i = op.shard then (op.onHeld (s.held op.shard)).shard else s.shards i := by
  show Function.update s.shards op.shard _ i = _
  rw [Function.update_apply]

/-- What holds of every entry in its shard, and of all that the operations may write, holds after
them. -/
theorem run_entries_forall [NeZero n] {P : Fin n → Bytes → Bytes → Prop} {ops : List (StoreOp n)}
    (hops : ∀ op ∈ ops, ∀ key ent, op.Writes key ent → P op.shard key ent.value)
    (hP : ∀ i, ∀ e ∈ (s.shards i).entries.entries, P i e.1 e.2.value) (i : Fin n) :
    ∀ e ∈ ((s.run ops).shards i).entries.entries, P i e.1 e.2.value := by
  induction ops generalizing s with
  | nil => exact hP i
  | cons op ops ih =>
    refine ih (fun op' hop => hops op' (List.mem_cons_of_mem _ hop)) fun j => ?_
    rw [step_shards]
    split
    case isTrue hj =>
      subst hj
      exact (op.acts _).entries_forall (hops op List.mem_cons_self) (hP op.shard)
    case isFalse => exact hP j

theorem run_maxBytes [NeZero n] (s : ShardedStore n) (ops : List (StoreOp n)) (i : Fin n) :
    ((s.run ops).shards i).maxBytes = (s.shards i).maxBytes := by
  induction ops generalizing s with
  | nil => rfl
  | cons op ops ih =>
    refine (ih (s.step op)).trans ?_
    rw [step_shards]
    split
    case isTrue hi =>
      rw [hi]
      exact (op.keeps (s.held op.shard)).budget
    case isFalse => rfl

end ShardedStore

theorem newShard_tracked (maxBytes : Int) : (newShard maxBytes).Tracked :=
  ⟨Lru.valid_empty, .refl _, rfl⟩

theorem newStore_consistent (numShards maxMemoryBytes : Int) :
    (newStore numShards maxMemoryBytes).Consistent := by
  have hbudget : 0 ≤ perShardBytes numShards maxMemoryBytes := by
    unfold perShardBytes
    omega
  refine ⟨fun _ => newShard_tracked _, fun _ e he => (nomatch he), fun _ => ⟨hbudget, hbudget⟩, ?_⟩
  constructor <;> simp [newStore, newShard]

/-- After any operations on a new store, at any clock readings: the recency list of each shard has
exactly the keys of its entries, each once; the bytes of a shard are the sizes of its entries and
stay within its budget; the shared counters are the totals over the shards; and the eviction loop
that the write of any entry starts comes to its end. -/
theorem run_bookkeeping (numShards maxMemoryBytes : Int)
    (ops : List (StoreOp (shardCount numShards))) :
    let s := (newStore numShards maxMemoryBytes).run ops
    (∀ i, let shard := s.shards i
      shard.lru.keys.Nodup ∧ (∀ key, key ∈ shard.lru.keys ↔ key ∈ shard.entries) ∧
      shard.usedBytes = (shard.entries.entries.map fun e => e.2.sizeBytes).sum ∧
      (∀ e ∈ shard.entries.entries, e.2.sizeBytes = approxSize e.1 e.2.value) ∧
      shard.usedBytes ≤ shard.maxBytes) ∧
    s.metrics.currentEntries = ∑ i, ((s.shards i).entries.entries.length : Int) ∧
    s.metrics.memoryBytes = ∑ i, (s.shards i).usedBytes ∧
    ∀ i, (∃ rounds h, Held.evictLoop rounds (s.held i) = some h) ∧
      ∀ key ent, ∃ rounds h, Held.evictLoop rounds ((s.held i).putEntry key ent) = some h := by
  intro s
  have hs : s.Consistent := (newStore_consistent numShards maxMemoryBytes).run ops
  have hloop : ∀ h : Held, h.shard.Tracked → ∃ rounds h', Held.evictLoop rounds h = some h' := by
    intro h ht
    exact ⟨_, Option.isSome_iff_exists.mp (Held.evictLoop_isSome ht)⟩
  refine ⟨fun i => ⟨(hs.tracked i).lru.nodup, fun key => ?_, (hs.tracked i).used, hs.sized i,
    (hs.within i).used⟩, hs.counted.entries, hs.counted.bytes, fun i =>
      ⟨hloop _ (hs.tracked i), fun key ent => hloop _ (Held.tracked_putEntry (hs.tracked i) key ent)⟩⟩
  rw [(hs.tracked i).keys.mem_iff, AList.mem_keys]

end SqlOptimizer.Cache

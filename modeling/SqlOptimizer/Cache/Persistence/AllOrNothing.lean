import SqlOptimizer.Cache.Persistence.RoundTrip

/-! What a load that fails has done to the store. -/

namespace SqlOptimizer.Cache

/-- The entries of a file from entry `i` on, up to the first that cannot be read, and the error of
that one. -/
def decodeEntries (i : Nat) : Nat → Bytes → List (Bytes × CacheEntry) × Option String
  | 0, _ => ([], none)
  | count + 1, r =>
    match readEntry i r with
    | .error e => ([], some e)
    | .ok (entry, r) =>
      (entry :: (decodeEntries (i + 1) count r).1, (decodeEntries (i + 1) count r).2)

/-- Every entry that the file counts can be read, or none that can be read before the first that
cannot is live when its turn comes. -/
def RestoresAllOrNothing (checksum : Bytes → UInt32) (clock : Nat → Time) (data : Bytes) : Prop :=
  ∀ count r, readHeader checksum data = .ok (count, r) →
    (decodeEntries 0 count r).2 = none ∨
      ∀ k e, (decodeEntries 0 count r).1[k]? = some e → isExpired e.2 (clock k) = true

variable {n : Nat} [NeZero n] {s : ShardedStore n}

/-- The restoring of entries as they were read, from entry `i` on. -/
def restoreRead (clock : Nat → Time) (s : ShardedStore n) (i : Nat) :
    List (Bytes × CacheEntry) → ShardedStore n
  | [] => s
  | e :: es => restoreRead clock (s.restoreEntry e.1 e.2 (clock i)) (i + 1) es

theorem loadEntries_eq (clock : Nat → Time) (s : ShardedStore n) (i count : Nat) (r : Bytes) :
    loadEntries clock s i count r =
      ((decodeEntries i count r).2, restoreRead clock s i (decodeEntries i count r).1) := by
  induction count generalizing s i r with
  | zero => rfl
  | succ count ih =>
    rw [loadEntries, decodeEntries]
    cases readEntry i r with
    | error e => rfl
    | ok x => exact ih _ _ _

/-- An entry that is restored is counted. -/
theorem currentEntries_restoreEntry (key : Bytes) (ent : CacheEntry) (now : Time) :
    (s.restoreEntry key ent now).metrics.currentEntries =
      s.metrics.currentEntries + if isExpired ent now then 0 else 1 := by
  show ((s.held (shardFor n key)).restoreEntry key ent now).metrics.currentEntries = _
  rw [Held.restoreEntry]
  split
  · exact (add_zero _).symm
  · rfl

theorem currentEntries_restoreRead (clock : Nat → Time) (i : Nat)
    (es : List (Bytes × CacheEntry)) :
    s.metrics.currentEntries ≤ (restoreRead clock s i es).metrics.currentEntries := by
  induction es generalizing s i with
  | nil => exact le_refl _
  | cons e es ih =>
    have hrest := ih (s := s.restoreEntry e.1 e.2 (clock i)) (i + 1)
    rw [currentEntries_restoreEntry] at hrest
    rw [restoreRead]
    split at hrest <;> omega

/-- The restoring changes nothing exactly when every entry has expired at its turn: an entry that
has not is counted, and the count never goes back. -/
theorem restoreRead_eq_self (clock : Nat → Time) (i : Nat) (es : List (Bytes × CacheEntry)) :
    restoreRead clock s i es = s ↔
      ∀ k e, es[k]? = some e → isExpired e.2 (clock (i + k)) = true := by
  induction es generalizing i with
  | nil => exact iff_of_true rfl fun k e he => by simp at he
  | cons x es ih =>
    have hsplit : (∀ k e, (x :: es)[k]? = some e → isExpired e.2 (clock (i + k)) = true) ↔
        isExpired x.2 (clock i) = true ∧
          ∀ k e, es[k]? = some e → isExpired e.2 (clock (i + 1 + k)) = true := by
      constructor
      · intro h
        refine ⟨h 0 x rfl, fun k e he => ?_⟩
        rw [show i + 1 + k = i + (k + 1) by omega]
        exact h (k + 1) e he
      · rintro ⟨hx, h⟩ k e he
        cases k with
        | zero =>
          cases he
          exact hx
        | succ k =>
          rw [show i + (k + 1) = i + 1 + k by omega]
          exact h k e he
    rw [hsplit, restoreRead]
    by_cases hx : isExpired x.2 (clock i) = true
    · rw [restoreEntry_of_expired hx, ih]
      exact (and_iff_right hx).symm
    · have hcount := currentEntries_restoreRead (s := s.restoreEntry x.1 x.2 (clock i)) clock (i + 1) es
      rw [currentEntries_restoreEntry, if_neg hx] at hcount
      refine iff_of_false (fun heq => ?_) fun h => hx h.1
      rw [heq] at hcount
      omega

/-- A load that fails leaves the store as it was exactly when the contents of the file restore all
or nothing. -/
theorem loadSnapshot_unchanged_iff (checksum : Bytes → UInt32) (clock : Nat → Time)
    (s : ShardedStore n) (file : FileRead) :
    ((loadSnapshot checksum clock s file).1 ≠ none → (loadSnapshot checksum clock s file).2 = s) ↔
      ∀ data, file = .contents data → RestoresAllOrNothing checksum clock data := by
  cases file with
  | missing | failed => exact iff_of_true (fun _ => rfl) fun _ h => (by cases h)
  | contents data =>
    have hfile : (∀ data', FileRead.contents data = .contents data' →
        RestoresAllOrNothing checksum clock data') ↔ RestoresAllOrNothing checksum clock data :=
      ⟨fun h => h data rfl, fun h data' heq => by cases heq; exact h⟩
    rw [hfile, loadSnapshot, RestoresAllOrNothing]
    cases hheader : readHeader checksum data with
    | error e => exact iff_of_true (fun _ => rfl) fun _ _ h => (by cases h)
    | ok header =>
      obtain ⟨count, r⟩ := header
      have hrestored := restoreRead_eq_self (s := s) clock 0 (decodeEntries 0 count r).1
      simp only [Nat.zero_add] at hrestored
      simp only [loadEntries_eq, hrestored, ne_eq, ← or_iff_not_imp_left, Except.ok.injEq,
        Prod.mk.injEq]
      constructor
      · rintro h _ _ ⟨rfl, rfl⟩
        exact h
      · exact fun h => h count r ⟨rfl, rfl⟩

/-- A file that counts two entries and has one, under its checksum. -/
def shortFile : Bytes :=
  let payload := magic ++ bigEndian 4 formatVersion ++ bigEndian 8 2 ++
    writeEntry (ascii "k", { value := ascii "v", sizeBytes := 0 })
  payload ++ bigEndian 4 (crc32ChecksumIEEE payload).toNat

/-- The load fails at the second entry, and the first one stays in the store. -/
theorem loadSnapshot_shortFile :
    let loaded := loadSnapshot crc32ChecksumIEEE (fun _ => 0) (newStore 1 1000)
      (.contents shortFile)
    ¬ (loaded.1 ≠ none → loaded.2 = newStore 1 1000) ∧
      (loaded.2.shards 0).entries.lookup (ascii "k") = some { value := ascii "v", sizeBytes := 0 } := by
  intro loaded
  have hfails : loaded.1 ≠ none := by decide +kernel
  have hcount : loaded.2.metrics.currentEntries = 1 := by decide +kernel
  refine ⟨fun h => ?_, by decide +kernel⟩
  rw [h hfails] at hcount
  exact absurd hcount (by decide)

theorem loadSnapshot_unchanged_iff_shortFile :
    ((loadSnapshot crc32ChecksumIEEE (fun _ => 0) (newStore 1 1000) (.contents shortFile)).1 ≠ none →
      (loadSnapshot crc32ChecksumIEEE (fun _ => 0) (newStore 1 1000) (.contents shortFile)).2 =
        newStore 1 1000) ↔
      ∀ data, FileRead.contents shortFile = .contents data →
        RestoresAllOrNothing crc32ChecksumIEEE (fun _ => 0) data :=
  loadSnapshot_unchanged_iff crc32ChecksumIEEE (fun _ => 0) (newStore 1 1000) (.contents shortFile)

end SqlOptimizer.Cache

import SqlOptimizer.Execution.Run

/-! When `HashJoinExec` and `NestedLoopJoinExec` return the same rows.  The first matches two rows
when their keys print alike, the second when `literal_equal` holds of them. -/

namespace SqlOptimizer

/-! ### Two notions of equal keys -/

/-- The pairs of keys on which the printed form decides as `literal_equal` does: not two NULLs, no
number stored as an integer on one side and as the same double on the other, no two integers or
doubles that only one of the two tells apart, and no string that spells a value of another kind. -/
def keysAgree : Literal → Literal → Prop
  | .null, .null => False
  | .integer i, .integer j =>
    i = j ∨ Binary64.eq (Binary64.ofInt i.toInt) (Binary64.ofInt j.toInt) = false
  | .floating x, .floating y =>
    Binary64.fixedText x = Binary64.fixedText y ↔ Binary64.eq x y = true
  | .integer i, .floating y => Binary64.eq (Binary64.ofInt i.toInt) y = false
  | .floating x, .integer j => Binary64.eq x (Binary64.ofInt j.toInt) = false
  | .str _, .str _ => True
  | .str s, b => s ≠ literalToString b
  | a, .str t => literalToString a ≠ t
  | _, _ => True

theorem ofList_ne_of_mem {cs : List Char} {s : String} {c : Char} (hc : c ∈ s.toList)
    (hn : c ∉ cs) : String.ofList cs ≠ s := by
  rintro rfl
  simp at hc
  exact hn hc

theorem intText_ne {s : String} {c : Char} (hc : c ∈ s.toList) (hd : c ≠ '-' ∧ c.isDigit = false)
    (i : Int) : String.ofList (Binary64.intText i) ≠ s :=
  ofList_ne_of_mem hc fun h => by
    rcases Binary64.mem_intText h with h | h
    · exact hd.1 h
    · simp [hd.2] at h

theorem fixedText_ne {s : String} {c : Char} (hc : c ∈ s.toList)
    (hd : c.isDigit = false ∧ c ∉ ['-', '.', 'n', 'a', 'i', 'f']) (x : Binary64) :
    String.ofList (Binary64.fixedText x) ≠ s :=
  ofList_ne_of_mem hc fun h => by
    rcases Binary64.mem_fixedText h with h | h
    · simp [hd.1] at h
    · exact hd.2 h

theorem literalToString_integer_inj {i j : Int64} :
    literalToString (.integer i) = literalToString (.integer j) ↔ i = j := by
  constructor
  · intro h
    exact Int64.toInt_inj.mp (Binary64.intText_injective (String.ofList_injective h))
  · rintro rfl
    rfl

/-- `keysAgree` is the agreement of the two notions. -/
theorem keysAgree_iff (a b : Literal) :
    keysAgree a b ↔ (literalToString a = literalToString b ↔ literalEqual a b = true) := by
  -- a number never prints like a word of another kind
  have hIntTrue := intText_ne (s := "true") (c := 't') (by decide) (by decide)
  have hIntFalse := intText_ne (s := "false") (c := 'l') (by decide) (by decide)
  have hIntNull := intText_ne (s := "<null>") (c := 'l') (by decide) (by decide)
  have hFloatTrue := fixedText_ne (s := "true") (c := 't') (by decide) (by decide)
  have hFloatFalse := fixedText_ne (s := "false") (c := 'l') (by decide) (by decide)
  have hFloatNull := fixedText_ne (s := "<null>") (c := 'l') (by decide) (by decide)
  have hFloatInt : ∀ x i, String.ofList (Binary64.fixedText x) ≠
      String.ofList (Binary64.intText i) :=
    fun x i h => Binary64.fixedText_ne_intText x i (String.ofList_injective h)
  cases a with
  | integer i =>
    cases b with
    | integer j =>
      rw [literalToString_integer_inj]
      by_cases hij : i = j
      · simp [keysAgree, literalEqual, literalIsNull, numeric?, hij, Binary64.eq_ofInt_self]
      · simp [keysAgree, literalEqual, literalIsNull, numeric?, hij]
    | floating y =>
      simp [keysAgree, literalEqual, literalIsNull, numeric?, literalToString,
        (hFloatInt _ _).symm]
    | str t => simp [keysAgree, literalEqual, literalIsNull, numeric?]
    | boolean q =>
      cases q <;> simp [keysAgree, literalEqual, literalIsNull, numeric?, literalToString, hIntTrue,
        hIntFalse]
    | null => simp [keysAgree, literalToString, hIntNull]
  | floating x =>
    cases b with
    | integer j =>
      simp [keysAgree, literalEqual, literalIsNull, numeric?, literalToString, hFloatInt]
    | floating y =>
      simp [keysAgree, literalEqual, literalIsNull, numeric?, literalToString, String.ofList_inj]
    | str t => simp [keysAgree, literalEqual, literalIsNull, numeric?]
    | boolean q =>
      cases q <;> simp [keysAgree, literalEqual, literalIsNull, numeric?, literalToString,
        hFloatTrue, hFloatFalse]
    | null => simp [keysAgree, literalToString, hFloatNull]
  | str s =>
    cases b <;> simp [keysAgree, literalEqual, literalIsNull, numeric?, literalToString]
  | boolean p =>
    cases b with
    | integer j =>
      cases p <;> simp [keysAgree, literalEqual, literalIsNull, numeric?, literalToString,
        (hIntTrue _).symm, (hIntFalse _).symm]
    | floating y =>
      cases p <;> simp [keysAgree, literalEqual, literalIsNull, numeric?, literalToString,
        (hFloatTrue _).symm, (hFloatFalse _).symm]
    | str t => simp [keysAgree, literalEqual, literalIsNull, numeric?]
    | boolean q => cases p <;> cases q <;> simp [keysAgree, literalToString, literalEqual,
        literalIsNull, numeric?]
    | null => cases p <;> simp [keysAgree, literalToString]
  | null =>
    cases b with
    | integer j => simp [keysAgree, literalToString, (hIntNull _).symm]
    | floating y => simp [keysAgree, literalToString, (hFloatNull _).symm]
    | str t => simp [keysAgree]
    | boolean q => cases q <;> simp [keysAgree, literalToString]
    | null => simp [keysAgree]

instance : DecidableRel keysAgree := fun a b => decidable_of_iff _ (keysAgree_iff a b).symm

/-! ### Keys in the joined row -/

theorem isColumnOf_iff {e : Expression} {s : RowSchema} :
    isColumnOf e s = true ↔ ∃ t c i, e = .column t c ∧ s.resolve t c = some i := by
  cases e <;> simp [isColumnOf, Option.isSome_iff_exists]

theorem hashJoinKeys_eq_ok {condition lk rk : Expression} {ls rs : RowSchema}
    (h : hashJoinKeys condition ls rs = .ok (lk, rk)) :
    isColumnOf lk ls = true ∧ isColumnOf rk rs = true ∧
      (condition = .binaryOp lk .eq rk ∨ condition = .binaryOp rk .eq lk) := by
  unfold hashJoinKeys at h
  split at h
  case h_2 => cases h
  case h_1 a b =>
    split at h
    case isTrue hab =>
      cases h
      exact ⟨(Bool.and_eq_true_iff.mp hab).1, (Bool.and_eq_true_iff.mp hab).2, .inl rfl⟩
    case isFalse =>
      split at h
      case isTrue hba =>
        cases h
        exact ⟨(Bool.and_eq_true_iff.mp hba).2, (Bool.and_eq_true_iff.mp hba).1, .inr rfl⟩
      case isFalse => cases h

section

variable [Rounding]

/-- The value of a key in a row. -/
def keyOf (key : Expression) (row : Row) (schema : RowSchema) : Literal :=
  match evaluate key row schema with
  | .ok v => v
  | .error _ => .null

theorem evaluate_eq_ok_keyOf {key : Expression} {s : RowSchema} (h : isColumnOf key s = true)
    {row : Row} (hw : row.length = s.size) : evaluate key row s = .ok (keyOf key row s) := by
  obtain ⟨t, c, i, rfl, hi⟩ := isColumnOf_iff.mp h
  obtain ⟨v, hv⟩ := evaluate_column_eq_ok hi hw
  simp [keyOf, hv]

/-- A column of the left side has its left value in a joined row. -/
theorem evaluate_extend_left {key : Expression} {ls rs : RowSchema} {l r : Row} {v : Literal}
    (hk : isColumnOf key ls = true) (hw : l.length = ls.size)
    (hv : evaluate key (l ++ r) (ls.extend rs) = .ok v) : v = keyOf key l ls := by
  obtain ⟨t, c, i, rfl, hi⟩ := isColumnOf_iff.mp hk
  have hlt : i < l.length := hw ▸ RowSchema.resolve_lt hi
  have hext : (ls.extend rs).resolve t c = some i := by
    cases t with
    | some t => rw [RowSchema.resolve_extend_some, hi, Option.some_or]
    | none =>
      cases he : (ls.extend rs).resolve none c with
      | none => simp [evaluate, he] at hv
      | some j =>
        rcases RowSchema.resolve_extend_none he with ⟨hj, -⟩ | ⟨_, hn, -, -⟩
        · rw [← hi, hj]
        · simp [hi] at hn
  rw [evaluate_column hext, rowAt_append_left hlt, ← evaluate_column hi] at hv
  simp [keyOf, hv]

/-- A column of the right side that the left side does not have has its right value. -/
theorem evaluate_extend_right {key : Expression} {ls rs : RowSchema} {l r : Row} {v : Literal}
    (hk : isColumnOf key rs = true) (hn : isColumnOf key ls = false) (hw : l.length = ls.size)
    (hv : evaluate key (l ++ r) (ls.extend rs) = .ok v) : v = keyOf key r rs := by
  obtain ⟨t, c, j, rfl, hj⟩ := isColumnOf_iff.mp hk
  have hl : ls.resolve t c = none := by simpa [isColumnOf] using hn
  have hext : (ls.extend rs).resolve t c = some (j + ls.size) := by
    cases t with
    | some t => rw [RowSchema.resolve_extend_some, hl, hj, Option.none_or, Option.map_some]
    | none =>
      cases he : (ls.extend rs).resolve none c with
      | none => simp [evaluate, he] at hv
      | some k =>
        rcases RowSchema.resolve_extend_none he with ⟨hk, -⟩ | ⟨j', -, hj', rfl⟩
        · simp [hl] at hk
        · rw [Option.some.inj (hj.symm.trans hj')]
  rw [evaluate_column hext, ← hw, rowAt_append_right, ← evaluate_column hj] at hv
  simp [keyOf, hv]

theorem passes_eq_eq_ok {a b : Expression} {row : Row} {s : RowSchema} {v : Bool}
    (h : passes (.binaryOp a .eq b) row s = .ok v) :
    ∃ va vb, evaluate a row s = .ok va ∧ evaluate b row s = .ok vb ∧ v = literalEqual va vb := by
  simp only [passes, evaluate, Except.bind_eq_ok] at h
  obtain ⟨_, ⟨va, ha, vb, hb, hv⟩, h⟩ := h
  cases hv
  cases h
  exact ⟨va, vb, ha, hb, rfl⟩

/-! ### The agreement -/

/-- The keys of a pair of rows agree.  A right key that the left side also has is read from the
left row by the nested loop join. -/
def joinKeysAgree (leftKey rightKey : Expression) (ls rs : RowSchema) (l r : Row) : Prop :=
  if isColumnOf rightKey ls then
    (literalToString (keyOf leftKey l ls) = literalToString (keyOf rightKey r rs) ↔
      literalEqual (keyOf leftKey l ls) (keyOf rightKey l ls) = true)
  else keysAgree (keyOf leftKey l ls) (keyOf rightKey r rs)

instance (leftKey rightKey : Expression) (ls rs : RowSchema) (l r : Row) :
    Decidable (joinKeysAgree leftKey rightKey ls rs l r) := by
  unfold joinKeysAgree
  infer_instance

/-- One pair of rows: the two operators decide alike exactly when the keys agree. -/
theorem keys_match_iff {condition lk rk : Expression} {ls rs : RowSchema} {l r : Row} {v : Bool}
    (hkeys : hashJoinKeys condition ls rs = .ok (lk, rk)) (hl : l.length = ls.size)
    (hv : passes condition (l ++ r) (ls.extend rs) = .ok v) :
    (literalToString (keyOf rk r rs) == literalToString (keyOf lk l ls)) =
        holds condition (l ++ r) (ls.extend rs) ↔ joinKeysAgree lk rk ls rs l r := by
  obtain ⟨hlk, hrk, hcond⟩ := hashJoinKeys_eq_ok hkeys
  have hright : ∀ w, evaluate rk (l ++ r) (ls.extend rs) = .ok w →
      w = if isColumnOf rk ls then keyOf rk l ls else keyOf rk r rs := by
    intro w hw
    split
    case isTrue h => exact evaluate_extend_left h hl hw
    case isFalse h => exact evaluate_extend_right hrk (by simpa using h) hl hw
  have heq : v = literalEqual (keyOf lk l ls)
      (if isColumnOf rk ls then keyOf rk l ls else keyOf rk r rs) := by
    rcases hcond with rfl | rfl
    · obtain ⟨va, vb, ha, hb, rfl⟩ := passes_eq_eq_ok hv
      rw [evaluate_extend_left hlk hl ha, hright _ hb]
    · obtain ⟨vb, va, hb, ha, rfl⟩ := passes_eq_eq_ok hv
      rw [evaluate_extend_left hlk hl ha, hright _ hb, literalEqual_symm]
  have hholds : holds condition (l ++ r) (ls.extend rs) = v := by simp [holds, hv]
  rw [hholds, heq, joinKeysAgree, Bool.eq_iff_iff, beq_iff_eq, eq_comm]
  split
  · rfl
  · exact (keysAgree_iff _ _).symm

/-- On inputs whose condition evaluates without an error the hash join and the nested loop join
return the same bag of rows exactly when the keys of every pair of rows agree. -/
theorem hashJoin_perm_nestedLoopJoin_iff {condition leftKey rightKey : Expression}
    {left right : Executor} {l r : List Row}
    (hkeys : hashJoinKeys condition left.schema right.schema = .ok (leftKey, rightKey))
    (hl : left.run = .ok l) (hr : right.run = .ok r)
    (hlw : ∀ a ∈ l, a.length = left.schema.size) (hrw : ∀ b ∈ r, b.length = right.schema.size)
    (hcond : ∀ a ∈ l, ∀ b ∈ r,
      ∃ v, passes condition (a ++ b) (left.schema.extend right.schema) = .ok v) :
    ∃ hashed looped, (Executor.hashJoin condition leftKey rightKey left right).run = .ok hashed ∧
      (Executor.nestedLoopJoin condition left right).run = .ok looped ∧
      (hashed.Perm looped ↔
        ∀ a ∈ l, ∀ b ∈ r, joinKeysAgree leftKey rightKey left.schema right.schema a b) := by
  obtain ⟨hlk, hrk, -⟩ := hashJoinKeys_eq_ok hkeys
  refine ⟨_, _, Executor.run_hashJoin hl hr (fun a ha => evaluate_eq_ok_keyOf hlk (hlw a ha))
    (fun b hb => evaluate_eq_ok_keyOf hrk (hrw b hb)), Executor.run_nestedLoopJoin hl hr hcond, ?_⟩
  rw [Pairs.joinBy_perm_iff (Pairs.separates_append hlw)]
  refine forall₂_congr fun a ha => forall₂_congr fun b hb => ?_
  obtain ⟨v, hv⟩ := hcond a ha b hb
  exact keys_match_iff hkeys (hlw a ha) hv

end

/-- A side with the one column `table.k`. -/
def keyedSide (table : String) (keys : List Literal) : Executor :=
  .externalRows table (scanSchema table ["k"]) (keys.map fun k => [k])

def keyedCondition : Expression :=
  .binaryOp (.column (some "a") "k") .eq (.column (some "b") "k")

theorem hashJoin_perm_nestedLoopJoin_of_plain_keys :
    ∃ hashed looped,
      @Executor.run .exact (.hashJoin keyedCondition (.column (some "a") "k")
        (.column (some "b") "k") (keyedSide "a" [.integer 1, .str "x"])
        (keyedSide "b" [.null, .str "x", .integer 1])) = .ok hashed ∧
      @Executor.run .exact (.nestedLoopJoin keyedCondition (keyedSide "a" [.integer 1, .str "x"])
        (keyedSide "b" [.null, .str "x", .integer 1])) = .ok looped ∧
      hashed.Perm looped := by
  have hrows : ∀ (t : String) (keys : List Literal),
      @Executor.run .exact (keyedSide t keys) = .ok (keys.map fun k => [k]) := fun _ _ => rfl
  obtain ⟨hashed, looped, h1, h2, h3⟩ := @hashJoin_perm_nestedLoopJoin_iff .exact keyedCondition
    (.column (some "a") "k") (.column (some "b") "k") (keyedSide "a" [.integer 1, .str "x"])
    (keyedSide "b" [.null, .str "x", .integer 1]) _ _ rfl (hrows _ _) (hrows _ _) (by decide)
    (by decide) (fun a ha b hb => by
      obtain ⟨_, -, rfl⟩ := List.mem_map.mp ha
      obtain ⟨_, -, rfl⟩ := List.mem_map.mp hb
      exact ⟨_, rfl⟩)
  exact ⟨hashed, looped, h1, h2, h3.mpr (by decide)⟩

/-- Two NULL keys: the hash join pairs their rows, since both print as `<null>`. -/
theorem hashJoin_not_perm_nestedLoopJoin_null :
    hashJoinKeys keyedCondition (keyedSide "a" [.null]).schema (keyedSide "b" [.null]).schema =
        .ok (.column (some "a") "k", .column (some "b") "k") ∧
      @passes .exact keyedCondition [.null, .null]
        ((keyedSide "a" [.null]).schema.extend (keyedSide "b" [.null]).schema) = .ok false ∧
      @Executor.run .exact (.hashJoin keyedCondition (.column (some "a") "k")
        (.column (some "b") "k") (keyedSide "a" [.null]) (keyedSide "b" [.null])) =
          .ok [[.null, .null]] ∧
      @Executor.run .exact (.nestedLoopJoin keyedCondition (keyedSide "a" [.null])
        (keyedSide "b" [.null])) = .ok [] ∧
      ¬ [[Literal.null, .null]].Perm [] :=
  ⟨rfl, rfl, rfl, rfl, by decide⟩

end SqlOptimizer

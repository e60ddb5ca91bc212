import SqlOptimizer.Execution.ValueOps

/-! `execution/row_schema.cpp`: which index of a row a column reference names. -/

namespace SqlOptimizer

def literalEqualStructural : Literal → Literal → Bool
  | .integer i, .integer j => i == j
  | .floating x, .floating y => Binary64.eq x y
  | .str s, .str t => s == t
  | .boolean p, .boolean q => p == q
  | .null, .null => true
  | _, _ => false

mutual
/-- Whether two expression trees are the same, for matching an aggregate that HAVING or ORDER BY
mentions again. -/
def exprEqualStructural : Expression → Expression → Bool
  | .column t c, .column t' c' => t == t' && c == c'
  | .literal a, .literal b => literalEqualStructural a b
  | .binaryOp l op r, .binaryOp l' op' r' =>
    op == op' && exprEqualStructural l l' && exprEqualStructural r r'
  | .unaryOp op e, .unaryOp op' e' => op == op' && exprEqualStructural e e'
  | .function f args, .function f' args' => f == f' && exprEqualStructuralList args args'
  | .wildcard, .wildcard => true
  | _, _ => false
def exprEqualStructuralList : List Expression → List Expression → Bool
  | [], [] => true
  | e :: es, e' :: es' => exprEqualStructural e e' && exprEqualStructuralList es es'
  | _, _ => false
end

structure Entry where
  table : Option String
  column : String
  deriving DecidableEq

/-- `table.column`, or the bare column for an entry without a table. -/
def Entry.qualifiedName (e : Entry) : String :=
  match e.table with
  | some t => t ++ "." ++ e.column
  | none => e.column

/-- An aggregate whose value is already in the row, at index `idx`. -/
structure AggEntry where
  func : String
  arg : Expression
  idx : Nat

structure RowSchema where
  entries : List Entry
  aggEntries : List AggEntry

namespace RowSchema

def empty : RowSchema := ⟨[], []⟩

def add (s : RowSchema) (table : Option String) (column : String) : RowSchema :=
  { s with entries := s.entries ++ [⟨table, column⟩] }

def resolveAggregate (s : RowSchema) (func : String) (arg : Expression) : Option Nat :=
  (s.aggEntries.find? fun e => e.func == toUpper func && exprEqualStructural e.arg arg).map (·.idx)

/-- The entries of `other` after those of `s`. -/
def extend (s other : RowSchema) : RowSchema :=
  ⟨s.entries ++ other.entries, s.aggEntries ++ other.aggEntries⟩

/-- The search for an unqualified column from index `i` on: a second match is ambiguous. -/
def resolveBare (column : String) : List Entry → Nat → Option Nat → Option Nat
  | [], _, found => found
  | e :: es, i, found =>
    if e.column = column then
      match found with
      | some _ => none
      | none => resolveBare column es (i + 1) (some i)
    else resolveBare column es (i + 1) found

def resolve (s : RowSchema) (table : Option String) (column : String) : Option Nat :=
  match table with
  | some t => s.entries.findIdx? fun e => e.column == column && e.table.getD "" == t
  | none => resolveBare column s.entries 0 none

def size (s : RowSchema) : Nat := s.entries.length

def qualifiedNames (s : RowSchema) : List String := s.entries.map Entry.qualifiedName

theorem resolve_some (s : RowSchema) (t c : String) :
    s.resolve (some t) c = s.entries.findIdx? fun e => e.column == c && e.table.getD "" == t := rfl

theorem resolveBare_found (c : String) (es : List Entry) (i j : Nat) :
    resolveBare c es i (some j) = if es.countP (·.column == c) = 0 then some j else none := by
  induction es generalizing i with
  | nil => rfl
  | cons e es ih => by_cases h : e.column = c <;> simp [resolveBare, h, ih]

theorem resolveBare_start (c : String) (es : List Entry) (i : Nat) :
    resolveBare c es i none = if es.countP (·.column == c) = 1
      then (es.findIdx? (·.column == c)).map (· + i) else none := by
  induction es generalizing i with
  | nil => rfl
  | cons e es ih =>
    by_cases h : e.column = c
    · simp [resolveBare, h, resolveBare_found, List.findIdx?_cons]
    · simp only [resolveBare, h, if_false, ih, List.findIdx?_cons, beq_iff_eq,
        List.countP_cons_of_neg, not_false_eq_true]
      congr 1
      rw [Option.map_map]
      congr 1
      funext k
      simp only [Function.comp]
      omega

/-- An unqualified column resolves when exactly one entry has its name. -/
theorem resolve_none (s : RowSchema) (c : String) :
    s.resolve none c = if s.entries.countP (·.column == c) = 1
      then s.entries.findIdx? (·.column == c) else none := by
  rw [resolve, resolveBare_start]
  simp

theorem resolve_lt {s : RowSchema} {t : Option String} {c : String} {i : Nat}
    (h : s.resolve t c = some i) : i < s.size := by
  cases t with
  | some t => exact (List.findIdx?_eq_some_iff_getElem.mp h).1
  | none =>
    rw [resolve_none] at h
    split at h
    · exact (List.findIdx?_eq_some_iff_getElem.mp h).1
    · cases h

@[simp] theorem extend_size (s o : RowSchema) : (s.extend o).size = s.size + o.size := by
  simp [size, extend]

/-- A qualified column resolves in a join to its first match, on the left if there is one. -/
theorem resolve_extend_some (s o : RowSchema) (t c : String) :
    (s.extend o).resolve (some t) c =
      (s.resolve (some t) c).or ((o.resolve (some t) c).map (· + s.size)) := by
  simp [resolve_some, extend, List.findIdx?_append, size]

/-- An unqualified column resolves in a join when it resolves on one side and the other has no
column of that name. -/
theorem resolve_extend_none {s o : RowSchema} {c : String} {i : Nat}
    (h : (s.extend o).resolve none c = some i) :
    (s.resolve none c = some i ∧ o.resolve none c = none) ∨
      ∃ j, s.resolve none c = none ∧ o.resolve none c = some j ∧ i = j + s.size := by
  rw [resolve_none] at h
  split at h
  case isFalse => cases h
  case isTrue hcount =>
    simp only [extend, List.countP_append, List.findIdx?_append] at h hcount
    rw [resolve_none, resolve_none]
    rcases Nat.add_eq_one_iff.mp hcount with ⟨h0, h1⟩ | ⟨h1, h0⟩
    · have hs : s.entries.findIdx? (·.column == c) = none := by
        rw [List.findIdx?_eq_none_iff]
        intro e he
        have := List.countP_eq_zero.mp h0 e he
        simpa using this
      rw [hs] at h
      simp only [Option.none_or, Option.map_eq_some_iff] at h
      obtain ⟨j, hj, rfl⟩ := h
      exact .inr ⟨j, by simp [h0], by simp [h1, hj], rfl⟩
    · left
      have ho : o.entries.findIdx? (·.column == c) = none := by
        rw [List.findIdx?_eq_none_iff]
        intro e he
        have := List.countP_eq_zero.mp h0 e he
        simpa using this
      rw [ho] at h
      simp only [Option.map_none, Option.or_none] at h
      exact ⟨by simp [h1, h], by simp [h0]⟩

end RowSchema

end SqlOptimizer

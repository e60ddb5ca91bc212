/-! Three-valued logic: a statement is true, false or unknown. -/

/-- A truth value. -/
inductive Truth where
  | ff | unknown | tt
  deriving DecidableEq

namespace Truth

def ofBool (b : Bool) : Truth := if b then .tt else .ff

/-- False as soon as one side is, and true when both are. -/
def and : Truth → Truth → Truth
  | .tt, t => t
  | .ff, _ => .ff
  | .unknown, .ff => .ff
  | .unknown, _ => .unknown

/-- True as soon as one side is, and false when both are. -/
def or : Truth → Truth → Truth
  | .ff, t => t
  | .tt, _ => .tt
  | .unknown, .tt => .tt
  | .unknown, _ => .unknown

/-- Unknown stays unknown. -/
def not : Truth → Truth
  | .tt => .ff
  | .ff => .tt
  | .unknown => .unknown

@[simp] theorem ofBool_eq_tt {b : Bool} : ofBool b = .tt ↔ b = true := by
  cases b <;> decide

@[simp] theorem and_eq_tt {s t : Truth} : s.and t = .tt ↔ s = .tt ∧ t = .tt := by
  cases s <;> cases t <;> decide

@[simp] theorem or_eq_tt {s t : Truth} : s.or t = .tt ↔ s = .tt ∨ t = .tt := by
  cases s <;> cases t <;> decide

end Truth

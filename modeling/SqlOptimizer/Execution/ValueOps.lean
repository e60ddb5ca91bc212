import SqlOptimizer.Parser.Ast

/-! `execution/value_ops.cpp`: comparison, arithmetic and text of values.  A C++ exception is the
error of an `Except String`, with its message. -/

namespace SqlOptimizer

def literalIsNull : Literal → Bool
  | .null => true
  | _ => false

def literalTruthy : Literal → Except String Bool
  | .boolean b => .ok b
  | _ => .error "execution: expected a boolean value"

def literalAsDouble : Literal → Except String Binary64
  | .integer i => .ok (Binary64.ofInt i.toInt)
  | .floating x => .ok x
  | _ => .error "execution: expected a numeric value"

/-- The printed form of a value, also the key of a hash table and of a group. -/
def literalToString : Literal → String
  | .integer i => String.ofList (Binary64.intText i.toInt)
  | .floating x => String.ofList (Binary64.fixedText x)
  | .str s => s
  | .boolean b => if b then "true" else "false"
  | .null => "<null>"

/-- The double of a numeric value. -/
def numeric? : Literal → Option Binary64
  | .integer i => some (Binary64.ofInt i.toInt)
  | .floating x => some x
  | _ => none

/-- NULL equals nothing, numbers are compared as doubles, and values of different kinds are
unequal. -/
def literalEqual (a b : Literal) : Bool :=
  if literalIsNull a || literalIsNull b then false
  else match numeric? a, numeric? b with
    | some x, some y => Binary64.eq x y
    | _, _ => match a, b with
      | .str s, .str t => s == t
      | .boolean p, .boolean q => p == q
      | _, _ => false

def literalLess (a b : Literal) : Except String Bool :=
  if literalIsNull a || literalIsNull b then .ok false
  else match numeric? a, numeric? b with
    | some x, some y => .ok (Binary64.lt x y)
    | _, _ => match a, b with
      | .str s, .str t => .ok (decide (s < t))
      | _, _ => .error "execution: cannot order-compare these value kinds"

section Arithmetic

variable [Rounding]

/-- Two integers combine as 64-bit integers, anything else as doubles. -/
def literalArith (onInt : Int64 → Int64 → Int64) (onDouble : Binary64 → Binary64 → Binary64)
    (a b : Literal) : Except String Literal :=
  match a, b with
  | .integer i, .integer j => .ok (.integer (onInt i j))
  | _, _ => do
    let x ← literalAsDouble a
    let y ← literalAsDouble b
    return .floating (onDouble x y)

def literalAdd : Literal → Literal → Except String Literal := literalArith (· + ·) Binary64.add
def literalSub : Literal → Literal → Except String Literal := literalArith (· - ·) Binary64.sub
def literalMul : Literal → Literal → Except String Literal := literalArith (· * ·) Binary64.mul

/-- Division always produces a double. -/
def literalDiv (a b : Literal) : Except String Literal := do
  let x ← literalAsDouble a
  let y ← literalAsDouble b
  return .floating (Binary64.div x y)

end Arithmetic

@[simp] theorem literalToString_str (s : String) : literalToString (.str s) = s := rfl

@[simp] theorem literalEqual_null_left (b : Literal) : literalEqual .null b = false := rfl

@[simp] theorem literalEqual_null_right (a : Literal) : literalEqual a .null = false := by
  cases a <;> rfl

theorem literalEqual_symm (a b : Literal) : literalEqual a b = literalEqual b a := by
  cases a <;> cases b <;>
    simp [literalEqual, literalIsNull, numeric?, Binary64.eq_symm, Bool.beq_comm]

end SqlOptimizer

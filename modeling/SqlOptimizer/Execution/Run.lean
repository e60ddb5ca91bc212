import SqlOptimizer.Execution.Operators
import SqlOptimizer.Library.Pairs

/-! What each operator returns when its inputs return their rows and no expression fails. -/

namespace SqlOptimizer

namespace Executor

variable [Rounding]

theorem run_eq_ok {e : Executor} {rows : List Row} :
    e.run = .ok rows ↔ e.drain = .ok (.ofList rows) := by
  rw [run, Except.bind_eq_ok]
  constructor
  · rintro ⟨d, hd, hc⟩
    obtain ⟨h1, h2⟩ := Drain.collect_eq_ok.mp hc
    rw [hd, Drain.ofList, ← h1, ← h2]
  · exact fun h => ⟨_, h, rfl⟩

theorem run_filter {p : Expression} {input : Executor} {rows : List Row}
    (hi : input.run = .ok rows) (hp : ∀ row ∈ rows, ∃ b, passes p row input.schema = .ok b) :
    (filter p input).run = .ok (rows.filter fun row => holds p row input.schema) := by
  rw [run_eq_ok] at hi ⊢
  rw [drain, hi, Except.ok_bind, Drain.filter_of_ok fun row h => passes_eq_ok_holds (hp row h)]
  rfl

/-- A `Project` evaluates its expressions row by row, up to the first failure. -/
theorem run_project {expressions : List (Expression × Option String)} {input : Executor}
    {rows : List Row} (hi : input.run = .ok rows) : (project expressions input).run =
      rows.mapM fun row => expressions.mapM fun p => evaluate p.1 row input.schema := by
  rw [run_eq_ok] at hi
  rw [run, drain, hi, Except.ok_bind, Except.pure_eq_ok, Except.ok_bind]
  exact Drain.collect_map_ofList _ rows

theorem run_limit {count : Nat} {input : Executor} {rows : List Row}
    (hi : input.run = .ok rows) : (limit count input).run = .ok (rows.take count) := by
  rw [run_eq_ok] at hi ⊢
  rw [drain, hi, Except.ok_bind, Except.pure_eq_ok, Drain.take, Drain.ofList]
  split
  · rfl
  · rw [List.take_of_length_le (by simp only at *; omega)]
    rfl

/-- The nested loop join keeps the pairs whose condition is true. -/
theorem run_nestedLoopJoin {condition : Expression} {left right : Executor} {l r : List Row}
    (hl : left.run = .ok l) (hr : right.run = .ok r)
    (hc : ∀ a ∈ l, ∀ b ∈ r,
      ∃ v, passes condition (a ++ b) (left.schema.extend right.schema) = .ok v) :
    (nestedLoopJoin condition left right).run = .ok (Pairs.joinBy (· ++ ·)
      (fun a b => holds condition (a ++ b) (left.schema.extend right.schema)) l r) := by
  rw [run_eq_ok] at hl hr ⊢
  rw [drain, hl, hr]
  simp only [Except.ok_bind, Drain.collect_ofList, nestedLoopRows]
  rw [Drain.flatMap_of_ok (g := fun a => r.map (a ++ ·)) (fun _ _ => rfl),
    Drain.filter_of_ok (q := fun row => holds condition row (left.schema.extend right.schema))]
  · simp [Drain.ofList, Pairs.joinBy, List.filter_flatMap, List.filter_map, Function.comp_def]
  · intro row hrow
    simp only [Drain.ofList, List.mem_flatMap, List.mem_map] at hrow
    obtain ⟨a, ha, b, hb, rfl⟩ := hrow
    exact passes_eq_ok_holds (hc a ha b hb)

/-- The hash join keeps the pairs whose keys print alike. -/
theorem run_hashJoin {condition leftKey rightKey : Expression} {left right : Executor}
    {l r : List Row} {kl kr : Row → Literal} (hl : left.run = .ok l) (hr : right.run = .ok r)
    (hkl : ∀ a ∈ l, evaluate leftKey a left.schema = .ok (kl a))
    (hkr : ∀ b ∈ r, evaluate rightKey b right.schema = .ok (kr b)) :
    (hashJoin condition leftKey rightKey left right).run = .ok (Pairs.joinBy (· ++ ·)
      (fun a b => literalToString (kr b) == literalToString (kl a)) l r) := by
  have hbuild : hashBuild rightKey right.schema r =
      .ok (r.map fun b => (literalToString (kr b), b)) :=
    Except.mapM_eq_ok_map fun b hb => by simp [hkr b hb]
  rw [run_eq_ok] at hl hr ⊢
  rw [drain, hl, hr]
  simp only [Except.ok_bind, Drain.collect_ofList, hbuild, hashJoinRows]
  rw [Drain.flatMap_of_ok (g := fun a =>
    (r.filter fun b => literalToString (kr b) == literalToString (kl a)).map (a ++ ·))]
  · rfl
  · intro a ha
    simp [hkl a ha, List.filter_map, Function.comp_def]

end Executor

end SqlOptimizer

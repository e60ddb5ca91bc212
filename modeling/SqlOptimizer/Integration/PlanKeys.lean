import SqlOptimizer.Integration.PlanSerializer
import SqlOptimizer.Util.JsonRoundTrip

/-! The objects that `plan_to_json` writes have no key twice, so that none of their entries is lost
when the text is read. -/

namespace SqlOptimizer.PlanSerializer

open JsonValue

theorem distinct_null : JsonValue.null.Everywhere KeysDistinct := fun _ h => by cases h

theorem distinct_string (s : String) : (JsonValue.string s).Everywhere KeysDistinct :=
  fun _ h => by cases h

theorem distinct_array_map {α : Type} {f : α → JsonValue} (as : List α)
    (h : ∀ a ∈ as, (f a).Everywhere KeysDistinct) :
    (JsonValue.array (as.map f)).Everywhere KeysDistinct :=
  (everywhere_array_map (fun _ _ h => by cases h) f as).mpr h

theorem distinct_optionalText (s : Option String) : (optionalText s).Everywhere KeysDistinct := by
  cases s with
  | none => exact distinct_null
  | some s => exact distinct_string s

theorem distinct_literalToJson (l : Literal) : (literalToJson l).Everywhere KeysDistinct := by
  simp [literalToJson, Everywhere, EverywhereEntries, KeysDistinct, ofInt64]

/-! ### Expressions -/

theorem distinct_exprObject {f : ExprFields JsonValue}
    (hleft : (optionalChild f.left).Everywhere KeysDistinct)
    (hright : (optionalChild f.right).Everywhere KeysDistinct)
    (hoperand : (optionalChild f.operand).Everywhere KeysDistinct)
    (hargs : EverywhereElements KeysDistinct f.args) :
    (exprObject f).Everywhere KeysDistinct := by
  have hliteral := distinct_literalToJson f.literal
  have htable := distinct_optionalText f.table
  simp only [exprObject, Everywhere, EverywhereEntries]
  simp [KeysDistinct, htable, hliteral, hleft, hright, hoperand, hargs]

mutual

theorem distinct_exprToJson (e : Expression) : (exprToJson e).Everywhere KeysDistinct := by
  match e with
  | .column _ _ | .literal _ | .wildcard =>
    rw [exprToJson]
    exact distinct_exprObject distinct_null distinct_null distinct_null trivial
  | .binaryOp l op r =>
    rw [exprToJson]
    exact distinct_exprObject (distinct_exprToJson l) (distinct_exprToJson r) distinct_null trivial
  | .unaryOp op e =>
    rw [exprToJson]
    exact distinct_exprObject distinct_null distinct_null (distinct_exprToJson e) trivial
  | .function name args =>
    rw [exprToJson]
    exact distinct_exprObject distinct_null distinct_null distinct_null (distinct_exprsToJson args)

theorem distinct_exprsToJson (es : List Expression) :
    EverywhereElements KeysDistinct (exprsToJson es) := by
  match es with
  | [] => trivial
  | e :: es => exact ⟨distinct_exprToJson e, distinct_exprsToJson es⟩

end

/-! ### Plans -/

theorem distinct_aggregateToJson (agg : AggregateExpr) :
    (aggregateToJson agg).Everywhere KeysDistinct := by
  have harg := distinct_exprToJson agg.arg
  have halias := distinct_optionalText agg.aliasName
  simp only [aggregateToJson, Everywhere, EverywhereEntries]
  simp [KeysDistinct, harg, halias]

theorem distinct_orderByToJson (item : OrderByItem) :
    (orderByToJson item).Everywhere KeysDistinct := by
  have hexpression := distinct_exprToJson item.expression
  simp only [orderByToJson, Everywhere, EverywhereEntries]
  simp [KeysDistinct, hexpression]

theorem distinct_pairToJson (p : Expression × Option String) :
    (pairToJson p).Everywhere KeysDistinct := by
  have hexpr := distinct_exprToJson p.1
  have halias := distinct_optionalText p.2
  simp only [pairToJson, Everywhere, EverywhereEntries]
  simp [KeysDistinct, hexpr, halias]

theorem distinct_costToJson (c : Cost Binary64) : (costToJson c).Everywhere KeysDistinct := by
  simp [costToJson, Everywhere, EverywhereEntries, KeysDistinct]

theorem distinct_planObject {f : PlanFields JsonValue}
    (hinput : (optionalChild f.input).Everywhere KeysDistinct)
    (hleft : (optionalChild f.left).Everywhere KeysDistinct)
    (hright : (optionalChild f.right).Everywhere KeysDistinct) :
    (planObject f).Everywhere KeysDistinct := by
  have hcost := distinct_costToJson f.ann.cost
  have halias := distinct_optionalText f.aliasName
  have hcolumns := @distinct_array_map _ .string f.projectedColumns
    fun s _ => distinct_string s
  have hprobe := distinct_exprToJson f.indexProbeValue
  have hpredicate := distinct_exprToJson f.predicate
  have hcondition := distinct_exprToJson f.condition
  have hgroups := distinct_array_map f.groupBy fun e _ => distinct_exprToJson e
  have haggs := distinct_array_map f.aggregates fun agg _ => distinct_aggregateToJson agg
  have hexprs := distinct_array_map f.expressions fun p _ => distinct_pairToJson p
  have horder := distinct_array_map f.orderBy fun item _ => distinct_orderByToJson item
  rw [planObject, Everywhere]
  simp only [EverywhereEntries, hcost, halias, hcolumns, hprobe, hpredicate, hinput, hcondition,
    hleft, hright, hgroups, haggs, hexprs, horder, ofSize]
  simp [KeysDistinct, Everywhere]

theorem distinct_planToJson (plan : PhysicalPlan Binary64) :
    (planToJson plan).Everywhere KeysDistinct := by
  induction plan with
  | seqScan | indexScan | externalRows =>
    rw [planToJson]
    exact distinct_planObject distinct_null distinct_null distinct_null
  | join _ _ _ _ _ _ ihl ihr =>
    rw [planToJson]
    exact distinct_planObject distinct_null ihl ihr
  | filter _ _ _ ih | hashAggregate _ _ _ _ ih | project _ _ _ ih | sort _ _ _ ih | limit _ _ _ ih =>
    rw [planToJson]
    exact distinct_planObject ih distinct_null distinct_null

end SqlOptimizer.PlanSerializer

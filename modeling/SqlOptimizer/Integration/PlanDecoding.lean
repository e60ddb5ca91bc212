import SqlOptimizer.Integration.PlanRoundTrip

/-! Where the strict reading of a document succeeds, `deserialize_plan` returns the same plan. -/

namespace SqlOptimizer.PlanSerializer

section Fields

variable {α : Type} {j : JsonValue} {key : String} {default a : α}

theorem readField_some {read : JsonValue → Except String α}
    {decode : JsonValue → Except String (Option α)}
    (hdecode : ∀ v a, read v = .ok a → decode v = .ok (some a))
    (h : readField j key default read = .ok a) :
    readField j key (some default) decode = .ok (some a) := by
  unfold readField at h ⊢
  split at h
  · exact hdecode _ _ h
  · rw [Except.ok.inj h]

theorem castField_some {cast : Binary64 → Except String α}
    (h : readField j key default (fun v => cast v.asNumber) = .ok a) :
    castField j key default cast = some a := by
  unfold readField at h
  unfold castField
  split at h
  · have hcast : cast (JsonValue.asNumber _) = .ok a := h
    rw [hcast]
    rfl
  · rw [Except.ok.inj h]

theorem readChild_some {read : JsonValue → Except String α}
    {decode : JsonValue → Except String (Option α)} {c : Option α}
    (hdecode : ∀ v a, read v = .ok a → decode v = .ok (some a))
    (h : readChild j key read = .ok c) : readChild j key decode = .ok (c.map some) := by
  unfold readChild childOf at h ⊢
  split at h
  · obtain ⟨a, ha, h⟩ := Except.bind_eq_ok.mp h
    cases h
    rw [hdecode _ _ ha]
    rfl
  · cases h
    rfl

theorem readArray_some {read : JsonValue → Except String α}
    {decode : JsonValue → Except String (Option α)} {as : List α}
    (hdecode : ∀ v a, read v = .ok a → decode v = .ok (some a))
    (h : readArray j key read = .ok as) : readArray j key decode = .ok (as.map some) := by
  unfold readArray at h ⊢
  split at h
  · rw [Except.mapM_eq_ok] at h ⊢
    rw [List.forall₂_map_right_iff]
    exact h.imp fun v a => hdecode v a
  · cases h
    rfl

theorem join_map_some (c : Option α) : (c.map some).join = c := by
  cases c <;> rfl

theorem mapM_id_map_some (as : List α) : (as.map some).mapM id = some as := by
  induction as with
  | nil => rfl
  | cons a as ih => simp [ih]

end Fields

theorem decodeLiteral_some {j : JsonValue} {l : Literal} (h : literalFromJson j = .ok l) :
    decodeLiteral j = .ok (some l) := by
  obtain ⟨kind, hkind, h⟩ := Except.bind_eq_ok.mp h
  obtain ⟨intVal, hint, h⟩ := Except.bind_eq_ok.mp h
  obtain ⟨floatVal, hfloat, h⟩ := Except.bind_eq_ok.mp h
  obtain ⟨strVal, hstr, h⟩ := Except.bind_eq_ok.mp h
  obtain ⟨boolVal, hbool, h⟩ := Except.bind_eq_ok.mp h
  cases h
  simp only [decodeLiteral, hkind, hfloat, hstr, hbool, castField_some hint, Except.ok_bind,
    Option.map_some, Except.pure_eq_ok]

/-- An object that stands for an expression, read with its children. -/
theorem expression?_some {f : ExprFields Expression} {e : Expression} (h : f.expression = .ok e) :
    ExprFields.expression? ⟨f.kind, f.table, f.column, .null, f.left.map some, f.binaryOp,
      f.right.map some, f.unaryOp, f.operand.map some, f.funcName, f.args.map some⟩
      (some f.literal) = some e := by
  obtain ⟨kind, table, column, literal, left, binaryOp, right, unaryOp, operand, funcName, args⟩ := f
  cases kind with
  | column | literal | wildcard =>
    cases h
    rfl
  | function =>
    cases h
    simp only [ExprFields.expression?, mapM_id_map_some]
    rfl
  | binaryOp =>
    cases left with
    | none => cases h
    | some l =>
      cases right with
      | none => cases h
      | some r =>
        cases h
        rfl
  | unaryOp =>
    cases operand with
    | none => cases h
    | some e =>
      cases h
      rfl

theorem decodeExprWithin_some {fuel : Nat} {j : JsonValue} {e : Expression}
    (h : exprFrom fuel j = .ok e) : decodeExprWithin fuel j = .ok (some e) := by
  induction fuel generalizing j e with
  | zero => cases h
  | succ fuel ih =>
    obtain ⟨kind, hkind, h⟩ := Except.bind_eq_ok.mp h
    obtain ⟨column, hcolumn, h⟩ := Except.bind_eq_ok.mp h
    obtain ⟨literal, hliteral, h⟩ := Except.bind_eq_ok.mp h
    obtain ⟨left, hleft, h⟩ := Except.bind_eq_ok.mp h
    obtain ⟨binaryOp, hbinary, h⟩ := Except.bind_eq_ok.mp h
    obtain ⟨right, hright, h⟩ := Except.bind_eq_ok.mp h
    obtain ⟨unaryOp, hunary, h⟩ := Except.bind_eq_ok.mp h
    obtain ⟨operand, hoperand, h⟩ := Except.bind_eq_ok.mp h
    obtain ⟨funcName, hfunc, h⟩ := Except.bind_eq_ok.mp h
    obtain ⟨args, hargs, h⟩ := Except.bind_eq_ok.mp h
    have hchild : ∀ v a, exprFrom fuel v = .ok a → decodeExprWithin fuel v = .ok (some a) :=
      fun _ _ => ih
    simp only [decodeExprWithin, hkind, hcolumn, hbinary, hunary, hfunc,
      readField_some (fun _ _ => decodeLiteral_some) hliteral, readChild_some hchild hleft,
      readChild_some hchild hright, readChild_some hchild hoperand, readArray_some hchild hargs,
      Except.ok_bind, Except.pure_eq_ok, Except.ok.injEq]
    exact expression?_some h

theorem decodeExpr_some {j : JsonValue} {e : Expression} (h : exprFromJson j = .ok e) :
    decodeExpr j = .ok (some e) := decodeExprWithin_some h

theorem decodeAggregate_some {j : JsonValue} {agg : AggregateExpr}
    (h : aggregateFromJson j = .ok agg) : decodeAggregate j = .ok (some agg) := by
  obtain ⟨func, hfunc, h⟩ := Except.bind_eq_ok.mp h
  obtain ⟨arg, harg, h⟩ := Except.bind_eq_ok.mp h
  cases h
  simp only [decodeAggregate, hfunc, readField_some (fun _ _ => decodeExpr_some) harg,
    Except.ok_bind, Option.map_some, Except.pure_eq_ok]

theorem decodeOrderBy_some {j : JsonValue} {item : OrderByItem}
    (h : orderByFromJson j = .ok item) : decodeOrderBy j = .ok (some item) := by
  obtain ⟨expression, hexpr, h⟩ := Except.bind_eq_ok.mp h
  obtain ⟨ascending, hasc, h⟩ := Except.bind_eq_ok.mp h
  cases h
  simp only [decodeOrderBy, hasc, readField_some (fun _ _ => decodeExpr_some) hexpr,
    Except.ok_bind, Option.map_some, Except.pure_eq_ok]

theorem decodePair_some {j : JsonValue} {p : Expression × Option String}
    (h : pairFromJson j = .ok p) : decodePair j = .ok (some p) := by
  obtain ⟨expr, hexpr, h⟩ := Except.bind_eq_ok.mp h
  cases h
  simp only [decodePair, readField_some (fun _ _ => decodeExpr_some) hexpr, Except.ok_bind,
    Option.map_some, Except.pure_eq_ok]

theorem decodeAnnotation_some {j : JsonValue} {ann : Annotation Binary64}
    (h : annotationFrom j = .ok ann) : decodeAnnotation j = .ok (some ann) := by
  obtain ⟨cost, hcost, h⟩ := Except.bind_eq_ok.mp h
  obtain ⟨rows, hrows, h⟩ := Except.bind_eq_ok.mp h
  obtain ⟨reasoning, hreasoning, h⟩ := Except.bind_eq_ok.mp h
  obtain ⟨confidence, hconfidence, h⟩ := Except.bind_eq_ok.mp h
  cases h
  simp only [ decodeAnnotation, hcost, hreasoning, hconfidence, castField_some hrows,
    Except.ok_bind, Option.map_some, Except.pure_eq_ok]

theorem decodePlanWithin_some {fuel : Nat} {j : JsonValue} {p : PhysicalPlan Binary64}
    (h : planFrom fuel j = .ok p) : decodePlanWithin fuel j = .ok (some p) := by
  induction fuel generalizing j p with
  | zero => cases h
  | succ fuel ih =>
    obtain ⟨kind, hkind, h⟩ := Except.bind_eq_ok.mp h
    obtain ⟨ann, hann, h⟩ := Except.bind_eq_ok.mp h
    obtain ⟨tableName, htable, h⟩ := Except.bind_eq_ok.mp h
    obtain ⟨columns, hcolumns, h⟩ := Except.bind_eq_ok.mp h
    obtain ⟨indexColumn, hindex, h⟩ := Except.bind_eq_ok.mp h
    obtain ⟨probe, hprobe, h⟩ := Except.bind_eq_ok.mp h
    obtain ⟨predicate, hpredicate, h⟩ := Except.bind_eq_ok.mp h
    obtain ⟨input, hinput, h⟩ := Except.bind_eq_ok.mp h
    obtain ⟨joinType, hjoin, h⟩ := Except.bind_eq_ok.mp h
    obtain ⟨condition, hcondition, h⟩ := Except.bind_eq_ok.mp h
    obtain ⟨left, hleft, h⟩ := Except.bind_eq_ok.mp h
    obtain ⟨right, hright, h⟩ := Except.bind_eq_ok.mp h
    obtain ⟨groupBy, hgroup, h⟩ := Except.bind_eq_ok.mp h
    obtain ⟨aggregates, haggs, h⟩ := Except.bind_eq_ok.mp h
    obtain ⟨expressions, hexprs, h⟩ := Except.bind_eq_ok.mp h
    obtain ⟨orderBy, horder, h⟩ := Except.bind_eq_ok.mp h
    obtain ⟨count, hcount, h⟩ := Except.bind_eq_ok.mp h
    have hchild : ∀ v a, planFrom fuel v = .ok a → decodePlanWithin fuel v = .ok (some a) :=
      fun _ _ => ih
    have hexpr : ∀ v a, exprFromJson v = .ok a → decodeExpr v = .ok (some a) :=
      fun _ _ => decodeExpr_some
    simp only [decodePlanWithin, hkind, decodeAnnotation_some hann, htable, hcolumns, hindex, hjoin,
      readField_some hexpr hprobe, readField_some hexpr hpredicate, readField_some hexpr hcondition,
      readChild_some hchild hinput, readChild_some hchild hleft, readChild_some hchild hright,
      readArray_some hexpr hgroup, readArray_some (fun _ _ => decodeAggregate_some) haggs,
      readArray_some (fun _ _ => decodePair_some) hexprs,
      readArray_some (fun _ _ => decodeOrderBy_some) horder, castField_some hcount,
      join_map_some, mapM_id_map_some, Except.ok_bind, Except.pure_eq_ok, Except.ok.injEq]
    cases kind with
    | seqScan | indexScan | externalRows =>
      cases h
      rfl
    | join kind =>
      cases left with
      | none => cases h
      | some l =>
        cases right with
        | none => cases h
        | some r =>
          cases h
          rfl
    | filter | hashAggregate | project | sort | limit =>
      cases input with
      | none => cases h
      | some i =>
        cases h
        rfl

theorem decodePlan_some {j : JsonValue} {p : PhysicalPlan Binary64} (h : planFromJson j = .ok p) :
    decodePlan j = .ok (some p) := decodePlanWithin_some h

end SqlOptimizer.PlanSerializer

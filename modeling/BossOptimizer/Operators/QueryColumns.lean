import BossOptimizer.Operators.QueryExpr

/-!
# The columns of a query

The column properties that the rewrites of subqueries ask for, derived bottom-up: a logical
operator has output columns and outer references, a scalar operator uses and defines columns. What
another operator derives from its children is a parameter.
-/

namespace BossOptimizer

namespace CExpression

variable {Op : Type}

/-- The subexpressions, the expression itself among them. -/
inductive SubexpressionOf (s : CExpression Op) : CExpression Op → Prop
  | refl : SubexpressionOf s s
  | child {pop : Op} {pdrgpexpr : List (CExpression Op)} {pexpr : CExpression Op}
      (h : pexpr ∈ pdrgpexpr) (hs : SubexpressionOf s pexpr) :
      SubexpressionOf s (.node pop pdrgpexpr)

theorem subexpressionOf_node_iff {s : CExpression Op} {pop : Op} {l : List (CExpression Op)} :
    SubexpressionOf s (.node pop l) ↔ s = .node pop l ∨ ∃ e ∈ l, SubexpressionOf s e := by
  constructor
  · intro h
    cases h with
    | refl => exact .inl rfl
    | child he hs => exact .inr ⟨_, he, hs⟩
  · rintro (rfl | ⟨e, he, hs⟩)
    · exact .refl
    · exact .child he hs

/-- What holds of an expression exactly when something else does, once it holds below, holds of all
    subexpressions exactly when that does. -/
theorem forall_subexpressions_iff {P Q : CExpression Op → Prop}
    (step : ∀ pop l, (∀ e ∈ l, ∀ s, SubexpressionOf s e → P s) → (P (.node pop l) ↔ Q (.node pop l)))
    (pexpr : CExpression Op) :
    (∀ s, SubexpressionOf s pexpr → P s) ↔ ∀ s, SubexpressionOf s pexpr → Q s := by
  have hbelow : ∀ {pop l}, (∀ s, SubexpressionOf s (.node pop l) → P s) →
      ∀ e ∈ l, ∀ s, SubexpressionOf s e → P s := fun h e he s hs => h s (.child he hs)
  induction pexpr using CExpression.induction with
  | node pop l ih =>
    constructor
    · intro hP s hs
      cases hs with
      | refl => exact (step pop l (hbelow hP)).1 (hP _ .refl)
      | child he hs => exact (ih _ he).1 (hbelow hP _ he) s hs
    · intro hQ
      have hP : ∀ e ∈ l, ∀ s, SubexpressionOf s e → P s := fun e he =>
        (ih e he).2 fun s hs => hQ s (.child he hs)
      intro s hs
      cases hs with
      | refl => exact (step pop l hP).2 (hQ _ .refl)
      | child he hs => exact hP _ he s hs

end CExpression

/-- The column properties of an expression: `DeriveOutputColumns` and `DeriveOuterReferences` of a
    logical one, `DeriveUsedColumns` and `DeriveDefinedColumns` of a scalar one; the other two are
    empty. -/
structure DerivedColumns where
  output : List CColRef
  outer : List CColRef
  used : List CColRef
  defined : List CColRef

namespace DerivedColumns

/-- What a scalar operator uses for its children: what scalar children use, and the outer
    references of the relation of a subquery (CDrvdPropScalar.cpp). -/
def usedByChildren (children : List DerivedColumns) : List CColRef :=
  children.flatMap fun c => c.used ++ c.outer

/-- A scalar operator with columns of its own. -/
def scalar (used defined : List CColRef) (children : List DerivedColumns) : DerivedColumns where
  output := []
  outer := []
  used := used ++ usedByChildren children
  defined := defined ++ children.flatMap (·.defined)

/-- `PcrsUsed` of a subquery on a column: the column, if the relation does not produce it
    (CScalarSubquery.cpp:140). -/
def subqueryColumn (colref : CColRef) (children : List DerivedColumns) : List CColRef :=
  if colref ∈ children.flatMap (·.output) then [] else [colref]

/-- `CLogical::DeriveOuterReferences` (CLogical.cpp:435), with the columns that the operator itself
    uses. -/
def outerReferences (pcrsUsedAdditional : List CColRef) (children : List DerivedColumns) :
    List CColRef :=
  (usedByChildren children ++ pcrsUsedAdditional).filter (· ∉ children.flatMap (·.output))

/-- What needs no more and offers no less. -/
structure Narrows (d d' : DerivedColumns) : Prop where
  output : ∀ c ∈ d.output, c ∈ d'.output
  outer : ∀ c ∈ d'.outer, c ∈ d.outer
  used : ∀ c ∈ d'.used, c ∈ d.used
  defined : ∀ c ∈ d.defined, c ∈ d'.defined

end DerivedColumns

open DerivedColumns in
/-- The properties of an operator from those of its children. -/
def QueryOp.columns {D Op : Type} (derive : Op → List DerivedColumns → DerivedColumns) :
    QueryOp D Op → List DerivedColumns → DerivedColumns
  | .scalarIdent colref, children => scalar [colref] [] children
  | .scalarProjectElement colref, children => scalar [] [colref] children
  | .scalarSubquery colref _ _, children => scalar (subqueryColumn colref children) [] children
  | .scalarSubqueryAny _ colref, children => scalar (subqueryColumn colref children) [] children
  | .scalarSubqueryAll _ colref, children => scalar (subqueryColumn colref children) [] children
  | .logicalProject, children =>
    { output := children.flatMap (·.output) ++ children.flatMap (·.defined)
      outer := outerReferences [] children, used := [], defined := [] }
  | .logicalConstTableGet out _, _ => { output := out, outer := [], used := [], defined := [] }
  | .other pop, children => derive pop children
  | _, children => scalar [] [] children

namespace Query

variable {D Op : Type} (derive : Op → List DerivedColumns → DerivedColumns)

def columns (pexpr : Query D Op) : DerivedColumns := pexpr.fold (QueryOp.columns derive)

def DeriveOutputColumns (pexpr : Query D Op) : List CColRef := (columns derive pexpr).output

def DeriveOuterReferences (pexpr : Query D Op) : List CColRef := (columns derive pexpr).outer

/-- `CUtils::HasOuterRefs`. -/
def HasOuterRefs (pexpr : Query D Op) : Bool := !(DeriveOuterReferences derive pexpr).isEmpty

end Query

/-! ## Rows carry the outer row -/

/-- A relation changes no column but its output columns, and a project list has elements for the
    columns it defines. -/
structure Carries {D G : Type} (d : DerivedColumns) (f : Env D G → Result D) : Prop where
  rows : ∀ env rows, (f env).rows? = some rows → ∀ row ∈ rows, ∀ c ∉ d.output, row c = env.row c
  elements : ∀ env l, (f env).elements? = some l → ∀ el ∈ l, el.1 ∈ d.defined

/-- Operators whose derived columns are right. -/
structure ColumnSemantics (D G Op : Type) extends QuerySemantics D G Op where
  derive : Op → List DerivedColumns → DerivedColumns
  carries : ∀ pop ds fs, List.Forall₂ Carries ds fs → Carries (derive pop ds) (other pop fs)

namespace ColumnSemantics

variable {D G Op : Type} (S : ColumnSemantics D G Op)

/-- What is neither a relation nor a project list. -/
theorem carries_of_none {d : DerivedColumns} {f : Env D G → Result D}
    (hrows : ∀ env, (f env).rows? = none) (helements : ∀ env, (f env).elements? = none) :
    Carries d f :=
  ⟨fun env rows h => by simp [hrows] at h, fun env l h => by simp [helements] at h⟩

theorem mem_assign_of_projectRow {l : List (CColRef × List (Datum D))} {row row' : Row D}
    (h : row' ∈ Query.projectRow l row) : ∀ c ∉ l.map (·.1), row' c = row c := by
  obtain ⟨k, -, rfl⟩ := List.mem_map.1 h
  exact fun c hc => assign_of_notMem hc

theorem carries_logicalProject {dc dl : DerivedColumns} {child list : Env D G → Result D}
    (hchild : Carries dc child) (hlist : Carries dl list) :
    Carries ((QueryOp.logicalProject : QueryOp D Op).columns S.derive [dc, dl])
      (S.toQuerySemantics.op .logicalProject [child, list]) := by
  refine ⟨fun env rows hrows => ?_,
    fun env l h => by simp [QuerySemantics.op, Option.bind_assoc] at h⟩
  simp only [QuerySemantics.op, Result.rows?_ofOption, Option.bind_eq_bind,
    Option.bind_eq_some_iff, Option.some.injEq] at hrows
  obtain ⟨_, ⟨childRows, hchildRows, projected, hprojected, rfl⟩, hrows⟩ := hrows
  cases hrows
  intro row hrow c hc
  obtain ⟨projectedRows, hrows, hrow⟩ := List.mem_flatten.1 hrow
  obtain ⟨childRow, hchildRow, hprojectedRow⟩ :=
    exists_of_forall₂_right (mapM_eq_some_iff.1 hprojected) hrows
  obtain ⟨l, hl, hprojectedRow⟩ := Option.bind_eq_some_iff.1 hprojectedRow
  cases hprojectedRow
  simp only [QueryOp.columns, List.flatMap_cons, List.flatMap_nil, List.append_nil,
    List.mem_append, not_or] at hc
  rw [mem_assign_of_projectRow hrow c fun hmem => ?_,
    hchild.rows env childRows hchildRows childRow hchildRow c hc.1.1]
  obtain ⟨el, hel, rfl⟩ := List.mem_map.1 hmem
  exact hc.2.2 (hlist.elements _ l hl el hel)

theorem carries_op (pop : QueryOp D Op) {ds : List DerivedColumns}
    {fs : List (Env D G → Result D)} (h : List.Forall₂ Carries ds fs) :
    Carries (pop.columns S.derive ds) (S.toQuerySemantics.op pop fs) := by
  cases pop with
  | other pop => exact S.carries pop ds fs h
  | logicalConstTableGet out data =>
    refine ⟨fun env rows hrows row hrow c hc => ?_, fun env l hl => by cases hl⟩
    cases hrows
    obtain ⟨vals, -, rfl⟩ := List.mem_map.1 hrow
    exact assign_of_notMem hc
  | logicalProject =>
    rcases h with _ | ⟨hchild, _ | ⟨hlist, _ | ⟨_, _⟩⟩⟩
    · exact carries_of_none (fun _ => rfl) fun _ => rfl
    · exact carries_of_none (fun _ => rfl) fun _ => rfl
    · exact S.carries_logicalProject hchild hlist
    · exact carries_of_none (fun _ => rfl) fun _ => rfl
  | scalarProjectElement colref =>
    rcases fs with _ | ⟨f, _ | ⟨f', fs⟩⟩
    · exact carries_of_none (fun _ => rfl) fun _ => rfl
    · refine ⟨fun env rows hrows => ?_, fun env l hl el hel => ?_⟩
      · simp only [QuerySemantics.op] at hrows
        split at hrows <;> cases hrows
      · simp only [QuerySemantics.op] at hl
        split at hl <;> cases hl <;> simp_all [QueryOp.columns, DerivedColumns.scalar]
    · exact carries_of_none (fun _ => rfl) fun _ => rfl
  | scalarProjectList =>
    refine ⟨fun env rows hrows => by simp [QuerySemantics.op, Option.bind_assoc] at hrows,
      fun env l hl el hel => ?_⟩
    simp only [QuerySemantics.op, Result.elements?_ofOption, Option.bind_eq_bind,
      Option.bind_eq_some_iff, Option.some.injEq] at hl
    obtain ⟨_, ⟨ls, hls, rfl⟩, hl⟩ := hl
    cases hl
    obtain ⟨l, hl, hel⟩ := List.mem_flatten.1 hel
    obtain ⟨f, hf, hfl⟩ := exists_of_forall₂_right (mapM_eq_some_iff.1 hls) hl
    obtain ⟨d, hd, hdf⟩ := exists_of_forall₂_right h hf
    simp only [QueryOp.columns, DerivedColumns.scalar, List.nil_append, List.mem_flatMap]
    exact ⟨d, hd, hdf.elements env l hfl el hel⟩
  | scalarBoolOp eboolop =>
    exact carries_of_none (fun env => by simp [QuerySemantics.op, Option.bind_assoc])
      fun env => by simp [QuerySemantics.op, Option.bind_assoc]
  | _ =>
    rcases fs with _ | ⟨f, _ | ⟨f', _ | ⟨f'', fs⟩⟩⟩ <;>
      refine carries_of_none (fun env => ?_) fun env => ?_ <;>
      simp [QuerySemantics.op, Option.bind_assoc]

/-- **The rows of an expression have the values of the outer row in the columns that it does not
output.** -/
theorem carries_eval (pexpr : Query D Op) :
    Carries (Query.columns S.derive pexpr) (Query.eval S.toQuerySemantics pexpr) := by
  induction pexpr using CExpression.induction with
  | node pop l ih =>
    rw [Query.columns, Query.eval_node, CExpression.fold_node]
    refine S.carries_op pop ?_
    rw [List.forall₂_map_left_iff, List.forall₂_map_right_iff, List.forall₂_same]
    exact ih

end ColumnSemantics

end BossOptimizer

import BossOptimizer.Lib.Definitions
import BossOptimizer.Operators.QueryExpr

/-!
# Queries over common table expressions

A consumer reads the tuples of its producer in columns of its own. The producers are kept aside, in
`CCTEInfo`, in the order they were added; a producer may read the ones before it. An *occurrence* of
a consumer is the consumer with the predicate of the selection right above it, if there is one.
A predicate that has no value keeps no row; run-time errors are not modelled.
-/

namespace BossOptimizer

/-- The operators that `CollectCTEPredicates` looks at and the Boolean constants, and all others. -/
inductive CteOp (Op : Type) where
  | select
  | cteConsumer (m_id : ℕ) (m_pdrgpcr : List CColRef)
  | scalarConst (value : Bool)
  | other (pop : Op)

variable {D G Op : Type}

/-- The predicate is true. -/
def QuerySemantics.isTrue (S : QuerySemantics D G Op) (result : Result D) : Bool :=
  result.value?.bind S.truth == some true

/-- The tuples of the common table expressions, if they could be computed. -/
abbrev Contents (D : Type) : Type := ℕ → Option (List (List (Datum D)))

open Result in
def CteOp.eval (S : QuerySemantics D G Op) (C : Contents D) :
    CteOp Op → List (Env D G → Result D) → Env D G → Result D
  | .select, [child, pred], env => ofOption do
    let rows ← (child env).rows?
    some (.relation (rows.filter fun row => S.isTrue (pred { env with row := row })))
  | .cteConsumer id cols, _, env => ofOption do
    let tuples ← C id
    some (.relation (tuples.map fun vals => assign cols vals env.row))
  | .scalarConst b, _, _ => .value (S.ofTruth (some b))
  | .other pop, children, env => S.other pop children env
  | _, _, _ => .failure

/-- The meaning of queries over common table expressions with these tuples. -/
def QuerySemantics.ctes (S : QuerySemantics D G Op) (C : Contents D) :
    QuerySemantics D G (CteOp Op) where
  truth := S.truth
  ofTruth := S.ofTruth
  truth_ofTruth := S.truth_ofTruth
  cmp := S.cmp
  other := CteOp.eval S C

namespace Query

variable {S : QuerySemantics D G Op}

attribute [local simp] CteOp.eval in
@[simp] theorem isTrue_ctes (C : Contents D) (result : Result D) :
    (S.ctes C).isTrue result = S.isTrue result := rfl

/-! ## Occurrences of consumers -/

/-- A consumer, and the predicate of the selection on it. -/
structure Occurrence (D Op : Type) where
  ulCTEId : ℕ
  pdrgpcr : List CColRef
  filter : Option (Query D (CteOp Op))

/-- The consumer below its selection. -/
def Occurrence.expr (o : Occurrence D Op) : Query D (CteOp Op) :=
  match o.filter with
  | none => .node (.other (.cteConsumer o.ulCTEId o.pdrgpcr)) []
  | some p => .node (.other .select) [.node (.other (.cteConsumer o.ulCTEId o.pdrgpcr)) [], p]

mutual

/-- The occurrences in an expression with a selection above it, or none. -/
def occurrences (above : Option (Query D (CteOp Op))) :
    Query D (CteOp Op) → List (Occurrence D Op)
  | .node (.other (.cteConsumer id cols)) l => ⟨id, cols, above⟩ :: occurrencesEach l
  | .node (.other .select) [child, pred] => occurrences (some pred) child ++ occurrences none pred
  | .node _ l => occurrencesEach l

def occurrencesEach : List (Query D (CteOp Op)) → List (Occurrence D Op)
  | [] => []
  | pexpr :: l => occurrences none pexpr ++ occurrencesEach l

end

attribute [local simp] occurrences occurrencesEach in
theorem occurrencesEach_eq_flatMap (l : List (Query D (CteOp Op))) :
    occurrencesEach l = l.flatMap (occurrences none) := by
  induction l with
  | nil => rfl
  | cons e l ih => rw [occurrencesEach, ih, List.flatMap_cons]

/-- Elsewhere the occurrences are those of the children. -/
theorem occurrences_node {pop : QueryOp D (CteOp Op)} {l : List (Query D (CteOp Op))}
    (hconsumer : ∀ id cols, pop ≠ .other (.cteConsumer id cols))
    (hselect : ∀ child pred, pop = .other .select → l ≠ [child, pred])
    (above : Option (Query D (CteOp Op))) :
    occurrences above (.node pop l) = l.flatMap (occurrences none) := by
  rw [occurrences, occurrencesEach_eq_flatMap]
  · exact hconsumer
  · exact hselect

/-- An expression is a consumer, a selection, or neither. -/
theorem consumer_or_select (e : Query D (CteOp Op)) :
    (∃ id cols l, e = .node (.other (.cteConsumer id cols)) l) ∨
      (∃ child pred, e = .node (.other .select) [child, pred]) ∨
      ∃ pop l, e = .node pop l ∧ (∀ id cols, pop ≠ .other (.cteConsumer id cols)) ∧
        ∀ child pred, pop = .other .select → l ≠ [child, pred] := by
  obtain ⟨pop, l⟩ := e
  by_cases hconsumer : ∃ id cols, pop = .other (.cteConsumer id cols)
  · obtain ⟨id, cols, rfl⟩ := hconsumer
    exact .inl ⟨id, cols, l, rfl⟩
  by_cases hselect : ∃ child pred, pop = .other .select ∧ l = [child, pred]
  · obtain ⟨child, pred, rfl, rfl⟩ := hselect
    exact .inr (.inl ⟨child, pred, rfl⟩)
  · exact .inr (.inr ⟨pop, l, rfl, fun id cols h => hconsumer ⟨id, cols, h⟩,
      fun child pred h h' => hselect ⟨child, pred, h, h'⟩⟩)

/-- Only a consumer at the root sees the selection. -/
theorem occurrences_of_not_consumer {e : Query D (CteOp Op)}
    (h : ∀ id cols l, e ≠ .node (.other (.cteConsumer id cols)) l)
    (above : Option (Query D (CteOp Op))) : occurrences above e = occurrences none e := by
  obtain ⟨id, cols, l, rfl⟩ | ⟨child, pred, rfl⟩ | ⟨pop, l, rfl, hconsumer, hselect⟩ :=
    consumer_or_select e
  · exact absurd rfl (h id cols l)
  · rw [occurrences, occurrences]
  · rw [occurrences_node hconsumer hselect, occurrences_node hconsumer hselect]

/-! ## What an expression depends on -/

/-- Only consumers look at the tuples. -/
theorem op_ctes {pop : QueryOp D (CteOp Op)}
    (h : ∀ id cols, pop ≠ .other (.cteConsumer id cols)) (C C' : Contents D) :
    (S.ctes C').op pop = (S.ctes C).op pop := by
  funext children env
  rcases pop with _ | _ | _ | _ | _ | _ | _ | _ | _ | _ | _ | _ | (_ | ⟨id, cols⟩ | _ | _)
  case other.cteConsumer => exact absurd rfl (h id cols)
  -- the others have at most two operands that they look at
  all_goals rcases children with _ | ⟨v, _ | ⟨w, _ | ⟨x, children⟩⟩⟩ <;> rfl

/-- A consumer is a leaf. -/
theorem eval_consumer (C : Contents D) (id : ℕ) (cols : List CColRef)
    (l : List (Query D (CteOp Op))) :
    eval (S.ctes C) (.node (.other (.cteConsumer id cols)) l) =
      eval (S.ctes C) (Occurrence.expr ⟨id, cols, none⟩) := by
  rw [Occurrence.expr, eval_node, eval_node]
  rfl

theorem eval_select_consumer (C : Contents D) (id : ℕ) (cols : List CColRef)
    (l : List (Query D (CteOp Op))) (pred : Query D (CteOp Op)) :
    eval (S.ctes C) (.node (.other .select) [.node (.other (.cteConsumer id cols)) l, pred]) =
      eval (S.ctes C) (Occurrence.expr ⟨id, cols, some pred⟩) := by
  rw [Occurrence.expr, eval_node, eval_node, List.map_cons, eval_consumer]
  rfl

/-- The two contents give the expression the same result. -/
def SameResult (S : QuerySemantics D G Op) (C C' : Contents D) (e : Query D (CteOp Op)) : Prop :=
  eval (S.ctes C') e = eval (S.ctes C) e

/-- A node keeps its result when its children do. -/
theorem sameResult_node {C C' : Contents D} {pop : QueryOp D (CteOp Op)}
    {l : List (Query D (CteOp Op))} (hconsumer : ∀ id cols, pop ≠ .other (.cteConsumer id cols))
    (h : ∀ e ∈ l, SameResult S C C' e) : SameResult S C C' (.node pop l) := by
  unfold SameResult
  rw [eval_node, eval_node, op_ctes hconsumer C C', List.map_congr_left h]

/-- Induction along the occurrences: below a selection on a consumer the consumer is skipped. -/
theorem occurrence_induction {P : Query D (CteOp Op) → Prop}
    (consumer : ∀ id cols l, (∀ e ∈ l, P e) → P (.node (.other (.cteConsumer id cols)) l))
    (selectConsumer : ∀ id cols l pred, (∀ e ∈ l, P e) → P pred →
      P (.node (.other .select) [.node (.other (.cteConsumer id cols)) l, pred]))
    (select : ∀ child pred, (∀ id cols l, child ≠ .node (.other (.cteConsumer id cols)) l) →
      P child → P pred → P (.node (.other .select) [child, pred]))
    (node : ∀ pop l, (∀ id cols, pop ≠ .other (.cteConsumer id cols)) →
      (∀ child pred, pop = .other .select → l ≠ [child, pred]) → (∀ e ∈ l, P e) →
      P (.node pop l)) (e : Query D (CteOp Op)) : P e := by
  suffices hboth : ∀ e : Query D (CteOp Op), P e ∧ ∀ e' ∈ e.PdrgPexpr, P e' from (hboth e).1
  intro e
  induction e using CExpression.induction with
  | node pop l ih =>
    have hchildren : ∀ e ∈ l, P e := fun e he => (ih e he).1
    refine ⟨?_, hchildren⟩
    obtain ⟨id, cols, l', heq⟩ | ⟨child, pred, heq⟩ | ⟨pop', l', heq, hconsumer, hselect⟩ :=
      consumer_or_select (.node pop l)
    · obtain ⟨rfl, rfl⟩ := CExpression.node.inj heq
      exact consumer id cols l hchildren
    · obtain ⟨rfl, rfl⟩ := CExpression.node.inj heq
      have hpred : P pred := hchildren pred (by simp)
      by_cases hchild : ∃ id cols l', child = .node (.other (.cteConsumer id cols)) l'
      · obtain ⟨id, cols, l', rfl⟩ := hchild
        exact selectConsumer id cols l' pred (ih _ List.mem_cons_self).2 hpred
      · exact select child pred (fun id cols l' h => hchild ⟨id, cols, l', h⟩)
          (hchildren child List.mem_cons_self) hpred
    · obtain ⟨rfl, rfl⟩ := CExpression.node.inj heq
      exact node pop l hconsumer hselect hchildren

section

variable {C C' : Contents D}

/-- An occurrence and its filter keep their results. -/
def SameOccurrence (S : QuerySemantics D G Op) (C C' : Contents D) (o : Occurrence D Op) : Prop :=
  (∀ p, o.filter = some p → SameResult S C C' p) ∧ SameResult S C C' o.expr

/-- The expression and the occurrences in it keep their results. -/
def AllSame (S : QuerySemantics D G Op) (C C' : Contents D) (e : Query D (CteOp Op)) : Prop :=
  SameResult S C C' e ∧ ∀ o ∈ occurrences none e, SameOccurrence S C C' o

theorem allSame_flatMap {R : Occurrence D Op → Prop} {l : List (Query D (CteOp Op))}
    (h : ∀ e ∈ l, (∀ o ∈ occurrences none e, R o) → AllSame S C C' e)
    (hR : ∀ o ∈ l.flatMap (occurrences none), R o) :
    (∀ e ∈ l, SameResult S C C' e) ∧
      ∀ o ∈ l.flatMap (occurrences none), SameOccurrence S C C' o := by
  have hmem : ∀ e ∈ l, AllSame S C C' e := fun e he =>
    h e he fun o ho => hR o (List.mem_flatMap.2 ⟨e, he, ho⟩)
  refine ⟨fun e he => (hmem e he).1, fun o ho => ?_⟩
  obtain ⟨e, he, ho⟩ := List.mem_flatMap.1 ho
  exact (hmem e he).2 o ho

/-- **An expression depends on the occurrences in it**: if every occurrence has a property that,
once its filter keeps its result, makes it keep its own, all of them and the expression do. -/
theorem allSame_of_occurrences {R : Occurrence D Op → Prop}
    (hstep : ∀ o, R o → (∀ p, o.filter = some p → SameResult S C C' p) →
      SameResult S C C' o.expr) (e : Query D (CteOp Op)) :
    (∀ o ∈ occurrences none e, R o) → AllSame S C C' e := by
  induction e using occurrence_induction with
  | consumer id cols l ih =>
    intro hR
    rw [AllSame, occurrences, occurrencesEach_eq_flatMap]
    rw [occurrences, occurrencesEach_eq_flatMap, List.forall_mem_cons] at hR
    have hfilter : ∀ p, (none : Option (Query D (CteOp Op))) = some p → SameResult S C C' p :=
      fun p hp => nomatch hp
    have hown := hstep ⟨id, cols, none⟩ hR.1 hfilter
    refine ⟨?_, List.forall_mem_cons.2 ⟨⟨hfilter, hown⟩, (allSame_flatMap ih hR.2).2⟩⟩
    unfold SameResult
    rw [eval_consumer, eval_consumer]
    exact hown
  | selectConsumer id cols l pred ih ihpred =>
    intro hR
    rw [AllSame, occurrences, occurrences, occurrencesEach_eq_flatMap]
    rw [occurrences, occurrences, occurrencesEach_eq_flatMap, List.cons_append,
      List.forall_mem_cons, List.forall_mem_append] at hR
    obtain ⟨hRown, hRl, hRpred⟩ := hR
    have hpred := ihpred hRpred
    have hfilter : ∀ p, some pred = some p → SameResult S C C' p := by
      rintro p ⟨⟩
      exact hpred.1
    have hown := hstep ⟨id, cols, some pred⟩ hRown hfilter
    rw [List.cons_append, List.forall_mem_cons, List.forall_mem_append]
    refine ⟨?_, ⟨hfilter, hown⟩, (allSame_flatMap ih hRl).2, hpred.2⟩
    unfold SameResult
    rw [eval_select_consumer, eval_select_consumer]
    exact hown
  | select child pred hchild ih ihpred =>
    intro hR
    rw [AllSame, occurrences, occurrences_of_not_consumer hchild]
    rw [occurrences, occurrences_of_not_consumer hchild, List.forall_mem_append] at hR
    have hrest := ih hR.1
    have hpred := ihpred hR.2
    rw [List.forall_mem_append]
    refine ⟨sameResult_node (by simp) ?_, hrest.2, hpred.2⟩
    simpa using ⟨hrest.1, hpred.1⟩
  | node pop l hconsumer hselect ih =>
    intro hR
    rw [AllSame, occurrences_node hconsumer hselect]
    rw [occurrences_node hconsumer hselect] at hR
    have hrest := allSame_flatMap ih hR
    exact ⟨sameResult_node hconsumer hrest.1, hrest.2⟩

end

/-! ## Predicates -/

/-- `DeriveUsedColumns` of a scalar expression. -/
def UsedColumns (pexpr : Query D (CteOp Op)) : List CColRef :=
  pexpr.fold fun pop cols => match pop with
    | .scalarIdent colref => colref :: cols.flatten
    | _ => cols.flatten

/-- `DeriveHasSubquery`. -/
def DeriveHasSubquery (pexpr : Query D (CteOp Op)) : Bool :=
  pexpr.fold fun pop below => FSubquery pop || below.any id

/-- `PexprCopyWithRemappedColumns` of a scalar expression, where only identifiers hold columns. -/
def PexprCopyWithRemappedColumns (colref_mapping : CColRef → CColRef)
    (pexpr : Query D (CteOp Op)) : Query D (CteOp Op) :=
  pexpr.fold fun pop l => match pop with
    | .scalarIdent colref => .node (.scalarIdent (colref_mapping colref)) l
    | pop => .node pop l

/-- `CUtils::FScalarConstBool`. -/
def FScalarConstBool (value : Bool) : Query D (CteOp Op) → Bool
  | .node (.other (.scalarConst v)) _ => v == value
  | _ => false

/-- `CUtils::PexprScalarConstBool`. -/
def PexprCteConstBool (value : Bool) : Query D (CteOp Op) := .node (.other (.scalarConst value)) []

/-- `CPredicateUtils::PexprDisjunction` (CPredicateUtils.cpp:747): FALSE is left out, and TRUE
    makes the whole disjunction TRUE. -/
def PexprDisjunction (pdrgpexpr : List (Query D (CteOp Op))) : Query D (CteOp Op) :=
  if pdrgpexpr.any (FScalarConstBool true) then PexprCteConstBool true
  else
    match pdrgpexpr.filter (!FScalarConstBool false ·) with
    | [] => PexprCteConstBool false
    | [pexpr] => pexpr
    | pdrgpexprFinal => .node (.scalarBoolOp .or) pdrgpexprFinal

/-- The scalar operators among the others. They compute a value from the values of their children;
    those that are not volatile functions always the same one. -/
structure CteScalars (S : QuerySemantics D G Op) where
  FScalar : Op → Bool
  /-- Whether a function, `CScalarFunc`, is volatile. -/
  FVolatile : Op → Option Bool
  value : ∀ pop vs env, FScalar pop = true → (∀ v ∈ vs, ∃ x, v env = .value x) →
    ∃ x, S.other pop vs env = .value x
  stable : ∀ pop vs vs' env env', FScalar pop = true → FVolatile pop ≠ some true →
    vs.map (fun v => v env) = vs'.map (fun v => v env') → S.other pop vs env = S.other pop vs' env'

namespace CteScalars

variable (sc : CteScalars S)

/-- Whether an operator is a function, and a volatile one. -/
def stability : QueryOp D (CteOp Op) → Option Bool
  | .other (.other pop) => sc.FVolatile pop
  | _ => none

/-- `CPredicateUtils::FContainsVolatileFunction` (CPredicateUtils.cpp:2557), which does not look at
    the arguments of a function. -/
def FContainsVolatileFunction (pexpr : Query D (CteOp Op)) : Bool :=
  pexpr.fold fun pop below => match sc.stability pop with
    | some volatile => volatile
    | none => below.any id

/-- No volatile function, also not in the arguments of another one. -/
inductive Stable : Query D (CteOp Op) → Prop
  | node {pop : QueryOp D (CteOp Op)} {l : List (Query D (CteOp Op))}
    (own : sc.stability pop ≠ some true) (children : ∀ e ∈ l, Stable e) : Stable (.node pop l)

/-- The scalar expressions without subqueries. -/
inductive Scalar : Query D (CteOp Op) → Prop
  | ident (colref : CColRef) : Scalar (.node (.scalarIdent colref) [])
  | cmp {mdidOp : ℕ} {left right : Query D (CteOp Op)} (hleft : Scalar left)
    (hright : Scalar right) : Scalar (.node (.scalarCmp mdidOp) [left, right])
  | boolOp {eboolop : EBoolOperator} {l : List (Query D (CteOp Op))}
    (children : ∀ e ∈ l, Scalar e) : Scalar (.node (.scalarBoolOp eboolop) l)
  | const (value : Bool) : Scalar (PexprCteConstBool value)
  | other {pop : Op} {l : List (Query D (CteOp Op))} (scalar : sc.FScalar pop = true)
    (children : ∀ e ∈ l, Scalar e) : Scalar (.node (.other (.other pop)) l)

variable {sc}

variable {e : Query D (CteOp Op)}

/-- Scalar expressions read no consumer. -/
theorem Scalar.sameResult (h : Scalar sc e) (C C' : Contents D) :
    SameResult S C C' e := by
  induction h with
  | ident colref | const value => exact sameResult_node (by simp) (by simp)
  | cmp _ _ hleft hright => exact sameResult_node (by simp) (by simp [hleft, hright])
  | boolOp _ ih | other _ _ ih => exact sameResult_node (by simp) ih

theorem mapM_value (vs : List (Env D G → Result D)) (env : Env D G)
    (h : ∀ v ∈ vs, ∃ x, v env = .value x) :
    ∃ xs, vs.mapM (fun v => (v env).value?) = some xs := by
  induction vs with
  | nil => exact ⟨[], rfl⟩
  | cons v vs ih =>
    obtain ⟨x, hx⟩ := h v List.mem_cons_self
    obtain ⟨xs, hxs⟩ := ih fun w hw => h w (List.mem_cons_of_mem _ hw)
    exact ⟨x :: xs, by rw [List.mapM_cons, hx, hxs]; rfl⟩

theorem Scalar.exists_value (h : Scalar sc e) (C : Contents D)
    (env : Env D G) : ∃ x, eval (S.ctes C) e env = .value x := by
  induction h with
  | ident colref => exact ⟨_, by rw [eval_node]; rfl⟩
  | cmp _ _ hleft hright =>
    obtain ⟨l, hl⟩ := hleft
    obtain ⟨r, hr⟩ := hright
    exact ⟨_, by
      rw [eval_node, List.map_cons, List.map_cons, List.map_nil]
      simp only [QuerySemantics.op, hl, hr, Result.value?_value]
      rfl⟩
  | @boolOp eboolop l _ ih =>
    obtain ⟨xs, hxs⟩ := mapM_value (l.map (eval (S.ctes C))) env
      (by simpa using ih)
    exact ⟨_, by
      rw [eval_node]
      simp only [QuerySemantics.op, hxs]
      rfl⟩
  | const value => exact ⟨_, by rw [PexprCteConstBool, eval_node]; rfl⟩
  | @other pop l scalar _ ih =>
    obtain ⟨x, hx⟩ := sc.value pop (l.map (eval (S.ctes C))) env scalar (by simpa using ih)
    exact ⟨x, by rw [eval_node]; exact hx⟩

theorem Scalar.remap (h : Scalar sc e) (f : CColRef → CColRef) :
    Scalar sc (PexprCopyWithRemappedColumns f e) := by
  unfold PexprCopyWithRemappedColumns
  induction h with
  | ident colref => exact .ident (f colref)
  | cmp _ _ hleft hright => rw [CExpression.fold_node]; exact .cmp hleft hright
  | boolOp _ ih => rw [CExpression.fold_node]; exact .boolOp (by simpa using ih)
  | const value => exact .const value
  | other scalar _ ih => rw [CExpression.fold_node]; exact .other scalar (by simpa using ih)

theorem mapM_map_env {β : Type} (f : Result D → Option β) (vs : List (Env D G → Result D))
    (env : Env D G) :
    vs.mapM (fun v => f (v env)) = (vs.map fun v => v env).mapM f := List.mapM_map.symm

variable {l : List (Query D (CteOp Op))}

/-- The values of the children, after the columns are exchanged. -/
theorem children_eq {g : Query D (CteOp Op) → Query D (CteOp Op)} {C : Contents D}
    {env env' : Env D G} (h : ∀ e ∈ l, eval (S.ctes C) (g e) env' = eval (S.ctes C) e env) :
    ((l.map g).map (eval (S.ctes C))).map (fun v => v env') =
      (l.map (eval (S.ctes C))).map fun v => v env := by
  rw [List.map_map, List.map_map, List.map_map]
  exact List.map_congr_left h

theorem usedColumns_child {pop : QueryOp D (CteOp Op)}
    (he : e ∈ l) : UsedColumns e ⊆ UsedColumns (.node pop l) := by
  intro c hc
  have hflat : c ∈ (l.map UsedColumns).flatten :=
    List.mem_flatten.2 ⟨_, List.mem_map_of_mem he, hc⟩
  rw [UsedColumns, CExpression.fold_node]
  cases pop with
  | scalarIdent colref => exact List.mem_cons_of_mem _ hflat
  | _ => exact hflat

/-- **A scalar expression over other columns** has the value that it had before on the row with
the columns exchanged. -/
theorem Scalar.eval_remap (h : Scalar sc e) (hstable : Stable sc e) {f : CColRef → CColRef}
    (env env' : Env D G) (hrow : ∀ c ∈ UsedColumns e, env'.row (f c) = env.row c) (C : Contents D) :
    eval (S.ctes C) (PexprCopyWithRemappedColumns f e) env' = eval (S.ctes C) e env := by
  unfold PexprCopyWithRemappedColumns
  induction h with
  | ident colref =>
    rw [CExpression.fold_node, eval_node, eval_node]
    exact congrArg Result.value (hrow colref (by simp [UsedColumns]))
  | @cmp mdidOp left right _ _ hleft hright =>
    obtain ⟨-, hchildren⟩ := hstable
    have hl := hleft (hchildren left (by simp)) fun c hc => hrow c (usedColumns_child (by simp) hc)
    have hr := hright (hchildren right (by simp)) fun c hc =>
      hrow c (usedColumns_child (by simp) hc)
    rw [CExpression.fold_node, eval_node, eval_node]
    simp only [List.map_cons, List.map_nil, QuerySemantics.op, hl, hr]
  | @boolOp eboolop l _ ih =>
    obtain ⟨-, hchildren⟩ := hstable
    rw [CExpression.fold_node, eval_node, eval_node]
    simp only [QuerySemantics.op]
    have hsame := children_eq (fun e he => ih e he (hchildren e he) fun c hc =>
      hrow c (usedColumns_child he hc))
    rw [mapM_map_env, hsame, ← mapM_map_env]
  | const value => rfl
  | @other pop l scalar _ ih =>
    obtain ⟨hown, hchildren⟩ := hstable
    rw [CExpression.fold_node, eval_node, eval_node]
    exact sc.stable pop _ _ _ _ scalar hown (children_eq fun e he => ih e he (hchildren e he)
      fun c hc => hrow c (usedColumns_child he hc))

/-! ## Disjunctions -/

theorem isTrue_const (C : Contents D) {value : Bool} (h : FScalarConstBool value e = true)
    (env : Env D G) :
    S.isTrue (eval (S.ctes C) e env) = value := by
  match e, h with
  | .node (.other (.scalarConst v)) l, h =>
    rw [eval_node]
    show (S.truth (S.ofTruth (some v)) == some true) = value
    rw [S.truth_ofTruth, ← eq_of_beq h]
    cases v <;> rfl

theorem isTrue_or (h : ∀ e ∈ l, Scalar sc e) (C : Contents D)
    (env : Env D G) : S.isTrue (eval (S.ctes C) (.node (.scalarBoolOp .or) l) env) = true ↔
      ∃ e ∈ l, S.isTrue (eval (S.ctes C) e env) = true := by
  let g : Query D (CteOp Op) → Datum D := fun e => ((eval (S.ctes C) e env).value?).getD ⊥
  have hg : ∀ e ∈ l, (eval (S.ctes C) e env).value? = some (g e) := by
    intro e he
    obtain ⟨x, hx⟩ := (h e he).exists_value C env
    simp [g, hx]
  have hvalues : (l.map (eval (S.ctes C))).mapM (fun v => (v env).value?) = some (l.map g) := by
    rw [List.mapM_map]
    exact mapM_eq_map hg
  have hisTrue : ∀ e ∈ l, (S.isTrue (eval (S.ctes C) e env) = true ↔
      S.truth (g e) = some true) := by
    intro e he
    rw [QuerySemantics.isTrue, hg e he, Option.bind_some, beq_iff_eq]
  rw [eval_node]
  simp only [QuerySemantics.op, hvalues]
  show (S.truth (S.ofTruth (Truth.any ((l.map g).map S.truth))) == some true) = true ↔ _
  rw [S.truth_ofTruth, beq_iff_eq, ← Truth.holds_false_iff, Truth.holds_any]
  simp only [List.mem_map, exists_exists_and_eq_and, Truth.holds_false_iff]
  exact ⟨fun ⟨e, he, ht⟩ => ⟨e, he, (hisTrue e he).2 ht⟩,
    fun ⟨e, he, ht⟩ => ⟨e, he, (hisTrue e he).1 ht⟩⟩

/-- **A disjunction is true when one of the predicates is.** -/
theorem isTrue_pexprDisjunction (h : ∀ e ∈ l, Scalar sc e) (C : Contents D) (env : Env D G) :
    S.isTrue (eval (S.ctes C) (PexprDisjunction l) env) = true ↔
      ∃ e ∈ l, S.isTrue (eval (S.ctes C) e env) = true := by
  have hconst : ∀ value, S.isTrue (eval (S.ctes C) (PexprCteConstBool value) env) = value :=
    fun value => isTrue_const C (by simp [PexprCteConstBool, FScalarConstBool]) env
  unfold PexprDisjunction
  split_ifs with htrue
  · obtain ⟨e, he, hconstTrue⟩ := List.any_eq_true.1 htrue
    rw [hconst]
    exact ⟨fun _ => ⟨e, he, isTrue_const C hconstTrue env⟩, fun _ => rfl⟩
  · have hskip : (∃ e ∈ l, S.isTrue (eval (S.ctes C) e env) = true) ↔
        ∃ e ∈ l.filter (!FScalarConstBool false ·), S.isTrue (eval (S.ctes C) e env) = true := by
      refine ⟨fun ⟨e, he, hisTrue⟩ => ⟨e, List.mem_filter.2 ⟨he, ?_⟩, hisTrue⟩,
        fun ⟨e, he, hisTrue⟩ => ⟨e, (List.mem_filter.1 he).1, hisTrue⟩⟩
      cases hfalse : FScalarConstBool false e with
      | false => rfl
      | true => rw [isTrue_const C hfalse env] at hisTrue; cases hisTrue
    have hscalar : ∀ e ∈ l.filter (!FScalarConstBool false ·), Scalar sc e :=
      fun e he => h e (List.mem_filter.1 he).1
    rw [hskip]
    split
    · rename_i hnone
      rw [hconst, hnone]
      simp
    · rename_i hone
      rw [hone]
      simp
    · exact isTrue_or hscalar C env

end CteScalars

end Query

end BossOptimizer

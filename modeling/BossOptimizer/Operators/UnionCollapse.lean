import BossOptimizer.Lib.Unions
import BossOptimizer.Operators.QueryExpr

/-!
# Collapsing unions: `PexprCollapseUnionUnionAll` (CExpressionPreprocessor.cpp:1251)

The children of a UNION below a UNION, and of a UNION ALL below a UNION ALL, become children of the
upper one. Each operator has an array of output columns and, for each child, an array of the child's
columns that feed them; the arrays of the grandchildren are read through the positions that the
columns the upper operator expects have in the output of the lower one.
-/

namespace BossOptimizer

/-- `EopLogicalUnion` and `EopLogicalUnionAll`. -/
inductive EUnion where
  | union
  | unionAll
  deriving DecidableEq, Repr

/-- `CLogicalUnion` and `CLogicalUnionAll`, and all other operators. -/
inductive UnionOp (Op : Type) where
  | setOp (eopid : EUnion) (m_pdrgpcrOutput : List CColRef)
      (m_pdrgpdrgpcrInput : List (List CColRef))
  | other (pop : Op)

namespace EUnion

/-- UNION removes duplicates. -/
def removes : EUnion → Bool
  | union => true
  | unionAll => false

end EUnion

variable {D G Op : Type}

/-! ## Meaning -/

section Meaning

variable [DecidableEq D]

open Result in
/-- A row of a union has the values of the input columns of one child in the output columns. -/
def UnionOp.eval (S : QuerySemantics D G Op) :
    UnionOp Op → List (Env D G → Result D) → Env D G → Result D
  | .setOp eopid out input, children, env => ofOption do
    let rels ← children.mapM fun child => (child env).rows?
    let tuples := List.zipWith (fun rows cols => rows.map fun row => cols.map row) rels input
    some (.relation ((Unions.distinct eopid.removes tuples.flatten).map fun vals =>
      assign out vals env.row))
  | .other pop, children, env => S.other pop children env

/-- The meaning of the queries with unions. -/
def QuerySemantics.unions (S : QuerySemantics D G Op) : QuerySemantics D G (UnionOp Op) where
  truth := S.truth
  ofTruth := S.ofTruth
  truth_ofTruth := S.truth_ofTruth
  cmp := S.cmp
  other := UnionOp.eval S

end Meaning

namespace Query

/-! ## The pass -/

/-- The children of a set operation with their input columns; the arrays have the same size. -/
def withInputs (pdrgpexpr : List (Query D (UnionOp Op)))
    (pdrgpdrgpcrInput : List (List CColRef)) :
    Option (List (Query D (UnionOp Op) × List CColRef)) :=
  if pdrgpexpr.length = pdrgpdrgpcrInput.length then some (pdrgpexpr.zip pdrgpdrgpcrInput) else none

/-- `CDynamicPtrArray::IndexOf`, `none` if it is `gpos::ulong_max`. -/
def IndexOf (pdrgpcr : List CColRef) (colref : CColRef) : Option ℕ :=
  if colref ∈ pdrgpcr then some (pdrgpcr.idxOf colref) else none

/-- `CPredicateUtils::FCollapsibleChildUnionUnionAll` (CPredicateUtils.cpp:2710), of the child. -/
def FCollapsibleChildUnionUnionAll (eopid : EUnion) : Query D (UnionOp Op) → Bool
  | .node (.other (.setOp eopidChild _ _)) _ => eopidChild == eopid
  | _ => false

/-- `CPredicateUtils::CollectGrandChildrenUnionUnionAll` (CPredicateUtils.cpp:2643), of the child
    and the columns that are expected of it. -/
def CollectGrandChildrenUnionUnionAll (pexprChild : Query D (UnionOp Op))
    (pdrgpcrInputExpected : List CColRef) :
    Option (List (Query D (UnionOp Op) × List CColRef)) :=
  match pexprChild with
  | .node (.other (.setOp _ pdrgpcrOutputChild pdrgdrgpcrChild)) pdrgpexprGrandchild => do
    let pdrgpul ← pdrgpcrInputExpected.mapM (IndexOf pdrgpcrOutputChild)
    let grandchildren ← withInputs pdrgpexprGrandchild pdrgdrgpcrChild
    grandchildren.mapM fun p => do
      let pdrgpcrNew ← pdrgpul.mapM fun ulPos => p.2[ulPos]?
      some (p.1, pdrgpcrNew)
  | _ => none

/-- The loop over the children of a set operation. -/
def collapseChildren (eopid : EUnion) (children : List (Query D (UnionOp Op) × List CColRef)) :
    Option (List (Query D (UnionOp Op) × List CColRef)) := do
  let pieces ← children.mapM fun p =>
    if FCollapsibleChildUnionUnionAll eopid p.1 then CollectGrandChildrenUnionUnionAll p.1 p.2
    else some [p]
  some pieces.flatten

/-- What is done with an operator whose children are processed. -/
def collapseNode : QueryOp D (UnionOp Op) → List (Query D (UnionOp Op)) →
    Option (Query D (UnionOp Op))
  | .other (.setOp eopid out input), pdrgpexpr =>
    if pdrgpexpr.any (FCollapsibleChildUnionUnionAll eopid) then do
      let children ← withInputs pdrgpexpr input
      let collapsed ← collapseChildren eopid children
      some (.node (.other (.setOp eopid out (collapsed.map (·.2)))) (collapsed.map (·.1)))
    else some (.node (.other (.setOp eopid out input)) pdrgpexpr)
  | pop, pdrgpexpr => some (.node pop pdrgpexpr)

mutual

/-- `CExpressionPreprocessor::PexprCollapseUnionUnionAll` (CExpressionPreprocessor.cpp:1251). -/
def PexprCollapseUnionUnionAll : Query D (UnionOp Op) → Option (Query D (UnionOp Op))
  | .node pop pdrgpexpr => do
    let pdrgpexprNew ← collapseEach pdrgpexpr
    collapseNode pop pdrgpexprNew

def collapseEach : List (Query D (UnionOp Op)) → Option (List (Query D (UnionOp Op)))
  | [] => some []
  | pexpr :: pdrgpexpr => do
    let pexprNew ← PexprCollapseUnionUnionAll pexpr
    let pdrgpexprNew ← collapseEach pdrgpexpr
    some (pexprNew :: pdrgpexprNew)

end

/-! ## Well-formed set operations -/

/-- `PdrgpcrOutput` of a union. -/
def PdrgpcrOutput : Query D (UnionOp Op) → Option (List CColRef)
  | .node (.other (.setOp _ out _)) _ => some out
  | _ => none

/-- Every child has an input array of the size of the output array. -/
def Fits : QueryOp D (UnionOp Op) → List (Query D (UnionOp Op)) → Prop
  | .other (.setOp _ out input), l =>
    l.length = input.length ∧ ∀ cols ∈ input, cols.length = out.length
  | _, _ => True

/-- The input columns of a union are output columns of the children; only what this says of
    children that are unions matters here. -/
def Local : QueryOp D (UnionOp Op) → List (Query D (UnionOp Op)) → Prop
  | .other (.setOp _ _ input), l =>
    ∀ p ∈ l.zip input, ∀ out, PdrgpcrOutput p.1 = some out → p.2 ⊆ out
  | _, _ => True

inductive WellFormed : Query D (UnionOp Op) → Prop
  | node {pop : QueryOp D (UnionOp Op)} {pdrgpexpr : List (Query D (UnionOp Op))}
    (fits : Fits pop pdrgpexpr) (isLocal : Local pop pdrgpexpr)
    (children : ∀ pexpr ∈ pdrgpexpr, WellFormed pexpr) : WellFormed (.node pop pdrgpexpr)

/-- The columns of a child that feed output columns of an operator. -/
def through (out old cols : List CColRef) : List CColRef :=
  cols.map fun c => old.getD (out.idxOf c) c

mutual

/-- The expressions below the unions at the top, each with the columns that feed the given ones. -/
def feeds (cols : List CColRef) : Query D (UnionOp Op) → List (Query D (UnionOp Op) × List CColRef)
  | .node (.other (.setOp _ out input)) l => feedsEach cols out l input
  | .node pop l => [(.node pop l, cols)]

def feedsEach (cols out : List CColRef) : List (Query D (UnionOp Op)) →
    List (List CColRef) → List (Query D (UnionOp Op) × List CColRef)
  | pexpr :: l, old :: input => feeds (through out old cols) pexpr ++ feedsEach cols out l input
  | _, _ => []

end

/-! ## The grandchildren -/

attribute [local simp] PexprCollapseUnionUnionAll collapseEach feeds feedsEach in
theorem collapseEach_eq_mapM (l : List (Query D (UnionOp Op))) :
    collapseEach l = l.mapM PexprCollapseUnionUnionAll := by
  induction l with
  | nil => rfl
  | cons e l ih => rw [collapseEach, ih, List.mapM_cons]; rfl

theorem feedsEach_eq_flatMap (cols out : List CColRef) (l : List (Query D (UnionOp Op)))
    (input : List (List CColRef)) :
    feedsEach cols out l input =
      (l.zip input).flatMap fun p => feeds (through out p.2 cols) p.1 := by
  induction l generalizing input with
  | nil => cases input <;> rfl
  | cons e l ih =>
    cases input with
    | nil => rfl
    | cons old input => rw [feedsEach, ih, List.zip_cons_cons, List.flatMap_cons]

/-- The grandchildren below a child with the columns that are expected of it. -/
def grandchildren : Query D (UnionOp Op) → List CColRef →
    List (Query D (UnionOp Op) × List CColRef)
  | .node (.other (.setOp _ out input)) l, cols =>
    (l.zip input).map fun p => (p.1, through out p.2 cols)
  | _, _ => []

/-- What a child becomes. -/
def piece (eopid : EUnion) (p : Query D (UnionOp Op) × List CColRef) :
    List (Query D (UnionOp Op) × List CColRef) :=
  if FCollapsibleChildUnionUnionAll eopid p.1 then grandchildren p.1 p.2 else [p]

/-- `Fits` of the root. -/
def FitsRoot : Query D (UnionOp Op) → Prop
  | .node pop l => Fits pop l

theorem indexOf_of_mem {out : List CColRef} {c : CColRef} (h : c ∈ out) :
    IndexOf out c = some (out.idxOf c) := if_pos h

/-- The positions of the expected columns are found, and name columns of the grandchildren. -/
theorem collectGrandChildren_eq {eopid : EUnion} {pexprChild : Query D (UnionOp Op)}
    {cols : List CColRef} (hfits : FitsRoot pexprChild)
    (hcollapsible : FCollapsibleChildUnionUnionAll eopid pexprChild = true)
    (hlocal : ∀ out, PdrgpcrOutput pexprChild = some out → cols ⊆ out) :
    CollectGrandChildrenUnionUnionAll pexprChild cols = some (grandchildren pexprChild cols) := by
  match pexprChild, hcollapsible with
  | .node (.other (.setOp eopid' out input)) l, _ =>
    obtain ⟨hlen, hsizes⟩ := hfits
    have hsub : cols ⊆ out := hlocal out rfl
    have hpos : cols.mapM (IndexOf out) = some (cols.map fun c => out.idxOf c) :=
      mapM_eq_map fun c hc => indexOf_of_mem (hsub hc)
    have hnew : (l.zip input).mapM (fun p => do
        let pdrgpcrNew ← (cols.map fun c => out.idxOf c).mapM fun ulPos => p.2[ulPos]?
        some (p.1, pdrgpcrNew)) = some ((l.zip input).map fun p => (p.1, through out p.2 cols)) := by
      refine mapM_eq_map fun p hp => ?_
      have hread : (cols.map fun c => out.idxOf c).mapM (fun ulPos => p.2[ulPos]?) =
          some (through out p.2 cols) := by
        rw [List.mapM_map]
        refine mapM_eq_map fun c hc => ?_
        have hidx : out.idxOf c < p.2.length := by
          rw [hsizes p.2 (List.of_mem_zip hp).2]
          exact List.idxOf_lt_length_iff.2 (hsub hc)
        simp [hidx]
      rw [hread]
      rfl
    simp only [CollectGrandChildrenUnionUnionAll, hpos, withInputs, hlen, if_true,
      Option.bind_eq_bind, Option.bind_some]
    exact hnew

theorem collapseChildren_eq {eopid : EUnion}
    {children : List (Query D (UnionOp Op) × List CColRef)}
    (hfits : ∀ p ∈ children, FitsRoot p.1)
    (hlocal : ∀ p ∈ children, ∀ out, PdrgpcrOutput p.1 = some out → p.2 ⊆ out) :
    collapseChildren eopid children = some (children.flatMap (piece eopid)) := by
  have hpieces : children.mapM (fun p =>
      if FCollapsibleChildUnionUnionAll eopid p.1 then CollectGrandChildrenUnionUnionAll p.1 p.2
      else some [p]) = some (children.map (piece eopid)) := by
    refine mapM_eq_map fun p hp => ?_
    unfold piece
    split_ifs with hcollapsible
    · exact collectGrandChildren_eq (hfits p hp) hcollapsible (hlocal p hp)
    · rfl
  rw [collapseChildren, hpieces]
  rfl

/-- An operator, with its grandchildren in the place of the children that are collapsed. -/
def collapsed : QueryOp D (UnionOp Op) → List (Query D (UnionOp Op)) → Query D (UnionOp Op)
  | .other (.setOp eopid out input), l =>
    if l.any (FCollapsibleChildUnionUnionAll eopid) then
      let children := (l.zip input).flatMap (piece eopid)
      .node (.other (.setOp eopid out (children.map (·.2)))) (children.map (·.1))
    else .node (.other (.setOp eopid out input)) l
  | pop, l => .node pop l

theorem collapseNode_eq {pop : QueryOp D (UnionOp Op)} {l : List (Query D (UnionOp Op))}
    (hfits : Fits pop l) (hlocal : Local pop l) (hroots : ∀ e ∈ l, FitsRoot e) :
    collapseNode pop l = some (collapsed pop l) := by
  unfold collapsed
  split
  · rw [collapseNode]
    split_ifs with hany
    · rw [withInputs, if_pos hfits.1, Option.bind_eq_bind, Option.bind_some,
        collapseChildren_eq (fun p hp => hroots p.1 (List.of_mem_zip hp).1) hlocal]
      rfl
    · rfl
  · rename_i hother
    unfold collapseNode
    split
    · exact absurd rfl (hother _ _ _)
    · rfl

theorem zip_map_fst_snd {α β : Type} (l : List (α × β)) : (l.map (·.1)).zip (l.map (·.2)) = l := by
  induction l with
  | nil => rfl
  | cons p l ih => rw [List.map_cons, List.map_cons, List.zip_cons_cons, ih]

/-! ## The rows -/

section Rows

variable [DecidableEq D] (S : QuerySemantics D G Op)

/-- The values that a child feeds to an operator. -/
def tuples (env : Env D G) (p : Query D (UnionOp Op) × List CColRef) :
    Option (List (List (Datum D))) :=
  (eval S.unions p.1 env).rows?.map fun rows => rows.map fun row => p.2.map row

theorem mapM_map_of {α β γ : Type} {f : α → Option β} {f' : α → Option γ} {g : β → γ}
    {as : List α} (h : ∀ a ∈ as, f' a = (f a).map g) :
    as.mapM f' = (as.mapM f).map (List.map g) := by
  induction as with
  | nil => rfl
  | cons a as ih =>
    rw [List.mapM_cons, List.mapM_cons, h a List.mem_cons_self,
      ih fun b hb => h b (List.mem_cons_of_mem _ hb)]
    cases f a with
    | none => rfl
    | some b => cases as.mapM f <;> rfl

theorem mapM_zip {α β γ δ : Type} (f : α → Option β) (g : β → γ → δ) {as : List α} {cs : List γ}
    (h : as.length = cs.length) :
    (as.mapM f).map (fun bs => List.zipWith g bs cs) =
      (as.zip cs).mapM fun p => (f p.1).map (g · p.2) := by
  induction as generalizing cs with
  | nil => rfl
  | cons a as ih =>
    cases cs with
    | nil => simp at h
    | cons c cs =>
      rw [List.zip_cons_cons, List.mapM_cons, List.mapM_cons, ← ih (by simpa using h)]
      cases f a with
      | none => rfl
      | some b => cases as.mapM f <;> rfl

/-- The rows of a union, from the values that its children feed. -/
theorem eval_setOp (env : Env D G) (eopid : EUnion) (out : List CColRef)
    {input : List (List CColRef)} {l : List (Query D (UnionOp Op))}
    (hlen : l.length = input.length) :
    eval S.unions (.node (.other (.setOp eopid out input)) l) env =
      Result.ofOption (((l.zip input).mapM (tuples S env)).map fun ts =>
        .relation ((Unions.distinct eopid.removes ts.flatten).map fun vals =>
          assign out vals env.row)) := by
  have htuples := mapM_zip (fun pexpr => (eval S.unions pexpr env).rows?)
    (fun rows cols => rows.map fun row => cols.map row) hlen
  rw [eval_node]
  show Result.ofOption ((l.map (eval S.unions)).mapM (fun child => (child env).rows?) >>= _) = _
  rw [List.mapM_map, Function.comp_def]
  have hfold : (l.zip input).mapM (tuples S env) = (l.zip input).mapM fun p =>
      ((eval S.unions p.1 env).rows?).map fun rows => rows.map fun row => p.2.map row := rfl
  rw [hfold, ← htuples]
  cases l.mapM fun pexpr => (eval S.unions pexpr env).rows? <;> rfl

omit [DecidableEq D] in
/-- Reading the columns of a grandchild through those of its parent is reading the columns of the
    parent. -/
theorem map_through {out old cols : List CColRef} (hlen : old.length = out.length)
    (hsub : cols ⊆ out) (row env : Row D) :
    (through out old cols).map row = cols.map (assign out (old.map row) env) := by
  rw [through, List.map_map]
  refine List.map_congr_left fun c hc => ?_
  have hidx : out.idxOf c < old.length := hlen ▸ List.idxOf_lt_length_iff.2 (hsub hc)
  rw [assign_of_mem (hsub hc)]
  simp [hidx]

/-- A child and what it becomes feed the same values to the union. -/
theorem tuples_piece (eopid : EUnion) {p : Query D (UnionOp Op) × List CColRef}
    (hfits : FitsRoot p.1) (hlocal : ∀ out, PdrgpcrOutput p.1 = some out → p.2 ⊆ out)
    (env : Env D G) :
    Option.Rel (fun t ts => Unions.Same eopid.removes t ts.flatten) (tuples S env p)
      ((piece eopid p).mapM (tuples S env)) := by
  obtain ⟨pexpr, cols⟩ := p
  unfold piece
  split_ifs with hcollapsible
  · match pexpr, hcollapsible with
    | .node (.other (.setOp eopid' out input)) l, hcollapsible =>
      have heopid : eopid' = eopid := beq_iff_eq.1 hcollapsible
      subst heopid
      obtain ⟨hlen, hsizes⟩ := hfits
      have hsub : cols ⊆ out := hlocal out rfl
      -- the values that the grandchildren feed to the upper union, from those for the lower one
      have hgrand : (grandchildren (.node (.other (.setOp eopid' out input)) l) cols).mapM
          (tuples S env) = ((l.zip input).mapM (tuples S env)).map
            (List.map (List.map fun vals => cols.map (assign out vals env.row))) := by
        rw [grandchildren, List.mapM_map]
        have heach : ∀ q ∈ l.zip input, tuples S env (q.1, through out q.2 cols) =
            (tuples S env q).map (List.map fun vals => cols.map (assign out vals env.row)) := by
          intro q hq
          rw [tuples, tuples, Option.map_map]
          refine congrArg (Option.map · _) (funext fun rows => ?_)
          simp only [Function.comp_apply, List.map_map]
          exact List.map_congr_left fun row _ =>
            map_through (hsizes q.2 (List.of_mem_zip hq).2) hsub row env.row
        exact mapM_map_of heach
      rw [hgrand, tuples, eval_setOp S env eopid' out hlen]
      cases (l.zip input).mapM (tuples S env) with
      | none => exact .none
      | some ts =>
        refine .some ?_
        dsimp only
        rw [← List.map_flatten, List.map_map]
        exact Unions.same_map_distinct _ _
  · rw [List.mapM_cons, List.mapM_nil]
    cases tuples S env (pexpr, cols) with
    | none => exact .none
    | some t =>
      refine .some ?_
      rw [List.flatten_singleton]
      exact .refl t

/-- The children and what they become feed the same values, one child after the other. -/
theorem tuples_pieces (eopid : EUnion) {children : List (Query D (UnionOp Op) × List CColRef)}
    (hfits : ∀ p ∈ children, FitsRoot p.1)
    (hlocal : ∀ p ∈ children, ∀ out, PdrgpcrOutput p.1 = some out → p.2 ⊆ out) (env : Env D G) :
    Option.Rel (fun ts ts' => Unions.Same eopid.removes ts.flatten ts'.flatten)
      (children.mapM (tuples S env)) ((children.flatMap (piece eopid)).mapM (tuples S env)) := by
  induction children with
  | nil => exact .some (.refl _)
  | cons p children ih =>
    have hfirst := tuples_piece S eopid (hfits p (by simp)) (hlocal p (by simp)) env
    have hrest := ih (fun q hq => hfits q (by simp [hq])) fun q hq => hlocal q (by simp [hq])
    rw [List.flatMap_cons, List.mapM_append, List.mapM_cons]
    revert hfirst hrest
    generalize tuples S env p = t
    generalize (piece eopid p).mapM (tuples S env) = t'
    generalize children.mapM (tuples S env) = ts
    generalize (children.flatMap (piece eopid)).mapM (tuples S env) = ts'
    intro hfirst hrest
    cases hfirst with
    | none => exact .none
    | some hsame =>
      cases hrest with
      | none => exact .none
      | some hsame' =>
        refine .some ?_
        rw [List.flatten_cons, List.flatten_append]
        exact hsame.append hsame'

/-- An operator keeps its rows when the grandchildren are spliced in. -/
theorem eval_collapsed {pop : QueryOp D (UnionOp Op)} {l : List (Query D (UnionOp Op))}
    (hfits : Fits pop l) (hlocal : Local pop l) (hroots : ∀ e ∈ l, FitsRoot e) :
    eval S.unions (collapsed pop l) = eval S.unions (.node pop l) := by
  unfold collapsed
  split
  · rename_i eopid out input
    split_ifs with hany
    · obtain ⟨hlen, hsizes⟩ := hfits
      funext env
      have hrel := tuples_pieces S eopid (fun p hp => hroots p.1 (List.of_mem_zip hp).1) hlocal env
      rw [eval_setOp S env eopid out hlen, eval_setOp S env eopid out (by simp), zip_map_fst_snd]
      revert hrel
      generalize (l.zip input).mapM (tuples S env) = ts
      generalize ((l.zip input).flatMap (piece eopid)).mapM (tuples S env) = ts'
      intro hrel
      cases hrel with
      | none => rfl
      | some hsame => rw [Option.map_some, Option.map_some, hsame.distinct_eq]
    · rfl
  · rfl

end Rows

/-! ## The columns -/

/-- Only columns of the operator are fed through it. -/
theorem through_subset {out old cols : List CColRef} (hlen : old.length = out.length)
    (hsub : cols ⊆ out) : through out old cols ⊆ old := by
  intro c hc
  obtain ⟨d, hd, rfl⟩ := List.mem_map.1 hc
  have hidx : out.idxOf d < old.length := hlen ▸ List.idxOf_lt_length_iff.2 (hsub hd)
  simp [hidx]

theorem through_through {out old out' old' cols : List CColRef} (hlen : old.length = out.length)
    (hsub : cols ⊆ out) :
    through out (through out' old' old) cols = through out' old' (through out old cols) := by
  rw [through, through, through, through, List.map_map]
  refine List.map_congr_left fun c hc => ?_
  have hidx : out.idxOf c < old.length := hlen ▸ List.idxOf_lt_length_iff.2 (hsub hc)
  simp [hidx]

/-- The grandchildren feed the same columns as before. -/
theorem feeds_piece {eopid : EUnion} {p : Query D (UnionOp Op) × List CColRef}
    {out cols : List CColRef} (hlen : p.2.length = out.length) (hsub : cols ⊆ out) :
    (piece eopid p).flatMap (fun q => feeds (through out q.2 cols) q.1) =
      feeds (through out p.2 cols) p.1 := by
  obtain ⟨pexpr, old⟩ := p
  unfold piece
  split_ifs with hcollapsible
  · match pexpr, hcollapsible with
    | .node (.other (.setOp eopid' out' input)) l, _ =>
      rw [grandchildren, List.flatMap_map, feeds, feedsEach_eq_flatMap]
      exact List.flatMap_congr fun q _ => by rw [through_through hlen hsub]
  · simp

/-- The unions of the result have the sizes that they must have. -/
theorem fitsRoot_collapsed {pop : QueryOp D (UnionOp Op)} {l : List (Query D (UnionOp Op))}
    (hfits : Fits pop l) : FitsRoot (collapsed pop l) := by
  unfold collapsed
  split
  · rename_i eopid out input
    split_ifs with hany
    · refine ⟨by simp, fun cols hcols => ?_⟩
      obtain ⟨q, hq, rfl⟩ := List.mem_map.1 hcols
      obtain ⟨p, hp, hq⟩ := List.mem_flatMap.1 hq
      have hp2 : p.2.length = out.length := hfits.2 p.2 (List.of_mem_zip hp).2
      unfold piece at hq
      split_ifs at hq with hcollapsible
      · obtain ⟨pexpr, old⟩ := p
        match pexpr, hcollapsible with
        | .node (.other (.setOp eopid' out' input')) l', _ =>
          obtain ⟨r, _, rfl⟩ := List.mem_map.1 hq
          rw [through, List.length_map]
          exact hp2
      · rw [List.mem_singleton.1 hq]
        exact hp2
    · exact hfits
  · exact hfits

/-- The kind of the set operation at the root, and its output columns. -/
def rootSetOp : Query D (UnionOp Op) → Option (EUnion × List CColRef)
  | .node (.other (.setOp eopid out _)) _ => some (eopid, out)
  | _ => none

theorem pdrgpcrOutput_eq {e e' : Query D (UnionOp Op)} (h : rootSetOp e = rootSetOp e') :
    PdrgpcrOutput e = PdrgpcrOutput e' := by
  have houtput : ∀ e : Query D (UnionOp Op), PdrgpcrOutput e = (rootSetOp e).map (·.2) := by
    intro e
    unfold PdrgpcrOutput rootSetOp
    split <;> rfl
  rw [houtput, houtput, h]

theorem rootSetOp_collapsed (pop : QueryOp D (UnionOp Op)) (l : List (Query D (UnionOp Op))) :
    rootSetOp (collapsed pop l) = rootSetOp (.node pop l) := by
  unfold collapsed
  split
  · split_ifs <;> rfl
  · rfl

/-- Splicing the grandchildren in changes nothing of what feeds the columns. -/
theorem feeds_collapsed {eopid : EUnion} {out : List CColRef} {input : List (List CColRef)}
    {l : List (Query D (UnionOp Op))} (hfits : Fits (.other (.setOp eopid out input)) l)
    {cols : List CColRef} (hsub : cols ⊆ out) :
    feeds cols (collapsed (.other (.setOp eopid out input)) l) = feedsEach cols out l input := by
  rw [collapsed]
  split_ifs with hany
  · rw [feeds, feedsEach_eq_flatMap, zip_map_fst_snd, List.flatMap_assoc, feedsEach_eq_flatMap]
    exact List.flatMap_congr fun p hp => feeds_piece (hfits.2 p.2 (List.of_mem_zip hp).2) hsub
  · rw [feeds]

/-- An expression below the unions and what becomes of it, which feeds the same columns. -/
def Corresponds (p p' : Query D (UnionOp Op) × List CColRef) : Prop :=
  PexprCollapseUnionUnionAll p.1 = some p'.1 ∧ p'.2 = p.2

/-- The columns are output columns, if the expression is a union. -/
def Outputs (cols : List CColRef) (pexpr : Query D (UnionOp Op)) : Prop :=
  ∀ out, PdrgpcrOutput pexpr = some out → cols ⊆ out

theorem corresponds_feedsEach {cols out : List CColRef} {input : List (List CColRef)}
    {l l' : List (Query D (UnionOp Op))}
    (h : List.Forall₂ (fun e e' => ∀ cols, Outputs cols e →
      List.Forall₂ Corresponds (feeds cols e) (feeds cols e')) l l')
    (houtputs : ∀ p ∈ l.zip input, Outputs (through out p.2 cols) p.1) :
    List.Forall₂ Corresponds (feedsEach cols out l input) (feedsEach cols out l' input) := by
  induction h generalizing input with
  | nil => exact .nil
  | @cons e e' l l' he _ ih =>
    cases input with
    | nil => exact .nil
    | cons old input =>
      rw [feedsEach, feedsEach]
      exact List.rel_append (he _ (houtputs (e, old) (by simp)))
        (ih fun p hp => houtputs p (by simp [hp]))

variable [DecidableEq D]

/-- **Collapsing unions keeps the query.** The pass returns the same set operation at the root, with
    the rows of the input, and every expression below the unions still feeds each output column from
    the same column. By induction on the query: the children are processed first. -/
theorem pexprCollapseUnionUnionAll_spec (S : QuerySemantics D G Op)
    {pexpr : Query D (UnionOp Op)} (h : WellFormed pexpr) :
    ∃ pexpr', PexprCollapseUnionUnionAll pexpr = some pexpr' ∧
      eval S.unions pexpr' = eval S.unions pexpr ∧ rootSetOp pexpr' = rootSetOp pexpr ∧
      FitsRoot pexpr' ∧ ∀ cols, Outputs cols pexpr →
        List.Forall₂ Corresponds (feeds cols pexpr) (feeds cols pexpr') := by
  induction h with
  | @node pop l hfits hlocal _ ih =>
    -- the processed children
    choose! f hf using ih
    have hl' : l.mapM PexprCollapseUnionUnionAll = some (l.map f) :=
      mapM_eq_map fun e he => (hf e he).1
    have hlen : (l.map f).length = l.length := List.length_map f
    have hfits' : Fits pop (l.map f) := by
      cases pop with
      | other pop =>
        cases pop with
        | setOp eopid out input => exact ⟨hlen.trans hfits.1, hfits.2⟩
        | other pop => trivial
      | _ => trivial
    have hlocal' : Local pop (l.map f) := by
      cases pop with
      | other pop =>
        cases pop with
        | setOp eopid out input =>
          intro p hp out' hout'
          rw [List.zip_map_left] at hp
          obtain ⟨q, hq, rfl⟩ := List.mem_map.1 hp
          refine hlocal q hq out' ?_
          rw [← pdrgpcrOutput_eq (hf q.1 (List.of_mem_zip hq).1).2.2.1]
          exact hout'
        | other pop => trivial
      | _ => trivial
    have hroots : ∀ e ∈ l.map f, FitsRoot e := by
      intro e he
      obtain ⟨c, hc, rfl⟩ := List.mem_map.1 he
      exact (hf c hc).2.2.2.1
    have hpass : PexprCollapseUnionUnionAll (.node pop l) = some (collapsed pop (l.map f)) := by
      rw [PexprCollapseUnionUnionAll, collapseEach_eq_mapM, hl', Option.bind_eq_bind,
        Option.bind_some, collapseNode_eq hfits' hlocal' hroots]
    refine ⟨collapsed pop (l.map f), hpass, ?_, ?_, fitsRoot_collapsed hfits', ?_⟩
    · rw [eval_collapsed S hfits' hlocal' hroots]
      exact eval_node_congr pop fun e he => (hf e he).2.1
    · rw [rootSetOp_collapsed]
      cases pop with
      | other pop => cases pop <;> rfl
      | _ => rfl
    · intro cols houtputs
      have hchildren : List.Forall₂ (fun e e' => ∀ cols, Outputs cols e →
          List.Forall₂ Corresponds (feeds cols e) (feeds cols e')) l (l.map f) := by
        rw [List.forall₂_map_right_iff, List.forall₂_same]
        exact fun e he => (hf e he).2.2.2.2
      match pop with
      | .other (.setOp eopid out input) =>
        have hsub : cols ⊆ out := houtputs out rfl
        rw [feeds_collapsed hfits' hsub, feeds]
        refine corresponds_feedsEach hchildren fun p hp out' hout' => ?_
        exact List.Subset.trans (through_subset (hfits.2 p.2 (List.of_mem_zip hp).2) hsub)
          (hlocal p hp out' hout')
      | .other (.other pop) => exact .cons ⟨hpass, rfl⟩ .nil
      | .scalarIdent _ | .scalarCmp _ | .scalarBoolOp _ | .scalarProjectList
      | .scalarProjectElement _ | .scalarSubquery _ _ _ | .scalarSubqueryExists
      | .scalarSubqueryNotExists | .scalarSubqueryAny _ _ | .scalarSubqueryAll _ _
      | .logicalProject | .logicalConstTableGet _ _ => exact .cons ⟨hpass, rfl⟩ .nil

/-- Columns of two tables and of two unions. -/
def unionCol (id : ℕ) : CColRef := ⟨id, true, true, true⟩

/-- `select b, a from (t union s) x(a, b) union s`. -/
def swappedUnions : Query ℕ (UnionOp Unit) :=
  let t := .node (.logicalConstTableGet [unionCol 1, unionCol 2] [[some 7, some 8]]) []
  let s := .node (.logicalConstTableGet [unionCol 3, unionCol 4] [[some 8, some 7]]) []
  .node (.other (.setOp .union [unionCol 7, unionCol 8]
      [[unionCol 6, unionCol 5], [unionCol 3, unionCol 4]]))
    [.node (.other (.setOp .union [unionCol 5, unionCol 6]
      [[unionCol 1, unionCol 2], [unionCol 3, unionCol 4]])) [t, s], s]

theorem wellFormed_swappedUnions : WellFormed swappedUnions := by
  have hleaf : ∀ out data, WellFormed (.node (.logicalConstTableGet out data) [] :
      Query ℕ (UnionOp Unit)) := fun out data =>
    .node trivial trivial fun e he => nomatch he
  refine .node ⟨rfl, by decide⟩ ?_ ?_
  · intro p hp out hout
    simp only [List.zip_cons_cons, List.zip_nil_right, List.mem_cons, List.not_mem_nil,
      or_false] at hp
    rcases hp with rfl | rfl
    · cases hout
      decide
    · cases hout
  · intro e he
    simp only [List.mem_cons, List.not_mem_nil, or_false] at he
    rcases he with rfl | rfl
    · refine .node ⟨rfl, by decide⟩ ?_ ?_
      · intro p hp out hout
        simp only [List.zip_cons_cons, List.zip_nil_right, List.mem_cons, List.not_mem_nil,
          or_false] at hp
        rcases hp with rfl | rfl <;> cases hout
      · intro e he
        simp only [List.mem_cons, List.not_mem_nil, or_false] at he
        rcases he with rfl | rfl <;> exact hleaf _ _
    · exact hleaf _ _

theorem pexprCollapseUnionUnionAll_spec_swapped :
    ∃ pexpr', PexprCollapseUnionUnionAll swappedUnions = some pexpr' ∧
      eval selections.unions pexpr' = eval selections.unions swappedUnions ∧
      rootSetOp pexpr' = rootSetOp swappedUnions ∧
      FitsRoot pexpr' ∧ ∀ cols, Outputs cols swappedUnions →
        List.Forall₂ Corresponds (feeds cols swappedUnions) (feeds cols pexpr') :=
  pexprCollapseUnionUnionAll_spec selections wellFormed_swappedUnions

end Query

end BossOptimizer

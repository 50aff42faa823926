import BossOptimizer.Xforms.SharedCtes

/-!
# Outer joins over shared common table expressions

`CXformExpandFullOuterJoin` and `CXformLeftOuter2InnerUnionAllLeftAntiSemiJoin` read the children of
an outer join twice: in one branch of a UNION ALL for the rows with a match, in the other one, under
new columns and padded with NULLs, for the rows without.

The full outer join is the union of a left outer join and of the inner rows without a match. The
left outer join is the union of an inner join and of the outer rows whose columns in the predicate
are those of no joined row. When the predicate uses no outer column, these are compared with one
row of an aggregate without grouping columns, which is there even if no rows have been joined.
-/

namespace BossOptimizer

variable {D : Type}

/-- A UNION ALL under the anchors of the common table expressions it reads. -/
structure ExpandedJoin (D : Type) where
  producers : List (CTEProducer D)
  pdrgpcrOutput : List CColRef
  /-- The columns of the second branch; those of the first one are the output columns. -/
  pdrgpcrSecond : List CColRef
  /-- Which column of the second branch stands for which column of the join. -/
  colref_mapping : ColRefMapping
  pexprFirst : XformExpr D
  pexprSecond : XformExpr D

namespace ExpandedJoin

def pexpr (this : ExpandedJoin D) : XformExpr D :=
  (this.producers.map (·.id)).foldr XformExpr.cteAnchor
    (.setOp .unionAll this.pdrgpcrOutput this.pdrgpcrOutput this.pdrgpcrSecond this.pexprFirst
      this.pexprSecond)

/-- The columns of the second branch stand for the output columns, position by position. -/
def Aligned (this : ExpandedJoin D) : Prop :=
  List.Forall₂ (fun c c' => (c, c') ∈ this.colref_mapping) this.pdrgpcrOutput this.pdrgpcrSecond

variable [LinearOrder D]

/-- The rows of the expansion, with the common table expressions computed first. -/
def rows (this : ExpandedJoin D) (ex : Engine D) (ctes : ℕ → List (List (Datum D)))
    (env : Row D) : List (Row D) :=
  this.pexpr.rows ex (contents ex env ctes this.producers) env

/-- The tuples of a UNION ALL are those of its branches, each on its own columns. -/
theorem tuplesOn_rows (this : ExpandedJoin D) (ex : Engine D) (ctes : ℕ → List (List (Datum D)))
    (env : Row D) (hnd : this.pdrgpcrOutput.Nodup)
    (hlen : this.pdrgpcrSecond.length = this.pdrgpcrOutput.length) :
    tuplesOn this.pdrgpcrOutput (this.rows ex ctes env) =
      tuplesOn this.pdrgpcrOutput
        (this.pexprFirst.rows ex (contents ex env ctes this.producers) env) ++
      tuplesOn this.pdrgpcrSecond
        (this.pexprSecond.rows ex (contents ex env ctes this.producers) env) := by
  have hanchors : ∀ (ids : List ℕ) (pexpr : XformExpr D) (ctes : ℕ → List (List (Datum D))),
      (ids.foldr XformExpr.cteAnchor pexpr).rows ex ctes env = pexpr.rows ex ctes env := by
    intro ids pexpr ctes
    induction ids with
    | nil => rfl
    | cons id ids ih => exact ih
  have hbranch : ∀ (cols : List CColRef) (l : List (Row D)),
      cols.length = this.pdrgpcrOutput.length → tuplesOn this.pdrgpcrOutput
        (l.map fun row => assign this.pdrgpcrOutput (cols.map row) env) = tuplesOn cols l := by
    intro cols l hlen
    rw [tuplesOn, tuplesOn, List.map_map]
    exact List.map_congr_left fun row _ => map_consumerRow hnd hlen
  rw [rows, pexpr, hanchors, XformExpr.rows, setOpRows, List.flatten_cons, List.flatten_cons,
    List.flatten_nil, List.append_nil, tuplesOn_append]
  exact congrArg₂ _ (hbranch _ _ rfl) (hbranch _ _ hlen)

/-- The expansion ends in an expression that returns the rows of the join, with aligned columns. -/
def Preserves (ex : Engine D) (ctes : ℕ → List (List (Datum D))) (env : Row D)
    (pexpr : XformExpr D) : Except CteFault (Option (ExpandedJoin D)) → Prop
  | .error _ => False
  | .ok none => True
  | .ok (some expanded) => expanded.Aligned ∧
    SameRows pexpr.outputColumns (expanded.rows ex ctes env) (pexpr.rows ex ctes env)

end ExpandedJoin

/-- What the factories of columns and common table expressions keep up: the children have older
    columns and read older common table expressions, and they share no columns. -/
structure Fresh (m_aul next_id : ℕ) (pexprLeft pexprRight : XformExpr D) : Prop where
  lt_left : ∀ c ∈ pexprLeft.outputColumns, c.id < m_aul
  lt_right : ∀ c ∈ pexprRight.outputColumns, c.id < m_aul
  disjoint : ∀ c ∈ pexprLeft.outputColumns, c ∉ pexprRight.outputColumns
  cte_left : ∀ id ∈ pexprLeft.cteIds, id < next_id
  cte_right : ∀ id ∈ pexprRight.cteIds, id < next_id

/-- A projection of NULLs (`CUtils::PexprLogicalProjectNulls`, CUtils.cpp:2137). -/
def PexprLogicalProjectNulls (pdrgpcrNulls : List CColRef) (pexpr : XformExpr D) : XformExpr D :=
  .project pexpr (pdrgpcrNulls.map fun colref => (colref, .const ⊥))

/-- `CXformUtils::PexprRemapColumns` (CXformUtils.cpp:4035). A column without a copy gets a new
    one. -/
def PexprRemapColumns (pexpr : XformScalar D) (colref_mapping : ColRefMapping) :
    Except CteFault (XformScalar D) :=
  if pexpr.usedColumns.all (· ∈ colref_mapping.map (·.1)) then
    .ok (pexpr.remap (PcrRemap colref_mapping))
  else .error .unboundColumn

theorem pexprRemapColumns_eq_ok_iff {pexpr pexprRemapped : XformScalar D}
    {colref_mapping : ColRefMapping} :
    PexprRemapColumns pexpr colref_mapping = .ok pexprRemapped ↔
      (∀ c ∈ pexpr.usedColumns, c ∈ colref_mapping.map (·.1)) ∧
        pexprRemapped = pexpr.remap (PcrRemap colref_mapping) := by
  unfold PexprRemapColumns
  split
  · next hall =>
    simp only [List.all_eq_true, decide_eq_true_eq] at hall
    rw [and_iff_right hall, Except.ok.injEq, eq_comm]
  · next hall =>
    simp only [List.all_eq_true, decide_eq_true_eq] at hall
    exact iff_of_false (by simp) fun h => hall h.1

theorem rows_pexprLogicalProjectNulls [LinearOrder D] {ex : Engine D}
    {ctes : ℕ → List (List (Datum D))} {env : Row D} (nulls : List CColRef) (pexpr : XformExpr D) :
    (PexprLogicalProjectNulls nulls pexpr).rows ex ctes env =
      (pexpr.rows ex ctes env).map fun row => assign nulls (nulls.map fun _ => ⊥) row := by
  simp [PexprLogicalProjectNulls, XformExpr.rows, XformOperand.eval, Function.comp_def]

/-! ## Full outer joins -/

namespace CXformExpandFullOuterJoin

/-- The expansion, from the columns of the children and the columns of the second branch. -/
def expanded (producerA producerB : CTEProducer D) (pexprScalar pexprScalarRight : XformScalar D)
    (pdrgpcrRightA pdrgpcrRightB pdrgpcrNulls : List CColRef) : ExpandedJoin D :=
  let pexprLASJ := XformExpr.join .leftAntiSemi (.cteConsumer producerB.id pdrgpcrRightB)
    (.cteConsumer producerA.id pdrgpcrRightA) pexprScalarRight
  let pexprProject := PexprLogicalProjectNulls pdrgpcrNulls pexprLASJ
  { producers := [producerA, producerB]
    pdrgpcrOutput := producerA.colref_array ++ producerB.colref_array
    -- the new columns of the project, then the columns of the anti-semi join
    pdrgpcrSecond := Pdrgpcr (pexprProject.outputColumns.filter (· ∉ pdrgpcrRightB)) ++
      pdrgpcrRightB
    colref_mapping := producerA.colref_array.zip pdrgpcrNulls ++
      producerB.colref_array.zip pdrgpcrRightB
    pexprFirst := .join .leftOuter (.cteConsumer producerA.id producerA.colref_array)
      (.cteConsumer producerB.id producerB.colref_array) pexprScalar
    pexprSecond := pexprProject }

/-- `CXformExpandFullOuterJoin::Transform` (CXformExpandFullOuterJoin.cpp:87). -/
def Transform (ulBelow : XformExpr D → ℕ) (m_aul next_id : ℕ) :
    XformExpr D → Except CteFault (Option (ExpandedJoin D))
  | .join .fullOuter pexprA pexprB pexprScalar => do
    let (producerA, m_aul) ←
      PexprAddCTEProducer ulBelow m_aul next_id (Pdrgpcr pexprA.outputColumns) pexprA
    let (producerB, m_aul) ←
      PexprAddCTEProducer ulBelow m_aul (next_id + 1) (Pdrgpcr pexprB.outputColumns) pexprB
    let pdrgpcrRightA := PdrgpcrCopy m_aul producerA.colref_array
    let m_aul := m_aul + pdrgpcrRightA.length
    let pdrgpcrRightB := PdrgpcrCopy m_aul producerB.colref_array
    let m_aul := m_aul + pdrgpcrRightB.length
    let pexprScalarRight ← PexprRemapColumns pexprScalar
      (producerA.colref_array.zip pdrgpcrRightA ++ producerB.colref_array.zip pdrgpcrRightB)
    let pdrgpcrNulls := newColumns CColumnFactory.PcrCreateOfType m_aul pdrgpcrRightA
    return some (expanded producerA producerB pexprScalar pexprScalarRight pdrgpcrRightA
      pdrgpcrRightB pdrgpcrNulls)
  | _ => .ok none

variable [LinearOrder D] {ex : Engine D} {ctes : ℕ → List (List (Datum D))} {env : Row D}
  {pexprA pexprB : XformExpr D} {pexprScalar pexprScalarRight : XformScalar D}
  {outA outB rightA rightB nulls : List CColRef}

/-- The two sides of the expansion: the columns of the children and the new columns of the second
    branch. -/
structure Columns (outA outB rightA rightB nulls : List CColRef) : Prop where
  nodupA : outA.Nodup
  nodupB : outB.Nodup
  nodup_rightA : rightA.Nodup
  nodup_rightB : rightB.Nodup
  nodup_nulls : nulls.Nodup
  length_rightA : outA.length = rightA.length
  length_rightB : outB.length = rightB.length
  length_nulls : outA.length = nulls.length
  disjoint : ∀ c ∈ outA, c ∉ outB
  disjoint_right : ∀ c ∈ rightB, c ∉ rightA
  disjoint_nulls : ∀ c ∈ rightB, c ∉ nulls

variable (h : Columns outA outB rightA rightB nulls)

section

include h

omit [LinearOrder D] in
/-- A joined row of consumers carries the rows of the children. -/
theorem Columns.merge_consumerRow (a b : Row D) : ∀ c ∈ outA ++ outB,
    merge outB (consumerRow outA outA env a) (consumerRow outB outB env b) c =
      merge outB a b c := by
  intro c hc
  by_cases hcB : c ∈ outB
  · rw [merge_of_mem hcB, merge_of_mem hcB, consumerRow_self h.nodupB hcB]
  · have hcA : c ∈ outA := (List.mem_append.1 hc).resolve_right hcB
    rw [merge_of_notMem hcB, merge_of_notMem hcB, consumerRow_self h.nodupA hcA]

omit [LinearOrder D] in
/-- Under the new columns it carries them, too. -/
theorem Columns.merge_consumerRow_right (a b : Row D) : ∀ c ∈ outA ++ outB,
    merge rightA (consumerRow outB rightB env b) (consumerRow outA rightA env a)
        (PcrRemap (outA.zip rightA ++ outB.zip rightB) c) = merge outB a b c := by
  set row := merge rightA (consumerRow outB rightB env b) (consumerRow outA rightA env a) with hrow
  have hA : rightA.map row = outA.map a := by
    rw [← @map_consumerRow _ _ _ env a h.nodup_rightA h.length_rightA]
    exact List.map_congr_left fun c hc => merge_of_mem hc
  have hB : rightB.map row = outB.map b := by
    rw [← @map_consumerRow _ _ _ env b h.nodup_rightB h.length_rightB]
    exact List.map_congr_left fun c hc => merge_of_notMem (h.disjoint_right c hc)
  have hfst : ∀ c : CColRef, c ∈ (outA.zip rightA).map (·.1) ↔ c ∈ outA := by
    intro c
    rw [List.map_fst_zip (by rw [h.length_rightA])]
  intro c hc
  by_cases hcA : c ∈ outA
  · rw [pcrRemap_append_of_mem ((hfst c).2 hcA), merge_of_notMem (h.disjoint c hcA)]
    exact apply_pcrRemap_zip h.nodupA h.length_rightA hA c hcA
  · have hcB : c ∈ outB := (List.mem_append.1 hc).resolve_left hcA
    rw [pcrRemap_append_of_notMem (mt (hfst c).1 hcA), merge_of_mem hcB]
    exact apply_pcrRemap_zip h.nodupB h.length_rightB hB c hcB

/-- The predicate of a joined row under the new columns. -/
theorem Columns.isTrue_right (hused : ∀ c ∈ pexprScalar.usedColumns, c ∈ outA ++ outB)
    (a b : Row D) :
    (pexprScalar.remap (PcrRemap (outA.zip rightA ++ outB.zip rightB))).isTrue ex.scalars
        (merge rightA (consumerRow outB rightB env b) (consumerRow outA rightA env a)) =
      pexprScalar.isTrue ex.scalars (merge outB a b) := by
  rw [XformScalar.isTrue, XformScalar.eval_remap, XformScalar.isTrue,
    XformScalar.eval_congr fun c hc => h.merge_consumerRow_right a b c (hused c hc)]

/-- The first branch: the left outer join of the children. -/
theorem Columns.first_branch (hused : ∀ c ∈ pexprScalar.usedColumns, c ∈ outA ++ outB)
    (rowsA rowsB : List (Row D)) :
    tuplesOn (outA ++ outB) (xformJoinRows ex.scalars .leftOuter pexprScalar outA outB
        (rowsA.map (consumerRow outA outA env)) (rowsB.map (consumerRow outB outB env))) =
      tuplesOn (outA ++ outB)
        (xformJoinRows ex.scalars .leftOuter pexprScalar outA outB rowsA rowsB) := by
  refine Joins.map_leftOuter (fun a _ b _ => ?_) (fun a _ b _ => ?_) fun a _ => ?_
  · exact XformScalar.isTrue_congr fun c hc => h.merge_consumerRow a b c (hused c hc)
  · exact List.map_congr_left (h.merge_consumerRow a b)
  · refine List.map_congr_left fun c hc => ?_
    by_cases hcB : c ∈ outB
    · rw [merge_of_mem hcB, merge_of_mem hcB]
    · have hcA : c ∈ outA := (List.mem_append.1 hc).resolve_right hcB
      rw [merge_of_notMem hcB, merge_of_notMem hcB, consumerRow_self h.nodupA hcA]

/-- The second branch: the rows of the inner child without a match, padded with NULLs. -/
theorem Columns.second_branch (hused : ∀ c ∈ pexprScalar.usedColumns, c ∈ outA ++ outB)
    (rowsA rowsB : List (Row D)) :
    tuplesOn (nulls ++ rightB) ((xformJoinRows ex.scalars .leftAntiSemi
        (pexprScalar.remap (PcrRemap (outA.zip rightA ++ outB.zip rightB))) rightB rightA
        (rowsB.map (consumerRow outB rightB env)) (rowsA.map (consumerRow outA rightA env))).map
          fun row => assign nulls (nulls.map fun _ => ⊥) row) =
      tuplesOn (outA ++ outB) ((rowsB.filter fun b => !rowsA.any fun a =>
        pexprScalar.isTrue ex.scalars (merge outB a b)).map (merge outA · nullRow)) := by
  have hkept : xformJoinRows ex.scalars .leftAntiSemi
      (pexprScalar.remap (PcrRemap (outA.zip rightA ++ outB.zip rightB))) rightB rightA
      (rowsB.map (consumerRow outB rightB env)) (rowsA.map (consumerRow outA rightA env)) =
      (rowsB.filter fun b => !rowsA.any fun a =>
        pexprScalar.isTrue ex.scalars (merge outB a b)).map (consumerRow outB rightB env) := by
    rw [xformJoinRows, List.filter_map]
    refine congrArg _ (List.filter_congr fun b _ => ?_)
    simp only [Function.comp_apply, List.any_map, Function.comp_def, h.isTrue_right hused]
  rw [hkept, tuplesOn, tuplesOn, List.map_map, List.map_map, List.map_map]
  refine List.map_congr_left fun b _ => ?_
  have hnulls : nulls.map (assign nulls (nulls.map fun _ => ⊥) (consumerRow outB rightB env b)) =
      nulls.map fun _ => (⊥ : Datum D) := by
    refine List.ext_getElem (by simp) fun i hi hi' => ?_
    rw [List.length_map] at hi
    rw [List.getElem_map]
    exact (assign_getElem h.nodup_nulls hi).trans (List.getD_eq_getElem _ _ hi')
  have hright : rightB.map (assign nulls (nulls.map fun _ => ⊥) (consumerRow outB rightB env b)) =
      outB.map b := by
    rw [← @map_consumerRow _ _ _ env b h.nodup_rightB h.length_rightB]
    exact List.map_congr_left fun c hc => assign_of_notMem (h.disjoint_nulls c hc)
  have hleft : outA.map (merge outA b nullRow) = nulls.map fun _ => (⊥ : Datum D) := by
    have hconst : outA.map (merge outA b nullRow) = outA.map fun _ => (⊥ : Datum D) :=
      List.map_congr_left fun c hc => merge_of_mem hc
    rw [hconst, List.map_const', List.map_const', h.length_nulls]
  have hinner : outB.map (merge outA b nullRow) = outB.map b :=
    List.map_congr_left fun c hc => merge_of_notMem fun hmem => h.disjoint c hmem hc
  simp only [Function.comp_apply, List.map_append]
  rw [hnulls, hright, hleft, hinner]

end

/-- **The expansion returns the rows of the full outer join.** -/
theorem tuplesOn_expanded {m_aul next_id : ℕ} {pdrgpcrA pdrgpcrB rightA rightB nulls : List CColRef}
    (h : Columns (Pdrgpcr pexprA.outputColumns) (Pdrgpcr pexprB.outputColumns) rightA rightB nulls)
    (hfresh : Fresh m_aul next_id pexprA pexprB) (hnulls : Pdrgpcr nulls = nulls)
    (hused : ∀ c ∈ pexprScalar.usedColumns, c ∈ pexprA.outputColumns ++ pexprB.outputColumns) :
    let e := expanded ⟨next_id, pdrgpcrA, Pdrgpcr pexprA.outputColumns, pexprA⟩
      ⟨next_id + 1, pdrgpcrB, Pdrgpcr pexprB.outputColumns, pexprB⟩ pexprScalar
      (pexprScalar.remap (PcrRemap ((Pdrgpcr pexprA.outputColumns).zip rightA ++
        (Pdrgpcr pexprB.outputColumns).zip rightB))) rightA rightB nulls
    e.pdrgpcrSecond = nulls ++ rightB ∧
      tuplesOn (Pdrgpcr pexprA.outputColumns ++ Pdrgpcr pexprB.outputColumns)
          (e.rows ex ctes env) =
        tuplesOn (Pdrgpcr pexprA.outputColumns ++ Pdrgpcr pexprB.outputColumns)
          ((XformExpr.join .fullOuter pexprA pexprB pexprScalar).rows ex ctes env) := by
  intro e
  set outA := Pdrgpcr pexprA.outputColumns with houtA
  set outB := Pdrgpcr pexprB.outputColumns with houtB
  have hsecond : e.pdrgpcrSecond = nulls ++ rightB := by
    have hfilter : (rightB ++ nulls).filter (fun c => decide (c ∉ rightB)) = nulls := by
      rw [List.filter_append, List.filter_eq_nil_iff.2 (by simp), List.nil_append,
        List.filter_eq_self]
      exact fun c hc => decide_eq_true fun hmem => h.disjoint_nulls c hmem hc
    have houtput : (PexprLogicalProjectNulls nulls (XformExpr.join .leftAntiSemi
        (.cteConsumer (next_id + 1) rightB) (.cteConsumer next_id rightA)
        (pexprScalar.remap (PcrRemap (outA.zip rightA ++ outB.zip rightB))))).outputColumns =
        rightB ++ nulls := by
      simp [PexprLogicalProjectNulls, XformExpr.outputColumns, EJoinOp.keepsInner,
        Function.comp_def]
    show Pdrgpcr (List.filter _ (XformExpr.outputColumns _)) ++ rightB = _
    rw [houtput, hfilter, hnulls]
  refine ⟨hsecond, ?_⟩
  have hused' : ∀ c ∈ pexprScalar.usedColumns, c ∈ outA ++ outB := by
    intro c hc
    have hmem := hused c hc
    rw [List.mem_append] at hmem ⊢
    rwa [houtA, houtB, mem_pdrgpcr, mem_pdrgpcr]
  -- what the common table expressions hold
  have hB : pexprB.rows ex (Function.update ctes next_id
      (tuplesOn outA (pexprA.rows ex ctes env))) env = pexprB.rows ex ctes env := by
    refine XformExpr.rows_congr_ctes fun id hid => ?_
    rw [Function.update_of_ne (hfresh.cte_right id hid).ne]
  have hctes : contents ex env ctes e.producers =
      Function.update (Function.update ctes next_id (tuplesOn outA (pexprA.rows ex ctes env)))
        (next_id + 1) (tuplesOn outB (pexprB.rows ex ctes env)) := by
    rw [← hB]
    rfl
  have hcteA : contents ex env ctes e.producers next_id =
      tuplesOn outA (pexprA.rows ex ctes env) := by
    rw [hctes, Function.update_of_ne (by omega), Function.update_self]
  have hcteB : contents ex env ctes e.producers (next_id + 1) =
      tuplesOn outB (pexprB.rows ex ctes env) := by
    rw [hctes, Function.update_self]
  have hnd : (outA ++ outB).Nodup :=
    List.nodup_append.2 ⟨h.nodupA, h.nodupB, fun a ha b hb hab => h.disjoint a ha (hab ▸ hb)⟩
  have hlen : e.pdrgpcrSecond.length = e.pdrgpcrOutput.length := by
    rw [hsecond]
    show (nulls ++ rightB).length = (outA ++ outB).length
    rw [List.length_append, List.length_append, h.length_nulls, h.length_rightB]
  refine (e.tuplesOn_rows ex ctes env hnd hlen).trans ?_
  have hmerge : (merge pexprB.outputColumns : Row D → Row D → Row D) = merge outB :=
    merge_congr fun c => mem_pdrgpcr.symm
  have hmergeA : (merge pexprA.outputColumns : Row D → Row D → Row D) = merge outA :=
    merge_congr fun c => mem_pdrgpcr.symm
  have hfirst : e.pexprFirst.rows ex (contents ex env ctes e.producers) env =
      xformJoinRows ex.scalars .leftOuter pexprScalar outA outB
        ((pexprA.rows ex ctes env).map (consumerRow outA outA env))
        ((pexprB.rows ex ctes env).map (consumerRow outB outB env)) := by
    rw [← rows_cteConsumer ex hcteA, ← rows_cteConsumer ex hcteB]
    rfl
  have hlast : e.pexprSecond.rows ex (contents ex env ctes e.producers) env =
      (xformJoinRows ex.scalars .leftAntiSemi
        (pexprScalar.remap (PcrRemap (outA.zip rightA ++ outB.zip rightB))) rightB rightA
        ((pexprB.rows ex ctes env).map (consumerRow outB rightB env))
        ((pexprA.rows ex ctes env).map (consumerRow outA rightA env))).map
          fun row => assign nulls (nulls.map fun _ => ⊥) row := by
    refine (rows_pexprLogicalProjectNulls nulls _).trans ?_
    rw [← rows_cteConsumer ex hcteA, ← rows_cteConsumer ex hcteB]
    rfl
  rw [hfirst, hlast, hsecond, h.second_branch hused']
  refine (congrArg (· ++ _) (h.first_branch hused' _ _)).trans ?_
  rw [← tuplesOn_append]
  simp only [XformExpr.rows, xformJoinRows, Joins.fullOuter, hmerge, hmergeA]

omit [LinearOrder D] in
/-- The columns of the second branch stand at the places of the output columns. -/
theorem Columns.aligned (h : Columns outA outB rightA rightB nulls)
    {producerA producerB : CTEProducer D}
    (hsecond : (expanded producerA producerB pexprScalar pexprScalarRight rightA rightB
      nulls).pdrgpcrSecond = nulls ++ rightB) (hA : producerA.colref_array = outA)
    (hB : producerB.colref_array = outB) :
    (expanded producerA producerB pexprScalar pexprScalarRight rightA rightB nulls).Aligned := by
  rw [ExpandedJoin.Aligned, hsecond]
  subst hA hB
  refine List.rel_append ?_ ?_
  · exact List.forall₂_iff_zip.2 ⟨h.length_nulls, fun hmem => List.mem_append_left _ hmem⟩
  · exact List.forall₂_iff_zip.2 ⟨h.length_rightB, fun hmem => List.mem_append_right _ hmem⟩

omit [LinearOrder D] in
/-- New columns for the two sides of the expansion. -/
theorem columns_new {m_aul next_id next : ℕ} (hfresh : Fresh m_aul next_id pexprA pexprB)
    (hnext : m_aul ≤ next) :
    let outA := Pdrgpcr pexprA.outputColumns
    let outB := Pdrgpcr pexprB.outputColumns
    let rightA := PdrgpcrCopy next outA
    let rightB := PdrgpcrCopy (next + rightA.length) outB
    Columns outA outB rightA rightB
      (newColumns CColumnFactory.PcrCreateOfType (next + rightA.length + rightB.length) rightA) where
  nodupA := nodup_pdrgpcr _
  nodupB := nodup_pdrgpcr _
  nodup_rightA := nodup_pdrgpcrCopy
  nodup_rightB := nodup_pdrgpcrCopy
  nodup_nulls := nodup_newColumns fun _ _ => rfl
  length_rightA := by simp
  length_rightB := by simp
  length_nulls := by simp
  disjoint c hc := by
    rw [mem_pdrgpcr] at hc ⊢
    exact hfresh.disjoint c hc
  disjoint_right c hc hmem := by
    have hB := mem_pdrgpcrCopy hc
    have hA := mem_pdrgpcrCopy hmem
    rw [length_pdrgpcrCopy] at hB
    omega
  disjoint_nulls c hc hmem := by
    have hB := mem_pdrgpcrCopy hc
    have hN := mem_newColumns (fun _ _ => rfl) hmem
    rw [@length_pdrgpcrCopy (next + _)] at hN
    omega

/-- **A full outer join is expanded correctly** exactly when neither its children nor its
    predicate have outer references. -/
theorem preserves_iff {ulBelow : XformExpr D → ℕ} {m_aul next_id : ℕ}
    (hfresh : Fresh m_aul next_id pexprA pexprB) :
    ExpandedJoin.Preserves ex ctes env (.join .fullOuter pexprA pexprB pexprScalar)
        (Transform ulBelow m_aul next_id (.join .fullOuter pexprA pexprB pexprScalar)) ↔
      pexprA.outerReferences = [] ∧ pexprB.outerReferences = [] ∧
        ∀ c ∈ pexprScalar.usedColumns, c ∈ pexprA.outputColumns ++ pexprB.outputColumns := by
  by_cases hA : pexprA.outerReferences = []
  · by_cases hB : pexprB.outerReferences = []
    · rw [and_iff_right hA, and_iff_right hB]
      set outA := Pdrgpcr pexprA.outputColumns with houtA
      set outB := Pdrgpcr pexprB.outputColumns with houtB
      set next := m_aul + outA.length + ulBelow pexprA + outB.length + ulBelow pexprB with hnext
      set rightA := PdrgpcrCopy next outA with hrightA
      set rightB := PdrgpcrCopy (next + rightA.length) outB with hrightB
      set nulls := newColumns CColumnFactory.PcrCreateOfType
        (next + rightA.length + rightB.length) rightA with hnulls
      have htransform : Transform ulBelow m_aul next_id (.join .fullOuter pexprA pexprB pexprScalar) =
          (PexprRemapColumns pexprScalar (outA.zip rightA ++ outB.zip rightB)).map fun pexprScalarRight =>
            some (expanded ⟨next_id, PdrgpcrCopy m_aul outA, outA, pexprA⟩
              ⟨next_id + 1, PdrgpcrCopy (m_aul + outA.length + ulBelow pexprA) outB, outB, pexprB⟩
              pexprScalar pexprScalarRight rightA rightB nulls) := by
        simp only [Transform, PexprAddCTEProducer, hA, hB, ne_eq, not_true_eq_false, if_false, bind,
          Except.bind, Except.map]
        rfl
      have hcolumns : Columns outA outB rightA rightB nulls :=
        columns_new hfresh (by rw [hnext]; omega)
      have hmapped : ∀ c : CColRef, c ∈ (outA.zip rightA ++ outB.zip rightB).map (·.1) ↔
          c ∈ pexprA.outputColumns ++ pexprB.outputColumns := by
        intro c
        rw [List.map_append, List.map_fst_zip hcolumns.length_rightA.le,
          List.map_fst_zip hcolumns.length_rightB.le, List.mem_append, List.mem_append, houtA, houtB,
          mem_pdrgpcr, mem_pdrgpcr]
      rw [htransform]
      cases hremap : PexprRemapColumns pexprScalar (outA.zip rightA ++ outB.zip rightB) with
      | error fault =>
        refine iff_of_false id fun hused => ?_
        have hok := pexprRemapColumns_eq_ok_iff.2
          ⟨fun c hc => (hmapped c).2 (hused c hc), rfl⟩
        rw [hremap] at hok
        cases hok
      | ok pexprScalarRight =>
        obtain ⟨hall, rfl⟩ := pexprRemapColumns_eq_ok_iff.1 hremap
        have hused : ∀ c ∈ pexprScalar.usedColumns,
            c ∈ pexprA.outputColumns ++ pexprB.outputColumns := fun c hc => (hmapped c).1 (hall c hc)
        refine iff_of_true ?_ hused
        obtain ⟨hsecond, htuples⟩ := @tuplesOn_expanded _ _ ex ctes env _ _ _ _ _
          (PdrgpcrCopy m_aul outA)
          (PdrgpcrCopy (m_aul + outA.length + ulBelow pexprA) outB) _ _ _ hcolumns hfresh
          (pdrgpcr_newColumns fun _ _ => rfl) hused
        have houtput : (XformExpr.join .fullOuter pexprA pexprB pexprScalar).outputColumns ⊆
            outA ++ outB := by
          intro c hc
          have hc : c ∈ pexprA.outputColumns ++ pexprB.outputColumns := hc
          rwa [List.mem_append, houtA, houtB, mem_pdrgpcr, mem_pdrgpcr, ← List.mem_append]
        exact ⟨hcolumns.aligned hsecond rfl rfl, SameRows.mono (List.Perm.of_eq htuples) houtput⟩
    · simp [Transform, PexprAddCTEProducer, hA, hB, bind, Except.bind, ExpandedJoin.Preserves]
  · simp [Transform, PexprAddCTEProducer, hA, bind, Except.bind, ExpandedJoin.Preserves]

end CXformExpandFullOuterJoin

end BossOptimizer

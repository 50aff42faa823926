import BossOptimizer.Xforms.OuterJoinExpansion

/-!
# Left outer joins over a shared inner join

`CXformLeftOuter2InnerUnionAllLeftAntiSemiJoin`: the inner join of the children is a common table
expression; the second branch holds the outer rows whose columns in the predicate are not those of
a joined row.
-/

namespace BossOptimizer

variable {D : Type}

/-- `CPredicateUtils::FSimpleEqualityUsingCols` (CPredicateUtils.cpp:2357). -/
def XformScalar.FSimpleEqualityUsingCols (pexprScalar : XformScalar D) (pcrs : List CColRef) :
    Bool :=
  pexprScalar.PdrgpexprConjuncts.all fun pexprConj =>
    match pexprConj with
    | .cmp .eq (.ident left) (.ident right) => left ∈ pcrs || right ∈ pcrs
    | _ => false

/-! ## Places in an array -/

/-- `IndexesOfSubsequence` (CDynamicPtrArray.h:360). -/
def IndexesOfSubsequence (colref_array subsequence : List CColRef) : Except CteFault (List ℕ) :=
  if subsequence.all (· ∈ colref_array) then .ok (subsequence.map colref_array.idxOf)
  else .error .nullArray

/-- `CXformUtils::PdrgpcrReorderedSubsequence` (CXformUtils.cpp:4258). -/
def PdrgpcrReorderedSubsequence (colref_array : List CColRef) (pdrgpulIndexesOfRefs : List ℕ) :
    List CColRef :=
  pdrgpulIndexesOfRefs.filterMap (colref_array[·]?)

theorem indexesOfSubsequence_eq_ok {colref_array subsequence : List CColRef}
    (h : ∀ c ∈ subsequence, c ∈ colref_array) :
    IndexesOfSubsequence colref_array subsequence = .ok (subsequence.map colref_array.idxOf) :=
  if_pos (by simpa using h)

/-- The columns of a copy at the places of some columns are what these are mapped to. -/
theorem pdrgpcrReorderedSubsequence_eq {cols cols' sub : List CColRef} (hnd : cols.Nodup)
    (hlen : cols.length = cols'.length) (hsub : ∀ c ∈ sub, c ∈ cols) :
    PdrgpcrReorderedSubsequence cols' (sub.map cols.idxOf) =
      sub.map (PcrRemap (cols.zip cols')) := by
  have hat : ∀ c ∈ cols, cols'[cols.idxOf c]? = some (PcrRemap (cols.zip cols') c) := by
    intro c hc
    have hlt : cols.idxOf c < cols.length := List.idxOf_lt_length_of_mem hc
    rw [← congrArg (·[cols.idxOf c]?) (map_pcrRemap_zip hnd hlen), List.getElem?_map,
      List.getElem?_eq_getElem hlt, List.getElem_idxOf hlt]
    rfl
  rw [PdrgpcrReorderedSubsequence, List.filterMap_map]
  induction sub with
  | nil => rfl
  | cons c sub ih =>
    rw [List.filterMap_cons, Function.comp_apply, hat c (hsub c (by simp)), List.map_cons,
      ih fun d hd => hsub d (by simp [hd])]

namespace CXformLeftOuter2InnerUnionAllLeftAntiSemiJoin

/-- `FValidInnerExpr` (CXformLeftOuter2InnerUnionAllLeftAntiSemiJoin.cpp:278). -/
def FValidInnerExpr : XformExpr D → Bool
  | .leaf relation => !relation.fConstTableGet
  | .gbAgg .. => false
  | .limit .. => false
  | _ => true

/-- The anti-semi join of the outer rows with the groups of the joined rows
    (`PexprLeftAntiSemiJoinWithInnerGroupBy`, CXformLeftOuter2InnerUnionAllLeftAntiSemiJoin.cpp:314).
    -/
def PexprLeftAntiSemiJoinWithInnerGroupBy (ulCTEOuterId ulCTEJoinId : ℕ)
    (pdrgpcrOuterCopy pdrgpcrConsumer2Output pdrgpcrKeysInOuterCopy pdrgpcrGbyKeys : List CColRef) :
    XformExpr D :=
  .join .leftAntiSemi (.cteConsumer ulCTEOuterId pdrgpcrOuterCopy)
    (.gbAgg pdrgpcrGbyKeys none (.cteConsumer ulCTEJoinId pdrgpcrConsumer2Output) [])
    (.PexprConjINDFCond pdrgpcrKeysInOuterCopy pdrgpcrGbyKeys)

/-- The expansion, from the columns of its parts. -/
def expanded (producerOuter producerJoin : CTEProducer D) (pexprLeftAntiSemi : XformExpr D)
    (pdrgpcrNulls : List CColRef) (colref_mapping : ColRefMapping) : ExpandedJoin D where
  producers := [producerOuter, producerJoin]
  pdrgpcrOutput := producerJoin.colref_array
  pdrgpcrSecond := PdrgpcrRemap colref_mapping producerJoin.colref_array
  colref_mapping := colref_mapping
  pexprFirst := .cteConsumer producerJoin.id producerJoin.colref_array
  pexprSecond := PexprLogicalProjectNulls pdrgpcrNulls pexprLeftAntiSemi

/-- The inner join: the branches are inverted. -/
def pexprInnerJoin (ulCTEOuterId : ℕ) (pexprOuter pexprInner : XformExpr D)
    (pexprScalar : XformScalar D) : XformExpr D :=
  .join .inner pexprInner (.cteConsumer ulCTEOuterId (Pdrgpcr pexprOuter.outputColumns)) pexprScalar

/-- `Exfp` and the checks at the head of `Transform`
    (CXformLeftOuter2InnerUnionAllLeftAntiSemiJoin.cpp:83, 205); the statistics are a parameter. -/
def applies (fApplyXformUsingStatsInfo : Bool) (pexprInner : XformExpr D)
    (pexprScalar : XformScalar D) : Bool :=
  pexprScalar.FSimpleEqualityUsingCols pexprInner.outputColumns && FValidInnerExpr pexprInner &&
    fApplyXformUsingStatsInfo

/-- `CXformLeftOuter2InnerUnionAllLeftAntiSemiJoin::Transform`
    (CXformLeftOuter2InnerUnionAllLeftAntiSemiJoin.cpp:195), with
    `PexprProjectOverLeftAntiSemiJoin` (:388). -/
def Transform (ulBelow : XformExpr D → ℕ) (fApplyXformUsingStatsInfo : Bool) (m_aul next_id : ℕ) :
    XformExpr D → Except CteFault (Option (ExpandedJoin D))
  | .join .leftOuter pexprOuter pexprInner pexprScalar => do
    if !applies fApplyXformUsingStatsInfo pexprInner pexprScalar then return none
    let pdrgpcrOuter := Pdrgpcr pexprOuter.outputColumns
    let (producerOuter, m_aul) ←
      PexprAddCTEProducer ulBelow m_aul next_id pdrgpcrOuter pexprOuter
    let pdrgpcrJoinOutput := Pdrgpcr (pexprOuter.outputColumns ++ pexprInner.outputColumns)
    let (producerJoin, m_aul) ← PexprAddCTEProducer ulBelow m_aul (next_id + 1) pdrgpcrJoinOutput
      (pexprInnerJoin next_id pexprOuter pexprInner pexprScalar)
    let pdrgpcrOuterCopy := PdrgpcrCopy m_aul pdrgpcrOuter
    let m_aul := m_aul + pdrgpcrOuterCopy.length
    -- the outer columns of the predicate, and the columns that stand for them on both sides
    let pdrgpcrOuterKeys :=
      Pdrgpcr (pexprScalar.usedColumns.filter (· ∉ pexprInner.outputColumns))
    let pdrgpcrConsumer2Output := PdrgpcrCopy m_aul pdrgpcrJoinOutput
    let m_aul := m_aul + pdrgpcrConsumer2Output.length
    let pdrgpulIndexesOfOuterInGby ← IndexesOfSubsequence pdrgpcrJoinOutput pdrgpcrOuterKeys
    let pdrgpulIndexesOfOuterKeys ← IndexesOfSubsequence pdrgpcrOuter pdrgpcrOuterKeys
    let pexprLeftAntiSemi := PexprLeftAntiSemiJoinWithInnerGroupBy next_id (next_id + 1)
      pdrgpcrOuterCopy pdrgpcrConsumer2Output
      (PdrgpcrReorderedSubsequence pdrgpcrOuterCopy pdrgpulIndexesOfOuterKeys)
      (PdrgpcrReorderedSubsequence pdrgpcrConsumer2Output pdrgpulIndexesOfOuterInGby)
    -- the columns of the project: copies of the outer columns, NULLs for the inner ones
    let pdrgpulIndexesOfOuter ← IndexesOfSubsequence pdrgpcrJoinOutput pdrgpcrOuter
    let pdrgpcrInner := Pdrgpcr pexprInner.outputColumns
    let pdrgpcrNulls := newColumns CColumnFactory.PcrCreateOfType m_aul pdrgpcrInner
    return some (expanded producerOuter producerJoin pexprLeftAntiSemi pdrgpcrNulls
      ((PdrgpcrReorderedSubsequence pdrgpcrJoinOutput pdrgpulIndexesOfOuter).zip pdrgpcrOuterCopy ++
        pdrgpcrInner.zip pdrgpcrNulls))
  | _ => .ok none

/-- The columns of the expansion: those of the children, of the inner join, of the copies, the NULLs
    and the outer columns of the predicate. -/
structure Columns (outer inner joined outerCopy consumer2 nulls keys : List CColRef) : Prop where
  nodup_outer : outer.Nodup
  nodup_inner : inner.Nodup
  nodup_joined : joined.Nodup
  mem_joined : ∀ c, c ∈ joined ↔ c ∈ outer ∨ c ∈ inner
  disjoint : ∀ c ∈ outer, c ∉ inner
  nodup_outerCopy : outerCopy.Nodup
  nodup_consumer2 : consumer2.Nodup
  nodup_nulls : nulls.Nodup
  length_outerCopy : outer.length = outerCopy.length
  length_consumer2 : joined.length = consumer2.length
  length_nulls : inner.length = nulls.length
  disjoint_consumer2 : ∀ c ∈ outerCopy, c ∉ consumer2
  disjoint_nulls : ∀ c ∈ outerCopy, c ∉ nulls
  keys_outer : ∀ c ∈ keys, c ∈ outer

variable [LinearOrder D] {ex : Engine D} {ctes : ℕ → List (List (Datum D))} {env : Row D}
  {pexprScalar : XformScalar D} {outer inner joined outerCopy consumer2 nulls keys : List CColRef}
  (h : Columns outer inner joined outerCopy consumer2 nulls keys)

/-- The rows of the inner join. -/
def joinedRows (S : ScalarFunctions D) (env : Row D) (pexprScalar : XformScalar D)
    (outer inner : List CColRef) (rowsOuter rowsInner : List (Row D)) : List (Row D) :=
  xformJoinRows S .inner pexprScalar inner outer rowsInner
    (rowsOuter.map (consumerRow outer outer env))

section

include h

omit [LinearOrder D] in
/-- A joined row carries the rows of both children. -/
theorem Columns.merge_joined (o i : Row D) : ∀ c ∈ joined,
    merge outer i (consumerRow outer outer env o) c = merge inner o i c := by
  intro c hc
  rcases (h.mem_joined c).1 hc with ho | hi
  · rw [merge_of_mem ho, consumerRow_self h.nodup_outer ho, merge_of_notMem (h.disjoint c ho)]
  · rw [merge_of_notMem fun ho => h.disjoint c ho hi, merge_of_mem hi]

/-- The predicate of a joined row. -/
theorem Columns.isTrue_joined (hused : ∀ c ∈ pexprScalar.usedColumns, c ∈ joined) (o i : Row D) :
    pexprScalar.isTrue ex.scalars (merge outer i (consumerRow outer outer env o)) =
      pexprScalar.isTrue ex.scalars (merge inner o i) :=
  XformScalar.isTrue_congr fun c hc => h.merge_joined o i c (hused c hc)

/-- The first branch: the matches of the outer join. -/
theorem Columns.first_branch (hused : ∀ c ∈ pexprScalar.usedColumns, c ∈ joined)
    (rowsOuter rowsInner : List (Row D)) :
    SameRows joined (joinedRows ex.scalars env pexprScalar outer inner rowsOuter rowsInner)
      (Joins.inner (fun o i => pexprScalar.isTrue ex.scalars (merge inner o i)) (merge inner)
        rowsOuter rowsInner) := by
  have hmap : (Joins.inner (fun i o => pexprScalar.isTrue ex.scalars (merge outer i o))
      (merge outer) (rowsInner.map id) (rowsOuter.map (consumerRow outer outer env))).map
        (fun row => joined.map row) =
      (Joins.inner (fun i o => pexprScalar.isTrue ex.scalars (merge inner o i))
        (fun i o => merge inner o i) rowsInner rowsOuter).map (fun row => joined.map row) :=
    Joins.map_inner (fun i _ o _ => h.isTrue_joined hused o i)
    fun i _ o _ => List.map_congr_left (h.merge_joined o i)
  rw [List.map_id] at hmap
  refine (List.Perm.of_eq hmap).trans ?_
  exact (Joins.inner_swap.map _).trans (List.Perm.refl _)

/-- A joined row has the key values of its outer row. -/
theorem Columns.mem_joinedRows {rowsOuter rowsInner : List (Row D)} {j : Row D}
    (hused : ∀ c ∈ pexprScalar.usedColumns, c ∈ joined) :
    j ∈ joinedRows ex.scalars env pexprScalar outer inner rowsOuter rowsInner ↔
      ∃ o ∈ rowsOuter, ∃ i ∈ rowsInner,
        pexprScalar.isTrue ex.scalars (merge inner o i) = true ∧
          j = merge outer i (consumerRow outer outer env o) := by
  rw [joinedRows, xformJoinRows, Joins.mem_inner]
  constructor
  · rintro ⟨i, hi, o', ho', htrue, rfl⟩
    obtain ⟨o, ho, rfl⟩ := List.mem_map.1 ho'
    exact ⟨o, ho, i, hi, h.isTrue_joined hused o i ▸ htrue, rfl⟩
  · rintro ⟨o, ho, i, hi, htrue, rfl⟩
    exact ⟨i, hi, _, List.mem_map_of_mem ho, (h.isTrue_joined hused o i).trans htrue, rfl⟩

omit [LinearOrder D] in
/-- The copy of an outer row reads it. -/
theorem Columns.consumerRow_outerCopy (o : Row D) : ∀ c ∈ outer,
    consumerRow outer outerCopy env o (PcrRemap (outer.zip outerCopy) c) = o c :=
  apply_pcrRemap_zip h.nodup_outer h.length_outerCopy
    (map_consumerRow h.nodup_outerCopy h.length_outerCopy)

omit [LinearOrder D] in
theorem Columns.consumerRow_consumer2 (j : Row D) : ∀ c ∈ joined,
    consumerRow joined consumer2 env j (PcrRemap (joined.zip consumer2) c) = j c :=
  apply_pcrRemap_zip h.nodup_joined h.length_consumer2
    (map_consumerRow h.nodup_consumer2 h.length_consumer2)

omit [LinearOrder D] in
theorem Columns.keys_joined : ∀ c ∈ keys, c ∈ joined :=
  fun c hc => (h.mem_joined c).2 (.inl (h.keys_outer c hc))

/-- An outer row is compared with a group on the key columns. -/
theorem Columns.isTrue_group (o g : Row D) :
    (XformScalar.PexprConjINDFCond (keys.map (PcrRemap (outer.zip outerCopy)))
        (keys.map (PcrRemap (joined.zip consumer2)))).isTrue ex.scalars
        (merge (keys.map (PcrRemap (joined.zip consumer2))) (consumerRow outer outerCopy env o) g) =
      true ↔ (keys.map (PcrRemap (joined.zip consumer2))).map g = keys.map o := by
  set gbyKeys := keys.map (PcrRemap (joined.zip consumer2)) with hgby
  rw [XformScalar.isTrue_pexprConjINDFCond (by simp [hgby])]
  have hleft : (keys.map (PcrRemap (outer.zip outerCopy))).map
      (merge gbyKeys (consumerRow outer outerCopy env o) g) = keys.map o := by
    rw [List.map_map]
    refine List.map_congr_left fun c hc => ?_
    have hc := h.keys_outer c hc
    have hcopy := pcrRemap_zip_mem h.nodup_outer h.length_outerCopy hc
    rw [Function.comp_apply, merge_of_notMem, h.consumerRow_outerCopy o c hc]
    intro hmem
    obtain ⟨d, hd, heq⟩ := List.mem_map.1 hmem
    refine h.disjoint_consumer2 _ hcopy (heq ▸ ?_)
    exact pcrRemap_zip_mem h.nodup_joined h.length_consumer2 (h.keys_joined d hd)
  have hright : gbyKeys.map (merge gbyKeys (consumerRow outer outerCopy env o) g) =
      gbyKeys.map g := List.map_congr_left fun c hc => merge_of_mem hc
  rw [hleft, hright, eq_comm]

/-- Without key columns there is one group, which all outer rows are compared equal with. -/
theorem Columns.any_group (o : Row D) (rows : List (Row D)) :
    (groupRows ex env (keys.map (PcrRemap (joined.zip consumer2))) []
        (rows.map (consumerRow joined consumer2 env))).any (fun g =>
      (XformScalar.PexprConjINDFCond (keys.map (PcrRemap (outer.zip outerCopy)))
          (keys.map (PcrRemap (joined.zip consumer2)))).isTrue ex.scalars
        (merge (keys.map (PcrRemap (joined.zip consumer2))) (consumerRow outer outerCopy env o) g)) =
      true ↔ keys = [] ∨ ∃ j ∈ rows, keys.map j = keys.map o := by
  rw [List.any_eq_true]
  simp only [h.isTrue_group]
  set gbyKeys := keys.map (PcrRemap (joined.zip consumer2)) with hgby
  rcases eq_or_ne keys [] with hnil | hne
  · simp [hgby, hnil, groupRows]
  · have hgne : gbyKeys ≠ [] := by simpa [hgby] using hne
    have hgroup : ∀ row : Row D, gbyKeys.map (assign [] [] (merge gbyKeys env row)) =
        gbyKeys.map row := by
      intro row
      refine List.map_congr_left fun c hc => ?_
      rw [assign_of_notMem (by simp), merge_of_mem hc]
    have hconsumed : ∀ j : Row D, gbyKeys.map (consumerRow joined consumer2 env j) = keys.map j := by
      intro j
      rw [hgby, List.map_map]
      exact List.map_congr_left fun c hc => h.consumerRow_consumer2 j c (h.keys_joined c hc)
    rw [groupRows, if_neg hgne]
    simp only [List.mem_map, exists_exists_and_eq_and, List.map_nil, hgroup, hne, false_or,
      exists_dedupOn_iff, hconsumed]

/-- The columns of the second branch: copies of the outer columns, NULLs for the inner ones. -/
theorem Columns.padded_row (o : Row D) : ∀ c ∈ joined,
    assign nulls (nulls.map fun _ => ⊥) (consumerRow outer outerCopy env o)
        (PcrRemap (outer.zip outerCopy ++ inner.zip nulls) c) = merge inner o nullRow c := by
  have hfst : ∀ c : CColRef, c ∈ (outer.zip outerCopy).map (·.1) ↔ c ∈ outer := by
    intro c
    rw [List.map_fst_zip (by rw [h.length_outerCopy])]
  intro c hc
  by_cases hout : c ∈ outer
  · have hcopy := pcrRemap_zip_mem h.nodup_outer h.length_outerCopy hout
    rw [pcrRemap_append_of_mem ((hfst c).2 hout), assign_of_notMem (h.disjoint_nulls _ hcopy),
      h.consumerRow_outerCopy o c hout, merge_of_notMem (h.disjoint c hout)]
  · have hin : c ∈ inner := ((h.mem_joined c).1 hc).resolve_left hout
    have hnull := pcrRemap_zip_mem h.nodup_inner h.length_nulls hin
    rw [pcrRemap_append_of_notMem (mt (hfst c).1 hout), assign_of_mem hnull, merge_of_mem hin]
    exact List.getD_map _ c fun _ => ⊥

/-- The second branch: the outer rows whose key columns are those of no joined row. -/
theorem Columns.second_branch (rowsOuter rows : List (Row D)) :
    tuplesOn (PdrgpcrRemap (outer.zip outerCopy ++ inner.zip nulls) joined)
      ((xformJoinRows ex.scalars .leftAntiSemi
        (.PexprConjINDFCond (keys.map (PcrRemap (outer.zip outerCopy)))
          (keys.map (PcrRemap (joined.zip consumer2)))) outerCopy
        (keys.map (PcrRemap (joined.zip consumer2)))
        (rowsOuter.map (consumerRow outer outerCopy env))
        (groupRows ex env (keys.map (PcrRemap (joined.zip consumer2))) []
          (rows.map (consumerRow joined consumer2 env)))).map
          fun row => assign nulls (nulls.map fun _ => ⊥) row) =
      tuplesOn joined ((rowsOuter.filter fun o =>
        decide ¬(keys = [] ∨ ∃ j ∈ rows, keys.map j = keys.map o)).map (merge inner · nullRow)) := by
  rw [xformJoinRows, List.filter_map, tuplesOn, tuplesOn, List.map_map, List.map_map, List.map_map]
  refine (congrArg (List.map _) (List.filter_congr fun o _ => ?_)).trans
    (List.map_congr_left fun o _ => ?_)
  · rw [Function.comp_apply, Bool.eq_iff_iff, Bool.not_eq_true', decide_eq_true_eq,
      ← Bool.not_eq_true, h.any_group]
  · simp only [Function.comp_apply, PdrgpcrRemap, List.map_map]
    exact List.map_congr_left (h.padded_row o)

/-- An outer row has the key values of a joined row exactly when it has a match, if the predicate
    uses an outer column. -/
theorem Columns.exists_joined_iff
    (hused : ∀ c ∈ pexprScalar.usedColumns, c ∈ keys ∨ c ∈ inner) {rowsOuter rowsInner : List (Row D)}
    {o : Row D} (ho : o ∈ rowsOuter) :
    (∃ j ∈ joinedRows ex.scalars env pexprScalar outer inner rowsOuter rowsInner,
        keys.map j = keys.map o) ↔
      rowsInner.any (fun i => pexprScalar.isTrue ex.scalars (merge inner o i)) = true := by
  have hjoined : ∀ c ∈ pexprScalar.usedColumns, c ∈ joined := fun c hc =>
    (h.mem_joined c).2 ((hused c hc).imp_left (h.keys_outer c))
  have hkeys : ∀ o' i : Row D, keys.map (merge outer i (consumerRow outer outer env o')) =
      keys.map o' := by
    refine fun o' i => List.map_congr_left fun c hc => ?_
    have hc := h.keys_outer c hc
    rw [merge_of_mem hc, consumerRow_self h.nodup_outer hc]
  rw [List.any_eq_true]
  constructor
  · rintro ⟨j, hj, hjo⟩
    obtain ⟨o', -, i, hi, htrue, rfl⟩ := (h.mem_joinedRows hjoined).1 hj
    rw [hkeys, List.map_inj_left] at hjo
    refine ⟨i, hi, (XformScalar.isTrue_congr fun c hc => ?_).trans htrue⟩
    by_cases hin : c ∈ inner
    · rw [merge_of_mem hin, merge_of_mem hin]
    · rw [merge_of_notMem hin, merge_of_notMem hin, hjo c ((hused c hc).resolve_right hin)]
  · rintro ⟨i, hi, htrue⟩
    exact ⟨_, (h.mem_joinedRows hjoined).2 ⟨o, ho, i, hi, htrue, rfl⟩, hkeys o i⟩

/-- **The two branches are the left outer join** exactly when the predicate uses an outer column,
    there are no outer rows, or the predicate, which then reads inner rows only, is true of one. -/
theorem Columns.sameRows_iff (hused : ∀ c ∈ pexprScalar.usedColumns, c ∈ keys ∨ c ∈ inner)
    {outerCols : List CColRef} (rowsOuter rowsInner : List (Row D)) :
    (tuplesOn joined (joinedRows ex.scalars env pexprScalar outer inner rowsOuter rowsInner) ++
        tuplesOn joined ((rowsOuter.filter fun o => decide ¬(keys = [] ∨
          ∃ j ∈ joinedRows ex.scalars env pexprScalar outer inner rowsOuter rowsInner,
            keys.map j = keys.map o)).map (merge inner · nullRow))).Perm
      (tuplesOn joined (xformJoinRows ex.scalars .leftOuter pexprScalar outerCols inner rowsOuter
        rowsInner)) ↔
      keys ≠ [] ∨ rowsOuter = [] ∨ ∃ i ∈ rowsInner, pexprScalar.isTrue ex.scalars i = true := by
  have hjoined : ∀ c ∈ pexprScalar.usedColumns, c ∈ joined := fun c hc =>
    (h.mem_joined c).2 ((hused c hc).imp_left (h.keys_outer c))
  set matched := fun o i : Row D => pexprScalar.isTrue ex.scalars (merge inner o i) with hmatched
  have hright : (tuplesOn joined (xformJoinRows ex.scalars .leftOuter pexprScalar outerCols inner
      rowsOuter rowsInner)).Perm (tuplesOn joined (Joins.inner matched (merge inner) rowsOuter
        rowsInner) ++ tuplesOn joined ((rowsOuter.filter fun o =>
          !rowsInner.any (matched o)).map (merge inner · nullRow))) := by
    rw [← tuplesOn_append]
    exact Joins.leftOuter_perm.map _
  rw [((h.first_branch hjoined rowsOuter rowsInner).append_right _).congr_left,
    hright.congr_right]
  refine (List.perm_append_left_iff _).trans ?_
  rcases eq_or_ne keys [] with hnil | hne
  · have hinner : ∀ o i : Row D, matched o i = pexprScalar.isTrue ex.scalars i := by
      refine fun o i => XformScalar.isTrue_congr fun c hc => merge_of_mem ?_
      exact (hused c hc).resolve_left (by simp [hnil])
    have hnone : rowsOuter.filter (fun o => decide ¬(keys = [] ∨
        ∃ j ∈ joinedRows ex.scalars env pexprScalar outer inner rowsOuter rowsInner,
          keys.map j = keys.map o)) = [] := by simp [hnil]
    rw [hnone, or_iff_right (by simpa using hnil), List.map_nil, tuplesOn, List.map_nil,
      List.nil_perm, tuplesOn, List.map_eq_nil_iff, List.map_eq_nil_iff, List.filter_eq_nil_iff]
    simp only [hinner, Bool.not_eq_true', Bool.not_eq_false, List.any_eq_true]
    cases rowsOuter with
    | nil => simp
    | cons o rowsOuter =>
      rw [or_iff_right (List.cons_ne_nil _ _)]
      exact ⟨fun hall => hall o List.mem_cons_self, fun hi _ _ => hi⟩
  · refine iff_of_true (List.Perm.of_eq ?_) (.inl hne)
    refine congrArg (fun l => tuplesOn joined (List.map _ l)) (List.filter_congr fun o ho => ?_)
    rw [Bool.eq_iff_iff, decide_eq_true_eq, or_iff_right hne, h.exists_joined_iff hused ho,
      Bool.not_eq_true', Bool.not_eq_true]

end

/-! ## The expansion -/

/-- The tuples of the expansion are those of its two branches. -/
theorem tuplesOn_expanded {m_aul next_id : ℕ} {pdrgpcrOuter pdrgpcrJoin : List CColRef}
    {pexprOuter pexprInner : XformExpr D}
    (h : Columns (Pdrgpcr pexprOuter.outputColumns) (Pdrgpcr pexprInner.outputColumns) joined
      outerCopy consumer2 nulls keys)
    (hfresh : Fresh m_aul next_id pexprOuter pexprInner) :
    let outer := Pdrgpcr pexprOuter.outputColumns
    let inner := Pdrgpcr pexprInner.outputColumns
    let e := expanded ⟨next_id, pdrgpcrOuter, outer, pexprOuter⟩
      ⟨next_id + 1, pdrgpcrJoin, joined, pexprInnerJoin next_id pexprOuter pexprInner pexprScalar⟩
      (PexprLeftAntiSemiJoinWithInnerGroupBy next_id (next_id + 1) outerCopy consumer2
        (keys.map (PcrRemap (outer.zip outerCopy))) (keys.map (PcrRemap (joined.zip consumer2))))
      nulls (outer.zip outerCopy ++ inner.zip nulls)
    let rows := joinedRows ex.scalars env pexprScalar outer inner (pexprOuter.rows ex ctes env)
      (pexprInner.rows ex ctes env)
    tuplesOn joined (e.rows ex ctes env) = tuplesOn joined rows ++
      tuplesOn joined (((pexprOuter.rows ex ctes env).filter fun o => decide ¬(keys = [] ∨
        ∃ j ∈ rows, keys.map j = keys.map o)).map (merge inner · nullRow)) := by
  intro outer inner e rows
  -- what the common table expressions hold
  have hinner : pexprInner.rows ex (Function.update ctes next_id
      (tuplesOn outer (pexprOuter.rows ex ctes env))) env = pexprInner.rows ex ctes env := by
    refine XformExpr.rows_congr_ctes fun id hid => ?_
    rw [Function.update_of_ne (hfresh.cte_right id hid).ne]
  have hjoin : (pexprInnerJoin next_id pexprOuter pexprInner pexprScalar).rows ex
      (Function.update ctes next_id (tuplesOn outer (pexprOuter.rows ex ctes env))) env = rows := by
    rw [pexprInnerJoin, XformExpr.rows, hinner, @rows_cteConsumer _ outer _ _ ex _ _ _ _
      (Function.update_self ..)]
    rfl
  have hctes : contents ex env ctes e.producers =
      Function.update (Function.update ctes next_id (tuplesOn outer (pexprOuter.rows ex ctes env)))
        (next_id + 1) (tuplesOn joined rows) := by
    rw [← hjoin]
    rfl
  have hcteOuter : contents ex env ctes e.producers next_id =
      tuplesOn outer (pexprOuter.rows ex ctes env) := by
    rw [hctes, Function.update_of_ne (by omega), Function.update_self]
  have hcteJoin : contents ex env ctes e.producers (next_id + 1) = tuplesOn joined rows := by
    rw [hctes, Function.update_self]
  refine (e.tuplesOn_rows ex ctes env h.nodup_joined (List.length_map _)).trans ?_
  have hfirst : tuplesOn joined (e.pexprFirst.rows ex (contents ex env ctes e.producers) env) =
      tuplesOn joined rows := by
    refine (congrArg (tuplesOn joined) (rows_cteConsumer ex hcteJoin)).trans ?_
    exact tuplesOn_map fun row _ c hc => consumerRow_self h.nodup_joined hc
  refine congrArg₂ _ hfirst ?_
  rw [← @Columns.second_branch _ _ ex env _ _ _ _ _ _ _ h, ← rows_cteConsumer ex hcteOuter,
    ← rows_cteConsumer ex hcteJoin]
  refine congrArg (tuplesOn _) ((rows_pexprLogicalProjectNulls nulls _).trans ?_)
  rw [PexprLeftAntiSemiJoinWithInnerGroupBy, XformExpr.rows, XformExpr.rows]
  simp only [XformExpr.outputColumns, List.map_nil, List.append_nil]
  rfl

omit [LinearOrder D] in
/-- The columns of the second branch stand at the places of the output columns. -/
theorem Columns.aligned (h : Columns outer inner joined outerCopy consumer2 nulls keys)
    {producerOuter producerJoin : CTEProducer D} {pexprLeftAntiSemi : XformExpr D}
    (hjoin : producerJoin.colref_array = joined) :
    (expanded producerOuter producerJoin pexprLeftAntiSemi nulls
      (outer.zip outerCopy ++ inner.zip nulls)).Aligned := by
  show List.Forall₂ _ producerJoin.colref_array (PdrgpcrRemap _ producerJoin.colref_array)
  rw [hjoin, PdrgpcrRemap, List.forall₂_map_right_iff, List.forall₂_same]
  refine fun c hc => mem_of_mem_map_fst ?_
  show c ∈ (outer.zip outerCopy ++ inner.zip nulls).map (·.1)
  rw [List.map_append, List.map_fst_zip h.length_outerCopy.le, List.map_fst_zip h.length_nulls.le,
    List.mem_append]
  exact (h.mem_joined c).1 hc

omit [LinearOrder D] in
/-- New columns for the copies and the NULLs. -/
theorem columns_new {m_aul next_id next : ℕ} {pexprOuter pexprInner : XformExpr D}
    (hfresh : Fresh m_aul next_id pexprOuter pexprInner)
    (hkeys : ∀ c ∈ keys, c ∈ pexprOuter.outputColumns) :
    let outer := Pdrgpcr pexprOuter.outputColumns
    let inner := Pdrgpcr pexprInner.outputColumns
    let joined := Pdrgpcr (pexprOuter.outputColumns ++ pexprInner.outputColumns)
    let outerCopy := PdrgpcrCopy next outer
    let consumer2 := PdrgpcrCopy (next + outerCopy.length) joined
    Columns outer inner joined outerCopy consumer2
      (newColumns CColumnFactory.PcrCreateOfType (next + outerCopy.length + consumer2.length) inner)
      keys where
  nodup_outer := nodup_pdrgpcr _
  nodup_inner := nodup_pdrgpcr _
  nodup_joined := nodup_pdrgpcr _
  mem_joined c := by simp
  disjoint c hc := by
    rw [mem_pdrgpcr] at hc ⊢
    exact hfresh.disjoint c hc
  nodup_outerCopy := nodup_pdrgpcrCopy
  nodup_consumer2 := nodup_pdrgpcrCopy
  nodup_nulls := nodup_newColumns fun _ _ => rfl
  length_outerCopy := by simp
  length_consumer2 := by simp
  length_nulls := by simp
  disjoint_consumer2 c hc hmem := by
    have hcopy := mem_pdrgpcrCopy hc
    have hconsumer := mem_pdrgpcrCopy hmem
    rw [length_pdrgpcrCopy] at hconsumer
    omega
  disjoint_nulls c hc hmem := by
    have hcopy := mem_pdrgpcrCopy hc
    have hnull := mem_newColumns (fun _ _ => rfl) hmem
    rw [@length_pdrgpcrCopy next] at hnull
    omega
  keys_outer c hc := mem_pdrgpcr.2 (hkeys c hc)

/-- **A left outer join is expanded correctly** exactly when the transformation does not apply, or
    the outer child and the inner join have no outer references and the predicate uses an outer
    column, or there are no outer rows, or the predicate is true of an inner row. -/
theorem preserves_iff {ulBelow : XformExpr D → ℕ} {fApplyXformUsingStatsInfo : Bool}
    {m_aul next_id : ℕ} {pexprOuter pexprInner : XformExpr D}
    (hfresh : Fresh m_aul next_id pexprOuter pexprInner) :
    ExpandedJoin.Preserves ex ctes env (.join .leftOuter pexprOuter pexprInner pexprScalar)
        (Transform ulBelow fApplyXformUsingStatsInfo m_aul next_id
          (.join .leftOuter pexprOuter pexprInner pexprScalar)) ↔
      (applies fApplyXformUsingStatsInfo pexprInner pexprScalar = true →
        (pexprOuter.outerReferences = [] ∧
          ∀ c ∈ pexprInner.outerReferences ++ pexprScalar.usedColumns,
            c ∈ pexprOuter.outputColumns ++ pexprInner.outputColumns) ∧
        ((∃ c ∈ pexprScalar.usedColumns, c ∉ pexprInner.outputColumns) ∨
          pexprOuter.rows ex ctes env = [] ∨
          ∃ i ∈ pexprInner.rows ex ctes env, pexprScalar.isTrue ex.scalars i = true)) := by
  by_cases happlies : applies fApplyXformUsingStatsInfo pexprInner pexprScalar = true
  swap
  · simp [Transform, happlies, ExpandedJoin.Preserves, pure, Except.pure]
  rw [forall_prop_of_true happlies]
  have hjoin : (pexprInnerJoin next_id pexprOuter pexprInner pexprScalar).outerReferences = [] ↔
      ∀ c ∈ pexprInner.outerReferences ++ pexprScalar.usedColumns,
        c ∈ pexprOuter.outputColumns ++ pexprInner.outputColumns := by
    simp only [pexprInnerJoin, XformExpr.outerReferences, XformExpr.outputColumns,
      List.append_nil, List.filter_eq_nil_iff, decide_eq_true_eq, not_not, List.mem_append,
      mem_pdrgpcr, or_comm]
  by_cases houter : pexprOuter.outerReferences = []
  swap
  · simp [Transform, happlies, PexprAddCTEProducer, houter, bind, Except.bind,
      ExpandedJoin.Preserves]
  by_cases hinnerJoin : (pexprInnerJoin next_id pexprOuter pexprInner pexprScalar).outerReferences =
    []
  swap
  · refine iff_of_false ?_ fun hall => hinnerJoin (hjoin.2 hall.1.2)
    simp [Transform, happlies, PexprAddCTEProducer, houter, hinnerJoin, bind, Except.bind,
      ExpandedJoin.Preserves]
  have hall := hjoin.1 hinnerJoin
  rw [and_iff_right ⟨houter, hall⟩]
  set outer := Pdrgpcr pexprOuter.outputColumns with houtercols
  set inner := Pdrgpcr pexprInner.outputColumns with hinnercols
  set joined := Pdrgpcr (pexprOuter.outputColumns ++ pexprInner.outputColumns) with hjoined
  set keys := Pdrgpcr (pexprScalar.usedColumns.filter (· ∉ pexprInner.outputColumns)) with hkeys
  set next := m_aul + outer.length + ulBelow pexprOuter + joined.length +
    ulBelow (pexprInnerJoin next_id pexprOuter pexprInner pexprScalar) with hnext
  set outerCopy := PdrgpcrCopy next outer with houterCopy
  set consumer2 := PdrgpcrCopy (next + outerCopy.length) joined with hconsumer2
  set nulls := newColumns CColumnFactory.PcrCreateOfType
    (next + outerCopy.length + consumer2.length) inner with hnulls
  have hmem : ∀ c, c ∈ keys ↔ c ∈ pexprScalar.usedColumns ∧ c ∉ pexprInner.outputColumns := by
    intro c
    rw [hkeys, mem_pdrgpcr, List.mem_filter, decide_eq_true_eq]
  have hkeysOuter : ∀ c ∈ keys, c ∈ pexprOuter.outputColumns := by
    intro c hc
    obtain ⟨hused, hnot⟩ := (hmem c).1 hc
    exact (List.mem_append.1 (hall c (List.mem_append_right _ hused))).resolve_right hnot
  have hcolumns : Columns outer inner joined outerCopy consumer2 nulls keys :=
    columns_new hfresh hkeysOuter
  have hsub : ∀ c ∈ outer, c ∈ joined := fun c hc => (hcolumns.mem_joined c).2 (.inl hc)
  have htransform : Transform ulBelow fApplyXformUsingStatsInfo m_aul next_id
      (.join .leftOuter pexprOuter pexprInner pexprScalar) = .ok (some (expanded
        ⟨next_id, PdrgpcrCopy m_aul outer, outer, pexprOuter⟩
        ⟨next_id + 1, PdrgpcrCopy (m_aul + outer.length + ulBelow pexprOuter) joined, joined,
          pexprInnerJoin next_id pexprOuter pexprInner pexprScalar⟩
        (PexprLeftAntiSemiJoinWithInnerGroupBy next_id (next_id + 1) outerCopy consumer2
          (keys.map (PcrRemap (outer.zip outerCopy))) (keys.map (PcrRemap (joined.zip consumer2))))
        nulls (outer.zip outerCopy ++ inner.zip nulls))) := by
    have houterIndexes : PdrgpcrReorderedSubsequence joined (outer.map joined.idxOf) = outer := by
      rw [pdrgpcrReorderedSubsequence_eq hcolumns.nodup_joined rfl hsub]
      have hself := List.map_inj_left.1
        ((map_pcrRemap_zip hcolumns.nodup_joined rfl).trans (List.map_id joined).symm)
      exact (List.map_congr_left fun c hc => hself c (hsub c hc)).trans (List.map_id outer)
    simp only [Transform, happlies, PexprAddCTEProducer, houter, hinnerJoin, ne_eq,
      not_true_eq_false, if_false, bind, Except.bind, Bool.not_true, Bool.false_eq_true, pure,
      Except.pure]
    rw [indexesOfSubsequence_eq_ok hcolumns.keys_joined,
      indexesOfSubsequence_eq_ok hcolumns.keys_outer, indexesOfSubsequence_eq_ok hsub]
    simp only []
    rw [pdrgpcrReorderedSubsequence_eq hcolumns.nodup_outer hcolumns.length_outerCopy
        hcolumns.keys_outer,
      pdrgpcrReorderedSubsequence_eq hcolumns.nodup_joined hcolumns.length_consumer2
        hcolumns.keys_joined, houterIndexes]
  rw [htransform]
  have hused : ∀ c ∈ pexprScalar.usedColumns, c ∈ keys ∨ c ∈ inner := by
    intro c hc
    rw [hmem, hinnercols, mem_pdrgpcr, and_iff_right hc]
    exact em' _
  have hloj : (XformExpr.join .leftOuter pexprOuter pexprInner pexprScalar).rows ex ctes env =
      xformJoinRows ex.scalars .leftOuter pexprScalar outer inner (pexprOuter.rows ex ctes env)
        (pexprInner.rows ex ctes env) := by
    have hmerge : (merge pexprInner.outputColumns : Row D → Row D → Row D) = merge inner :=
      merge_congr fun c => mem_pdrgpcr.symm
    simp only [XformExpr.rows, xformJoinRows, hmerge]
  have hnonempty : (∃ c ∈ pexprScalar.usedColumns, c ∉ pexprInner.outputColumns) ↔ keys ≠ [] := by
    simp only [ne_eq, List.eq_nil_iff_forall_not_mem, not_forall, not_not, hmem]
  rw [ExpandedJoin.Preserves, and_iff_right (hcolumns.aligned rfl), hloj, hnonempty,
    ← hcolumns.sameRows_iff hused, ← tuplesOn_expanded hcolumns hfresh]
  exact ⟨fun hsame => SameRows.mono hsame fun c hc => mem_pdrgpcr.1 hc,
    fun hsame => SameRows.mono hsame fun c hc => mem_pdrgpcr.2 hc⟩

end CXformLeftOuter2InnerUnionAllLeftAntiSemiJoin

/-! ## Both transformations -/

namespace ExpandedJoin

variable [LinearOrder D]

/-- **Outer joins over shared common table expressions**: when the two transformations return the
    rows of the join, each under its column. -/
theorem preserves_outerJoins_iff {ex : Engine D} {ctes : ℕ → List (List (Datum D))} {env : Row D}
    {ulBelow : XformExpr D → ℕ} (fApplyXformUsingStatsInfo : Bool) {m_aul next_id : ℕ}
    {pexprOuter pexprInner : XformExpr D} {pexprScalar : XformScalar D}
    (hfresh : Fresh m_aul next_id pexprOuter pexprInner) :
    (Preserves ex ctes env (.join .leftOuter pexprOuter pexprInner pexprScalar)
        (CXformLeftOuter2InnerUnionAllLeftAntiSemiJoin.Transform ulBelow fApplyXformUsingStatsInfo
          m_aul next_id (.join .leftOuter pexprOuter pexprInner pexprScalar)) ↔
      (CXformLeftOuter2InnerUnionAllLeftAntiSemiJoin.applies fApplyXformUsingStatsInfo pexprInner
          pexprScalar = true →
        (pexprOuter.outerReferences = [] ∧
          ∀ c ∈ pexprInner.outerReferences ++ pexprScalar.usedColumns,
            c ∈ pexprOuter.outputColumns ++ pexprInner.outputColumns) ∧
        ((∃ c ∈ pexprScalar.usedColumns, c ∉ pexprInner.outputColumns) ∨
          pexprOuter.rows ex ctes env = [] ∨
          ∃ i ∈ pexprInner.rows ex ctes env, pexprScalar.isTrue ex.scalars i = true))) ∧
      (Preserves ex ctes env (.join .fullOuter pexprOuter pexprInner pexprScalar)
          (CXformExpandFullOuterJoin.Transform ulBelow m_aul next_id
            (.join .fullOuter pexprOuter pexprInner pexprScalar)) ↔
        pexprOuter.outerReferences = [] ∧ pexprInner.outerReferences = [] ∧
          ∀ c ∈ pexprScalar.usedColumns, c ∈ pexprOuter.outputColumns ++ pexprInner.outputColumns) :=
  ⟨CXformLeftOuter2InnerUnionAllLeftAntiSemiJoin.preserves_iff hfresh,
    CXformExpandFullOuterJoin.preserves_iff hfresh⟩

/-! ### Two tables -/

def pcrA : CColRef := ⟨1, true, true, true⟩

def pcrB : CColRef := ⟨2, true, true, true⟩

def pcrC : CColRef := ⟨3, true, true, true⟩

def pexprA : XformExpr ℕ :=
  .leaf ⟨[pcrA], [], false, fun _ => [[((5 : ℕ) : Datum ℕ)], [⊥]], fun _ _ _ => rfl⟩

def pexprBC : XformExpr ℕ :=
  .leaf ⟨[pcrB, pcrC], [], false, fun _ => [[((5 : ℕ) : Datum ℕ), ((7 : ℕ) : Datum ℕ)]],
    fun _ _ _ => rfl⟩

theorem preserves_outerJoins_tables :
    Preserves (Engine.inOrder fun _ => .count) (fun _ => []) (fun _ => ⊥)
        (.join .leftOuter pexprA pexprBC (.cmp .eq (.ident pcrA) (.ident pcrB)))
        (CXformLeftOuter2InnerUnionAllLeftAntiSemiJoin.Transform (fun _ => 0) true 4 0
          (.join .leftOuter pexprA pexprBC (.cmp .eq (.ident pcrA) (.ident pcrB)))) ∧
      Preserves (Engine.inOrder fun _ => .count) (fun _ => []) (fun _ => ⊥)
        (.join .fullOuter pexprA pexprBC (.cmp .eq (.ident pcrA) (.ident pcrB)))
        (CXformExpandFullOuterJoin.Transform (fun _ => 0) 4 0
          (.join .fullOuter pexprA pexprBC (.cmp .eq (.ident pcrA) (.ident pcrB)))) :=
  have hfresh : Fresh 4 0 pexprA pexprBC :=
    ⟨by decide, by decide, by decide, by decide, by decide⟩
  ⟨(preserves_outerJoins_iff true hfresh).1.2 fun _ =>
      ⟨⟨rfl, by decide⟩, .inl ⟨pcrA, by decide, by decide⟩⟩,
    (preserves_outerJoins_iff true hfresh).2.2 ⟨rfl, rfl, by decide⟩⟩

/-- **The outer rows are lost** when the predicate compares inner columns only and is true of no
    inner row. -/
theorem leftOuter_loses_rows :
    CXformLeftOuter2InnerUnionAllLeftAntiSemiJoin.applies true pexprBC
        (.cmp .eq (.ident pcrB) (.ident pcrC)) = true ∧
      ∃ expanded, CXformLeftOuter2InnerUnionAllLeftAntiSemiJoin.Transform (fun _ => 0) true 4 0
          (.join .leftOuter pexprA pexprBC (.cmp .eq (.ident pcrB) (.ident pcrC))) =
        .ok (some expanded) ∧
      expanded.rows (Engine.inOrder fun _ => .count) (fun _ => []) (fun _ => ⊥) = [] ∧
      tuplesOn [pcrA, pcrB, pcrC] ((XformExpr.join .leftOuter pexprA pexprBC
          (.cmp .eq (.ident pcrB) (.ident pcrC))).rows (Engine.inOrder fun _ => .count)
        (fun _ => []) fun _ => ⊥) = [[((5 : ℕ) : Datum ℕ), ⊥, ⊥], [⊥, ⊥, ⊥]] :=
  ⟨by decide, _, rfl, rfl, by decide⟩

end ExpandedJoin

end BossOptimizer

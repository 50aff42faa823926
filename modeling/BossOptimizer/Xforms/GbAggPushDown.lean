import BossOptimizer.Lib.GroupedJoins
import BossOptimizer.Xforms.GroupedRows
import BossOptimizer.Xforms.SharedCtes

/-!
# Aggregates below a join

`CXformUtils::PexprPushGbBelowJoin` aggregates the outer child of an inner join instead of the join,
when the grouping columns contain a foreign key of the outer child: a group of outer rows then joins
one inner row, or none. Grouping columns of the inner child are dropped, and the HAVING predicate
moves below the join with the aggregate.

The check looks at the columns that the aggregate and the join use. It does not look at the columns
of the HAVING predicate, nor at the grouping columns that are not minimal.
-/

namespace BossOptimizer

variable {D : Type}

/-- `CPredicateUtils::FPlainEquality` (CPredicateUtils.cpp:828), with the columns compared. -/
def XformScalar.FPlainEquality : XformScalar D → Option (CColRef × CColRef)
  | .cmp .eq (.ident pcrFst) (.ident pcrSnd) => some (pcrFst, pcrSnd)
  | _ => none

namespace CXformUtils

/-- A column of the foreign key and the key column it is equal to. -/
def keyPart (prcsOutput pcrsKey : List CColRef) (pexprConjunct : XformScalar D) :
    Option (CColRef × CColRef) :=
  match pexprConjunct.FPlainEquality with
  | some (pcrFst, pcrSnd) =>
    if pcrFst ∈ pcrsKey ∧ pcrSnd ∈ prcsOutput then some (pcrSnd, pcrFst)
    else if pcrSnd ∈ pcrsKey ∧ pcrFst ∈ prcsOutput then some (pcrFst, pcrSnd)
    else none
  | none => none

/-- `PcrsFKey` (CXformUtils.cpp:197). -/
def PcrsFKey (pdrgpexpr : List (XformScalar D)) (prcsOutput pcrsKey : List CColRef) :
    Option (List CColRef) :=
  let parts := pdrgpexpr.filterMap (keyPart prcsOutput pcrsKey)
  if ∀ c ∈ pcrsKey, c ∈ parts.map (·.2) then some (parts.map (·.1)) else none

/-- `PcrsFKey` of a join (CXformUtils.cpp:261): that of the first key of the inner child that has
    one. -/
def PcrsFKeyOfJoin (pkc : List (List CColRef)) (pexprOuter : XformExpr D)
    (pexprScalar : XformScalar D) : Option (List CColRef) :=
  pkc.findSome? (PcrsFKey pexprScalar.PdrgpexprConjuncts pexprOuter.outputColumns)

/-- `FCanPushGbAggBelowJoin` (CXformUtils.cpp:614). -/
def FCanPushGbAggBelowJoin (pcrsGrpCols pcrsJoinOuterChildOutput pcrsJoinScalarUsedFromOuter
    pcrsGrpByOutput pcrsGrpByUsed : List CColRef) (pcrsFKey : Option (List CColRef)) : Bool :=
  match pcrsFKey with
  | none => false
  | some pcrsFKey => pcrsFKey.all (· ∈ pcrsGrpCols) &&
    pcrsGrpByUsed.all (· ∈ pcrsJoinOuterChildOutput) &&
      pcrsJoinScalarUsedFromOuter.all (· ∈ pcrsGrpByOutput)

/-- `PopGbAggPushableBelowJoin` (CXformUtils.cpp:562). -/
def PopGbAggPushableBelowJoin (pdrgpcr : List CColRef) (pdrgpcrMinimal : Option (List CColRef))
    (pcrsOutputOuter pcrsGrpCols : List CColRef) : List CColRef × Option (List CColRef) :=
  if pcrsGrpCols.all (· ∈ pcrsOutputOuter) then (pdrgpcr, pdrgpcrMinimal)
  else (Pdrgpcr (pcrsGrpCols.filter (· ∈ pcrsOutputOuter)), none)

/-- A select, if there is a HAVING predicate. -/
def withHaving (having : Option (XformScalar D)) (pexpr : XformExpr D) : XformExpr D :=
  match having with
  | none => pexpr
  | some pexprScalar => .select pexpr pexprScalar

/-- The aggregate over the join. -/
def gbOverJoin (pdrgpcr : List CColRef) (pdrgpcrMinimal : Option (List CColRef))
    (pexprOuter pexprInner : XformExpr D) (pexprScalar : XformScalar D)
    (pexprPrjList : List (AggCall D)) : XformExpr D :=
  .gbAgg pdrgpcr pdrgpcrMinimal (.join .inner pexprOuter pexprInner pexprScalar) pexprPrjList

/-- `PexprPushGbBelowJoin` (CXformUtils.cpp:466) on the parts of the expression; `pkc` are the
    derived keys of the inner child. -/
def PexprPushGbBelowJoin (pkc : List (List CColRef)) (having : Option (XformScalar D))
    (pdrgpcr : List CColRef) (pdrgpcrMinimal : Option (List CColRef))
    (pexprOuter pexprInner : XformExpr D) (pexprScalar : XformScalar D)
    (pexprPrjList : List (AggCall D)) : Option (XformExpr D) :=
  let pcrsGrpCols := pdrgpcrMinimal.getD pdrgpcr
  if FCanPushGbAggBelowJoin pcrsGrpCols pexprOuter.outputColumns
      (pexprScalar.usedColumns.filter (· ∈ pexprOuter.outputColumns))
      (gbOverJoin pdrgpcr pdrgpcrMinimal pexprOuter pexprInner pexprScalar
        pexprPrjList).outputColumns
      (pexprPrjList.flatMap fun call => call.args.flatMap XformOperand.usedColumns)
      (PcrsFKeyOfJoin pkc pexprOuter pexprScalar) then
    let popGbAggNew :=
      PopGbAggPushableBelowJoin pdrgpcr pdrgpcrMinimal pexprOuter.outputColumns pcrsGrpCols
    some (.join .inner
      (withHaving having (.gbAgg popGbAggNew.1 popGbAggNew.2 pexprOuter pexprPrjList))
      pexprInner pexprScalar)
  else none

section

variable [LinearOrder D] {ex : Engine D} {ctes : ℕ → List (List (Datum D))} {env : Row D}
  {outerRefs : List CColRef} {pkc : List (List CColRef)} {having : Option (XformScalar D)}
  {pdrgpcr : List CColRef} {pdrgpcrMinimal : Option (List CColRef)}
  {pexprOuter pexprInner : XformExpr D} {pexprScalar : XformScalar D}
  {pexprPrjList : List (AggCall D)}

/-! ## The match of a group -/

omit [LinearOrder D] in
theorem fPlainEquality_eq_some {pexpr : XformScalar D} {a b : CColRef}
    (h : pexpr.FPlainEquality = some (a, b)) : pexpr = .cmp .eq (.ident a) (.ident b) := by
  unfold XformScalar.FPlainEquality at h
  split at h
  · cases h
    rfl
  · cases h

omit [LinearOrder D] in
/-- A key column is compared with a column of the foreign key. -/
theorem keyPart_eq_some {prcsOutput pcrsKey : List CColRef} {pexprConjunct : XformScalar D}
    {f k : CColRef} (h : keyPart prcsOutput pcrsKey pexprConjunct = some (f, k)) :
    f ∈ prcsOutput ∧ (pexprConjunct = .cmp .eq (.ident f) (.ident k) ∨
      pexprConjunct = .cmp .eq (.ident k) (.ident f)) := by
  unfold keyPart at h
  split at h
  · next a b heq =>
    rw [fPlainEquality_eq_some heq]
    split at h
    · next hmem =>
      cases h
      exact ⟨hmem.2, .inr rfl⟩
    · split at h
      · next hmem =>
        cases h
        exact ⟨hmem.2, .inl rfl⟩
      · cases h
  · cases h

/-- What a foreign key is: each column of a key is equal to one of its columns where the predicate
    is true. -/
theorem pcrsFKey_sound {prcsOutput pcrsKey pcrsFKey : List CColRef}
    (h : PcrsFKey pexprScalar.PdrgpexprConjuncts prcsOutput pcrsKey = some pcrsFKey) {k : CColRef}
    (hk : k ∈ pcrsKey) : ∃ f ∈ pcrsFKey, f ∈ prcsOutput ∧ ∀ (S : ScalarFunctions D) (row : Row D),
      pexprScalar.isTrue S row = true → row f = row k := by
  unfold PcrsFKey at h
  dsimp only at h
  split at h
  · next hall =>
    cases h
    obtain ⟨⟨f, k'⟩, hpart, rfl⟩ := List.mem_map.1 (hall k hk)
    obtain ⟨e, he, hkey⟩ := List.mem_filterMap.1 hpart
    obtain ⟨hf, heq⟩ := keyPart_eq_some hkey
    refine ⟨f, List.mem_map_of_mem hpart, hf, fun S row htrue => ?_⟩
    have hconjunct := XformScalar.isTrue_iff_conjuncts.1 htrue e he
    rcases heq with rfl | rfl
    · exact XformScalar.eq_of_isTrue_eq hconjunct
    · exact (XformScalar.eq_of_isTrue_eq hconjunct).symm
  · cases h

/-- What holds of the parts: the children return different columns, aggregates are new columns, and
    the keys of the inner child are keys. -/
structure OverKeyedJoin (ex : Engine D) (ctes : ℕ → List (List (Datum D))) (env : Row D)
    (outerRefs : List CColRef) (pkc : List (List CColRef)) (pdrgpcr : List CColRef)
    (pdrgpcrMinimal : Option (List CColRef)) (pexprOuter pexprInner : XformExpr D)
    (pexprPrjList : List (AggCall D)) : Prop where
  outer_inner : ∀ c ∈ pexprOuter.outputColumns, c ∉ pexprInner.outputColumns
  outer_refs : ∀ c ∈ pexprOuter.outputColumns, c ∉ outerRefs
  inner_refs : ∀ c ∈ pexprInner.outputColumns, c ∉ outerRefs
  nodup_pcr : (pexprPrjList.map (·.pcr)).Nodup
  pcr_notMem : ∀ call ∈ pexprPrjList,
    call.pcr ∉ pexprOuter.outputColumns ++ pexprInner.outputColumns ++ outerRefs
  minimal_subset : ∀ minimal ∈ pdrgpcrMinimal, minimal ⊆ pdrgpcr
  key_ne_nil : ∀ key ∈ pkc, key ≠ []
  key_subset : ∀ key ∈ pkc, key ⊆ pexprInner.outputColumns
  distinctOn : ∀ key ∈ pkc, DistinctOn key (pexprInner.rows ex ctes env)

variable {pcrsFKey : List CColRef}

/-- A row of the outer child has one match, if any. -/
theorem filter_eq_singleton (h : OverKeyedJoin ex ctes env outerRefs pkc pdrgpcr pdrgpcrMinimal
      pexprOuter pexprInner pexprPrjList)
    (hfkey : PcrsFKeyOfJoin pkc pexprOuter pexprScalar = some pcrsFKey) {o i : Row D}
    (hi : i ∈ pexprInner.rows ex ctes env)
    (hmatch : pexprScalar.isTrue ex.scalars (merge pexprInner.outputColumns o i) = true) :
    (pexprInner.rows ex ctes env).filter (fun r =>
      pexprScalar.isTrue ex.scalars (merge pexprInner.outputColumns o r)) = [i] := by
  obtain ⟨key, hkey, hfkey⟩ := List.exists_of_findSome?_eq_some hfkey
  -- a match has the values of the foreign key in its key
  have hsame : ∀ r r' : Row D,
      pexprScalar.isTrue ex.scalars (merge pexprInner.outputColumns o r) = true →
      pexprScalar.isTrue ex.scalars (merge pexprInner.outputColumns o r') = true →
      sameOn key r r' = true := by
    intro r r' hr hr'
    refine sameOn_iff.2 fun k hk => ?_
    obtain ⟨f, -, hf, heq⟩ := pcrsFKey_sound hfkey hk
    have hleft := heq _ _ hr
    have hright := heq _ _ hr'
    rw [merge_of_notMem (h.outer_inner f hf), merge_of_mem (h.key_subset key hkey hk)] at hleft hright
    exact hleft.symm.trans hright
  refine DistinctOn.eq_singleton ((h.distinctOn key hkey).sublist List.filter_sublist) ?_
    (List.mem_filter.2 ⟨hi, hmatch⟩)
  exact fun r hr r' hr' => hsame r r' (List.mem_filter.1 hr).2 (List.mem_filter.1 hr').2

/-- What the new grouping columns are: the grouping columns of the outer child, all that the join
    reads among them. -/
structure PushedColumns (pdrgpcr pdrgpcrNew : List CColRef) (pexprOuter pexprInner : XformExpr D)
    (pexprScalar : XformScalar D) (outerRefs : List CColRef) : Prop where
  mem_old : ∀ c ∈ pdrgpcrNew, c ∈ pdrgpcr
  notMem_inner : ∀ c ∈ pdrgpcrNew, c ∉ pexprInner.outputColumns
  kept : ∀ c ∈ pdrgpcr, c ∈ pexprInner.outputColumns ∨ c ∈ pdrgpcrNew
  used : ∀ c ∈ pexprScalar.usedColumns, c ∈ pexprOuter.outputColumns → c ∈ pdrgpcrNew
  wellScoped : ∀ c ∈ pexprScalar.usedColumns,
    c ∈ pexprOuter.outputColumns ++ pexprInner.outputColumns ++ outerRefs

variable {pdrgpcrNew : List CColRef}
  (h : OverKeyedJoin ex ctes env outerRefs pkc pdrgpcr pdrgpcrMinimal pexprOuter pexprInner
    pexprPrjList)
  (hfkey : PcrsFKeyOfJoin pkc pexprOuter pexprScalar = some pcrsFKey)
  (hnew : PushedColumns pdrgpcr pdrgpcrNew pexprOuter pexprInner pexprScalar outerRefs)
  (hargs : ∀ call ∈ pexprPrjList, ∀ arg ∈ call.args, ∀ c ∈ arg.usedColumns,
    c ∈ pexprOuter.outputColumns)

include h hfkey hnew in
/-- Rows that agree on the new grouping columns have the same match. -/
theorem matchesByGroup :
    Joins.MatchesByGroup
      (fun o i => pexprScalar.isTrue ex.scalars (merge pexprInner.outputColumns o i))
      (merge pexprInner.outputColumns) (fun o : Row D => pdrgpcrNew.map o)
      (fun row : Row D => pdrgpcr.map row) (pexprOuter.rows ex ctes env)
      (pexprInner.rows ex ctes env) where
  congr o ho o' ho' heq := by
    refine List.filter_congr fun i hi => XformScalar.isTrue_congr fun c hc => ?_
    by_cases hinner : c ∈ pexprInner.outputColumns
    · rw [merge_of_mem hinner, merge_of_mem hinner]
    · rw [merge_of_notMem hinner, merge_of_notMem hinner]
      by_cases houter : c ∈ pexprOuter.outputColumns
      · exact List.map_inj_left.1 heq c (hnew.used c hc houter)
      · rw [XformExpr.rows_of_notMem ho houter, XformExpr.rows_of_notMem ho' houter]
  unique o _ i hi hmatch := filter_eq_singleton h hfkey hi hmatch
  key_of_groupKey o ho o' ho' i hi heq := by
    refine List.map_congr_left fun c hc => ?_
    by_cases hinner : c ∈ pexprInner.outputColumns
    · rw [merge_of_mem hinner, merge_of_mem hinner]
    · rw [merge_of_notMem hinner, merge_of_notMem hinner]
      exact List.map_inj_left.1 heq c ((hnew.kept c hc).resolve_left hinner)
  groupKey_of_key o ho o' ho' i hi i' hi' heq := by
    refine List.map_congr_left fun c hc => ?_
    have hkey := List.map_inj_left.1 heq c (hnew.mem_old c hc)
    rwa [merge_of_notMem (hnew.notMem_inner c hc), merge_of_notMem (hnew.notMem_inner c hc)] at hkey

/-! ## Rows -/

/-- The HAVING predicate, which is true if there is none. -/
def isTrueHaving (S : ScalarFunctions D) (having : Option (XformScalar D)) (row : Row D) : Bool :=
  having.all (XformScalar.isTrue S · row)

theorem rows_withHaving (pexpr : XformExpr D) : (withHaving having pexpr).rows ex ctes env =
    (pexpr.rows ex ctes env).filter (isTrueHaving ex.scalars having) := by
  cases having with
  | none => exact (List.filter_eq_self.2 fun _ _ => rfl).symm
  | some pexprScalar => rfl

omit [LinearOrder D] in
@[simp] theorem outputColumns_withHaving (pexpr : XformExpr D) :
    (withHaving having pexpr).outputColumns = pexpr.outputColumns := by
  cases having <;> rfl

theorem isTrueHaving_congr {S : ScalarFunctions D} {row row' : Row D}
    (h : ∀ pexprHaving ∈ having, ∀ c ∈ pexprHaving.usedColumns, row c = row' c) :
    isTrueHaving S having row = isTrueHaving S having row' := by
  cases having with
  | none => rfl
  | some pexprHaving => exact XformScalar.isTrue_congr (h pexprHaving rfl)

include h hfkey hnew hargs in
/-- **A group of the join is a group of outer rows with its match**, and has the same values. -/
theorem groupRow_push
    {r i row : Row D} (hr : r ∈ pexprOuter.rows ex ctes env) (hi : i ∈ pexprInner.rows ex ctes env)
    (hmatch : pexprScalar.isTrue ex.scalars (merge pexprInner.outputColumns r i) = true)
    (hrow : pdrgpcr.map row = pdrgpcr.map (merge pexprInner.outputColumns r i)) :
    ∀ c ∈ pdrgpcr ++ pexprPrjList.map (·.pcr),
      groupRow ex env pdrgpcr pexprPrjList ((XformExpr.join .inner pexprOuter pexprInner
        pexprScalar).rows ex ctes env) row c =
      merge pexprInner.outputColumns
        (groupRow ex env pdrgpcrNew pexprPrjList (pexprOuter.rows ex ctes env) r) i c := by
  intro c hc
  by_cases hpcr : c ∈ pexprPrjList.map (·.pcr)
  · obtain ⟨call, hcall, rfl⟩ := List.mem_map.1 hpcr
    have hnot := h.pcr_notMem call hcall
    simp only [List.mem_append, not_or] at hnot
    rw [merge_of_notMem hnot.1.2, groupRow_pcr h.nodup_pcr hcall, groupRow_pcr h.nodup_pcr hcall]
    have hgroup := (matchesByGroup h hfkey hnew).filter_inner hr hi hmatch
    have hrows : ((XformExpr.join .inner pexprOuter pexprInner pexprScalar).rows ex ctes env).filter
        (sameOn pdrgpcr row) = ((pexprOuter.rows ex ctes env).filter (sameOn pdrgpcrNew r)).map
          (merge pexprInner.outputColumns · i) := by
      simp only [sameOn_eq_map, hrow]
      exact hgroup
    rw [hrows]
    refine AggCall.eval_map fun o _ arg harg => XformOperand.eval_congr fun c hc => ?_
    exact merge_of_notMem (h.outer_inner c (hargs call hcall arg harg c hc))
  · have hold : c ∈ pdrgpcr := (List.mem_append.1 hc).resolve_right hpcr
    rw [groupRow_of_notMem hpcr, merge_of_mem hold, List.map_inj_left.1 hrow c hold]
    by_cases hinner : c ∈ pexprInner.outputColumns
    · rw [merge_of_mem hinner, merge_of_mem hinner]
    · rw [merge_of_notMem hinner, merge_of_notMem hinner, groupRow_of_notMem hpcr,
        merge_of_mem ((hnew.kept c hold).resolve_left hinner)]

include h hnew in
/-- The aggregate of a group has the match of the group. -/
theorem isTrue_groupRow
    {rows : List (Row D)} {r : Row D} (hr : r ∈ pexprOuter.rows ex ctes env) (i : Row D) :
    pexprScalar.isTrue ex.scalars
        (merge pexprInner.outputColumns (groupRow ex env pdrgpcrNew pexprPrjList rows r) i) =
      pexprScalar.isTrue ex.scalars (merge pexprInner.outputColumns r i) := by
  refine XformScalar.isTrue_congr fun c hc => ?_
  by_cases hinner : c ∈ pexprInner.outputColumns
  · rw [merge_of_mem hinner, merge_of_mem hinner]
  · have hpcr : c ∉ pexprPrjList.map (·.pcr) := by
      intro hmem
      obtain ⟨call, hcall, rfl⟩ := List.mem_map.1 hmem
      exact h.pcr_notMem call hcall (hnew.wellScoped _ hc)
    rw [merge_of_notMem hinner, merge_of_notMem hinner, groupRow_of_notMem hpcr]
    by_cases hmem : c ∈ pdrgpcrNew
    · rw [merge_of_mem hmem]
    · rw [merge_of_notMem hmem, XformExpr.rows_of_notMem hr fun houter =>
        hmem (hnew.used c hc houter)]

include h hfkey hnew hargs in
/-- **Aggregating before the join**, and selecting groups before the join, keeps the rows. -/
theorem sameRows_push {pdrgpcrMinimalNew : Option (List CColRef)}
    (hhaving : ∀ pexprHaving ∈ having, ∀ c ∈ pexprHaving.usedColumns,
      c ∉ pexprInner.outputColumns)
    (hne : pdrgpcrNew ≠ []) :
    SameRows (pdrgpcr ++ pexprPrjList.map (·.pcr))
      ((XformExpr.join .inner
        (withHaving having (.gbAgg pdrgpcrNew pdrgpcrMinimalNew pexprOuter pexprPrjList)) pexprInner
        pexprScalar).rows ex ctes env)
      ((withHaving having (gbOverJoin pdrgpcr pdrgpcrMinimal pexprOuter pexprInner pexprScalar
        pexprPrjList)).rows ex ctes env) := by
  have hne' : pdrgpcr ≠ [] := by
    obtain ⟨c, hc⟩ := List.exists_mem_of_ne_nil _ hne
    exact List.ne_nil_of_mem (hnew.mem_old c hc)
  set O := pexprOuter.rows ex ctes env with hO
  set I := pexprInner.rows ex ctes env with hI
  set p : Row D → Row D → Bool := fun o i =>
    pexprScalar.isTrue ex.scalars (merge pexprInner.outputColumns o i) with hp
  set gr := groupRow ex env pdrgpcrNew pexprPrjList O with hgr
  set reps := dedupOn pdrgpcrNew O with hreps
  have hmem : ∀ {r}, r ∈ reps → r ∈ O := fun hr => (dedupOn_sublist _ _).subset hr
  have hleft : (XformExpr.join .inner
      (withHaving having (.gbAgg pdrgpcrNew pdrgpcrMinimalNew pexprOuter pexprPrjList)) pexprInner
      pexprScalar).rows ex ctes env = ((Joins.inner p Prod.mk reps I).map fun ri =>
        merge pexprInner.outputColumns (gr ri.1) ri.2).filter (isTrueHaving ex.scalars having) := by
    rw [XformExpr.rows, rows_withHaving, XformExpr.rows, groupRows_eq, leaders, if_neg hne]
    refine (Joins.inner_filter_left fun a _ b _ => isTrueHaving_congr fun pexprHaving hmem c hc =>
      merge_of_notMem (hhaving pexprHaving hmem c hc)).trans (congrArg _ ?_)
    rw [Joins.inner, List.flatMap_map]
    refine Eq.trans (Joins.inner_congr (p := p) (fun r hr i _ => isTrue_groupRow h hnew (hmem hr) i)
      fun _ _ _ _ => rfl) (Joins.inner_eq_map _ _ _ _)
  set J := (XformExpr.join .inner pexprOuter pexprInner pexprScalar).rows ex ctes env with hJ
  have hright : (withHaving having (gbOverJoin pdrgpcr pdrgpcrMinimal pexprOuter pexprInner
      pexprScalar pexprPrjList)).rows ex ctes env =
      ((dedupOn pdrgpcr J).map (groupRow ex env pdrgpcr pexprPrjList J)).filter
        (isTrueHaving ex.scalars having) := by
    rw [rows_withHaving, gbOverJoin, XformExpr.rows, groupRows_eq, leaders, if_neg hne']
  have hkeys : ((dedupOn pdrgpcr J).map fun row => pdrgpcr.map row).Perm
      ((Joins.inner p Prod.mk reps I).map fun ri =>
        pdrgpcr.map (merge pexprInner.outputColumns ri.1 ri.2)) := by
    have hperm := (matchesByGroup h hfkey hnew).perm_keys
    rw [Joins.inner_eq_map _ _ (Groups.representatives _ _), List.map_map] at hperm
    rw [dedupOn_eq_representatives, hreps, dedupOn_eq_representatives]
    exact hperm
  rw [hleft, hright]
  refine SameRows.filter ?_
  rw [List.map_map, List.map_map]
  refine (Groups.perm_map_of_perm_key hkeys fun row _ ri hri hkey => ?_).symm
  obtain ⟨r, hr, i, hi, hmatch, rfl⟩ := Joins.mem_inner.1 hri
  have hvals := groupRow_push h hfkey hnew hargs (hmem hr) hi hmatch hkey
  refine Prod.ext (isTrueHaving_congr fun pexprHaving hsome c hc => ?_)
    (List.map_congr_left fun c hc => hvals c hc)
  by_cases hout : c ∈ pdrgpcr ++ pexprPrjList.map (·.pcr)
  · exact hvals c hout
  · -- an outer reference
    rw [List.mem_append, not_or] at hout
    have hnewRow : merge pexprInner.outputColumns (gr r) i c = env c := by
      rw [merge_of_notMem (hhaving pexprHaving hsome c hc), hgr, groupRow_of_notMem hout.2,
        merge_of_notMem fun hmem => hout.1 (hnew.mem_old c hmem)]
    exact ((groupRow_of_notMem hout.2).trans (merge_of_notMem hout.1)).trans hnewRow.symm

/-! ## When the aggregate can be moved -/

/-- No column of the inner child is used below the join, and no grouping column is lost: grouping
    columns are of the inner child, or of the outer child and minimal, or, if all minimal columns
    are of the outer child, none is of the inner child. -/
def KeepsColumns (having : Option (XformScalar D)) (pdrgpcr : List CColRef)
    (pdrgpcrMinimal : Option (List CColRef)) (pcrsOutputOuter pcrsOutputInner : List CColRef) :
    Prop :=
  (if (pdrgpcrMinimal.getD pdrgpcr).all (· ∈ pcrsOutputOuter) then
      ∀ c ∈ pdrgpcr, c ∉ pcrsOutputInner
    else ∀ c ∈ pdrgpcr, c ∈ pcrsOutputInner ∨
      (c ∈ pdrgpcrMinimal.getD pdrgpcr ∧ c ∈ pcrsOutputOuter)) ∧
  ∀ pexprHaving ∈ having, ∀ c ∈ pexprHaving.usedColumns, c ∉ pcrsOutputInner

omit [LinearOrder D] in
theorem wellScoped_withHaving {pexpr : XformExpr D} :
    (withHaving having pexpr).WellScoped outerRefs ↔ pexpr.WellScoped outerRefs ∧
      ∀ pexprHaving ∈ having, ∀ c ∈ pexprHaving.usedColumns,
        c ∈ pexpr.outputColumns ++ outerRefs := by
  cases having <;> simp [withHaving, XformExpr.WellScoped]

omit [LinearOrder D] in
theorem mem_popGbAgg {pcrsOutputOuter pcrsGrpCols : List CColRef} {c : CColRef} :
    c ∈ (PopGbAggPushableBelowJoin pdrgpcr pdrgpcrMinimal pcrsOutputOuter pcrsGrpCols).1 ↔
      if pcrsGrpCols.all (· ∈ pcrsOutputOuter) then c ∈ pdrgpcr
      else c ∈ pcrsGrpCols ∧ c ∈ pcrsOutputOuter := by
  unfold PopGbAggPushableBelowJoin
  split
  · rfl
  · rw [mem_pdrgpcr, List.mem_filter, decide_eq_true_eq]

omit [LinearOrder D] in
/-- The condition, in terms of the new grouping columns. -/
theorem keepsColumns_iff {pcrsOutputOuter pcrsOutputInner : List CColRef}
    (hdisjoint : ∀ c ∈ pcrsOutputOuter, c ∉ pcrsOutputInner) :
    let pdrgpcrNew := (PopGbAggPushableBelowJoin pdrgpcr pdrgpcrMinimal pcrsOutputOuter
      (pdrgpcrMinimal.getD pdrgpcr)).1
    KeepsColumns having pdrgpcr pdrgpcrMinimal pcrsOutputOuter pcrsOutputInner ↔
      (∀ c ∈ pdrgpcrNew, c ∉ pcrsOutputInner) ∧
      (∀ c ∈ pdrgpcr, c ∈ pcrsOutputInner ∨ c ∈ pdrgpcrNew) ∧
      ∀ pexprHaving ∈ having, ∀ c ∈ pexprHaving.usedColumns, c ∉ pcrsOutputInner := by
  intro pdrgpcrNew
  rw [KeepsColumns]
  simp only [pdrgpcrNew, mem_popGbAgg]
  split
  · exact ⟨fun hkeeps => ⟨hkeeps.1, fun _ hc => .inr hc, hkeeps.2⟩,
      fun hkeeps => ⟨hkeeps.1, hkeeps.2.2⟩⟩
  · exact ⟨fun hkeeps => ⟨fun c hc => hdisjoint c hc.2, hkeeps⟩, fun hkeeps => hkeeps.2⟩

/-- What the check says. -/
theorem fCanPush_sound {pcrsGrpCols pcrsJoinOuterChildOutput pcrsJoinScalarUsedFromOuter
    pcrsGrpByOutput pcrsGrpByUsed : List CColRef} {pcrsFKey : Option (List CColRef)}
    (h : FCanPushGbAggBelowJoin pcrsGrpCols pcrsJoinOuterChildOutput pcrsJoinScalarUsedFromOuter
      pcrsGrpByOutput pcrsGrpByUsed pcrsFKey = true) :
    ∃ fkey, pcrsFKey = some fkey ∧ (∀ c ∈ fkey, c ∈ pcrsGrpCols) ∧
      (∀ c ∈ pcrsGrpByUsed, c ∈ pcrsJoinOuterChildOutput) ∧
      ∀ c ∈ pcrsJoinScalarUsedFromOuter, c ∈ pcrsGrpByOutput := by
  unfold FCanPushGbAggBelowJoin at h
  split at h
  · cases h
  · next fkey =>
    simp only [Bool.and_eq_true, List.all_eq_true, decide_eq_true_eq] at h
    exact ⟨fkey, rfl, h.1.1, h.1.2, h.2⟩

/-- **Pushing an aggregate below a join** keeps the rows and the scopes exactly where no column of
    the inner child is used below the join and no grouping column is lost. -/
theorem PexprPushGbBelowJoin_rewrites_iff {pexprNew : XformExpr D}
    (h : OverKeyedJoin ex ctes env outerRefs pkc pdrgpcr pdrgpcrMinimal pexprOuter pexprInner
      pexprPrjList)
    (hscoped : (withHaving having (gbOverJoin pdrgpcr pdrgpcrMinimal pexprOuter pexprInner
      pexprScalar pexprPrjList)).WellScoped outerRefs)
    (hpush : PexprPushGbBelowJoin pkc having pdrgpcr pdrgpcrMinimal pexprOuter pexprInner
      pexprScalar pexprPrjList = some pexprNew) :
    (withHaving having (gbOverJoin pdrgpcr pdrgpcrMinimal pexprOuter pexprInner pexprScalar
      pexprPrjList)).Rewrites ex ctes env outerRefs pexprNew ↔
    KeepsColumns having pdrgpcr pdrgpcrMinimal pexprOuter.outputColumns
      pexprInner.outputColumns := by
  unfold PexprPushGbBelowJoin at hpush
  dsimp only at hpush
  split at hpush
  · next hcan =>
    obtain ⟨fkey, hfkey, hfkeyMem, hargs, hused⟩ := fCanPush_sound hcan
    obtain ⟨⟨⟨hscopedOuter, hscopedInner, hscopedScalar⟩, hscopedGb⟩, hscopedHaving⟩ :=
      wellScoped_withHaving.1 hscoped
    refine Iff.trans ?_ (keepsColumns_iff h.outer_inner).symm
    set pdrgpcrNew := (PopGbAggPushableBelowJoin pdrgpcr pdrgpcrMinimal pexprOuter.outputColumns
      (pdrgpcrMinimal.getD pdrgpcr)).1 with hpdrgpcrNew
    have hgb : (gbOverJoin pdrgpcr pdrgpcrMinimal pexprOuter pexprInner pexprScalar
        pexprPrjList).outputColumns = pdrgpcr ++ pexprPrjList.map (·.pcr) := rfl
    rw [hgb] at hused hscopedHaving
    have hminimal : ∀ c ∈ pdrgpcrMinimal.getD pdrgpcr, c ∈ pdrgpcr := by
      cases hm : pdrgpcrMinimal with
      | none => exact fun c hc => hc
      | some minimal => exact fun c hc => h.minimal_subset minimal hm hc
    have hmem : ∀ c ∈ pdrgpcrNew, c ∈ pdrgpcr := by
      intro c hc
      rw [hpdrgpcrNew, mem_popGbAgg] at hc
      split at hc
      · exact hc
      · exact hminimal c hc.1
    have hpcr : ∀ c ∈ pexprPrjList.map (·.pcr),
        c ∉ pexprOuter.outputColumns ++ pexprInner.outputColumns ++ outerRefs := by
      intro c hc
      obtain ⟨call, hcall, rfl⟩ := List.mem_map.1 hc
      exact h.pcr_notMem call hcall
    cases hpush
    constructor
    · intro hrewrites
      obtain ⟨hselect, -, -⟩ := hrewrites.wellScoped
      obtain ⟨⟨-, hgbNew⟩, hhaving⟩ := wellScoped_withHaving.1 hselect
      refine ⟨fun c hc hin => ?_, fun c hc => ?_, fun pexprHaving hsome c hc hin => ?_⟩
      · rcases List.mem_append.1 (hgbNew c (List.mem_append_left _ hc)) with houter | hrefs
        · exact h.outer_inner c houter hin
        · exact h.inner_refs c hin hrefs
      · have hout : c ∈ pdrgpcrNew ++ pexprPrjList.map (·.pcr) ++ pexprInner.outputColumns := by
          have hmem := hrewrites.output (a := c) (by
            rw [outputColumns_withHaving, hgb]
            exact List.mem_append_left _ hc)
          rw [XformExpr.outputColumns, if_pos (show EJoinOp.inner.keepsInner = true from rfl),
            outputColumns_withHaving] at hmem
          exact hmem
        simp only [List.mem_append] at hout
        rcases hout with (hnew | hagg) | hin
        · exact .inr hnew
        · refine absurd (hscopedGb c (List.mem_append_left _ hc)) ?_
          simpa [XformExpr.outputColumns, EJoinOp.keepsInner] using hpcr c hagg
        · exact .inl hin
      · have hmem := hhaving pexprHaving hsome c hc
        simp only [XformExpr.outputColumns, List.mem_append] at hmem
        rcases hmem with (hnew | hagg) | hrefs
        · rcases List.mem_append.1 (hgbNew c (List.mem_append_left _ hnew)) with houter | hrefs
          · exact h.outer_inner c houter hin
          · exact h.inner_refs c hin hrefs
        · exact hpcr c hagg (List.mem_append_left _ (List.mem_append_right _ hin))
        · exact h.inner_refs c hin hrefs
    · rintro ⟨hinner, hkept, hhaving⟩
      have hnew : PushedColumns pdrgpcr pdrgpcrNew pexprOuter pexprInner pexprScalar outerRefs :=
        { mem_old := hmem
          notMem_inner := hinner
          kept := hkept
          used := fun c hc houter => by
            rcases List.mem_append.1 (hused c (List.mem_filter.2 ⟨hc, by simpa using houter⟩))
              with hold | hagg
            · exact (hkept c hold).resolve_left (h.outer_inner c houter)
            · exact absurd (List.mem_append_left _ (List.mem_append_left _ houter)) (hpcr c hagg)
          wellScoped := hscopedScalar }
      have hargs' : ∀ call ∈ pexprPrjList, ∀ arg ∈ call.args, ∀ c ∈ arg.usedColumns,
          c ∈ pexprOuter.outputColumns := fun call hcall arg harg c hc =>
        hargs c (List.mem_flatMap.2 ⟨call, hcall, List.mem_flatMap.2 ⟨arg, harg, hc⟩⟩)
      have hne : pdrgpcrNew ≠ [] := by
        obtain ⟨key, hkey, hpart⟩ := List.exists_of_findSome?_eq_some hfkey
        obtain ⟨k, hk⟩ := List.exists_mem_of_ne_nil _ (h.key_ne_nil key hkey)
        obtain ⟨f, hf, houter, -⟩ := pcrsFKey_sound hpart hk
        exact List.ne_nil_of_mem ((hkept f (hminimal f (hfkeyMem f hf))).resolve_left
          (h.outer_inner f houter))
      refine ⟨⟨wellScoped_withHaving.2 ⟨⟨hscopedOuter, fun c hc => ?_⟩, ?_⟩, hscopedInner, ?_⟩,
        ?_, ?_⟩
      · rcases List.mem_append.1 hc with hc | hc
        · have hold := hscopedGb c (List.mem_append_left _ (hmem c hc))
          simp only [XformExpr.outputColumns, EJoinOp.keepsInner, if_true, List.mem_append] at hold ⊢
          have := hinner c hc
          tauto
        · exact List.mem_append_left _ (hargs c hc)
      · intro pexprHaving hsome c hc
        have hold := hscopedHaving pexprHaving hsome c hc
        have hnot := hhaving pexprHaving hsome c hc
        have hkeep := hkept c
        simp only [XformExpr.outputColumns, List.mem_append] at hold ⊢
        tauto
      · intro c hc
        have hold := hscopedScalar c hc
        have hkeep := hnew.used c hc
        rw [outputColumns_withHaving]
        simp only [XformExpr.outputColumns, List.mem_append] at hold ⊢
        tauto
      · intro c hc
        have hkeep := hkept c
        rw [outputColumns_withHaving, hgb] at hc
        rw [XformExpr.outputColumns, if_pos (show EJoinOp.inner.keepsInner = true from rfl),
          outputColumns_withHaving]
        simp only [XformExpr.outputColumns, List.mem_append] at hc ⊢
        tauto
      · rw [outputColumns_withHaving, hgb]
        exact sameRows_push h hfkey hnew hargs' hhaving hne
  · cases hpush

end

/-- The tables `orders(fk)` and `parts(k, v)`, of which `k` is the key. -/
def gbcol (id : ℕ) : CColRef := ⟨id, true, true, true⟩

def orders : XformExpr ℕ :=
  .leaf ⟨[gbcol 1], [], false, fun _ => [[(7 : ℕ)], [(7 : ℕ)]], fun _ _ _ => rfl⟩

def parts : XformExpr ℕ :=
  .leaf ⟨[gbcol 2, gbcol 3], [], false, fun _ => [[(7 : ℕ), (1 : ℕ)]], fun _ _ _ => rfl⟩

def ordersOfParts : XformScalar ℕ := .cmp .eq (.ident (gbcol 1)) (.ident (gbcol 2))

/-- `count(*)`, and the groups with a count above `v`. -/
def countOrders : List (AggCall ℕ) := [⟨gbcol 4, 0, .global, false, false, []⟩]

def aboveV : XformScalar ℕ := .cmp .g (.ident (gbcol 4)) (.ident (gbcol 3))

theorem overKeyedJoin_orders : OverKeyedJoin (Engine.inOrder fun _ => .count) (fun _ => [])
    (fun _ => ⊥) [] [[gbcol 2]] [gbcol 1, gbcol 3] none orders parts countOrders where
  outer_inner := by decide
  outer_refs := by decide
  inner_refs := by decide
  nodup_pcr := by decide
  pcr_notMem := by decide
  minimal_subset := by simp
  key_ne_nil := by decide
  key_subset := by decide
  distinctOn key _ := distinctOn_of_length_le_one le_rfl

theorem PexprPushGbBelowJoin_rewrites_iff_orders :
    let orig := withHaving none (gbOverJoin [gbcol 1, gbcol 3] none orders parts ordersOfParts
      countOrders)
    ∃ pexprNew, PexprPushGbBelowJoin [[gbcol 2]] none [gbcol 1, gbcol 3] none orders parts
      ordersOfParts countOrders = some pexprNew ∧
    (orig.Rewrites (Engine.inOrder fun _ => .count) (fun _ => []) (fun _ => ⊥) [] pexprNew ↔
      KeepsColumns (none : Option (XformScalar ℕ)) [gbcol 1, gbcol 3] none orders.outputColumns
        parts.outputColumns) := by
  have hscoped : (withHaving none (gbOverJoin [gbcol 1, gbcol 3] none orders parts ordersOfParts
      countOrders)).WellScoped [] := by
    simp [withHaving, gbOverJoin, orders, parts, ordersOfParts, countOrders, XformExpr.WellScoped,
      XformScalar.usedColumns, XformOperand.usedColumns, XformExpr.outputColumns,
      EJoinOp.keepsInner]
  exact ⟨_, rfl, PexprPushGbBelowJoin_rewrites_iff overKeyedJoin_orders hscoped rfl⟩

/-- A HAVING predicate on a column of the inner child is moved to where the column is not. -/
theorem not_rewrites_aboveV :
    OverKeyedJoin (Engine.inOrder fun _ => .count) (fun _ => []) (fun _ => ⊥) [] [[gbcol 2]]
      [gbcol 1, gbcol 3] none orders parts countOrders ∧
    ∃ pexprNew, PexprPushGbBelowJoin [[gbcol 2]] (some aboveV) [gbcol 1, gbcol 3] none orders parts
      ordersOfParts countOrders = some pexprNew ∧
    (withHaving (some aboveV) (gbOverJoin [gbcol 1, gbcol 3] none orders parts ordersOfParts
      countOrders)).WellScoped [] ∧
    ¬(withHaving (some aboveV) (gbOverJoin [gbcol 1, gbcol 3] none orders parts ordersOfParts
      countOrders)).Rewrites (Engine.inOrder fun _ => .count) (fun _ => []) (fun _ => ⊥) []
        pexprNew := by
  refine ⟨overKeyedJoin_orders, _, rfl, ?_, fun h => absurd h.rows ?_⟩
  · simp [withHaving, gbOverJoin, orders, parts, ordersOfParts, countOrders, aboveV,
      XformExpr.WellScoped, XformScalar.usedColumns, XformOperand.usedColumns,
      XformExpr.outputColumns, EJoinOp.keepsInner]
  · decide +kernel

end CXformUtils

end BossOptimizer

import BossOptimizer.Operators.CExpressionFactorizer

/-!
# Inferred filters: `PexprExtractInferredFilters`

For each operator that columns come from, and for each computed column, the conjuncts of the
disjuncts that are about it are kept in an array of arrays, one array for each disjunct from the
first one on. A source whose array is as long as the disjunction says something about every
disjunct; the disjunction of these is implied, and is added to the disjunction.
-/

namespace BossOptimizer

/-- What the inference of filters asks of operators, expressions and columns besides. -/
structure FilterOperators (Op : Type) extends PredicateOperators Op where
  FLogical : Op → Bool
  FScalar : Op → Bool
  /-- `Eopid` is `EopLogicalSelect`. -/
  FSelect : Op → Bool
  DeriveDefinedColumns : Predicate Op → List CColRef
  DeriveHasSubquery : Predicate Op → Bool
  /-- `Efs` of `DeriveScalarFunctionProperties` is `EfsVolatile`. -/
  FVolatile : Predicate Op → Bool
  /-- `Efda` of `DeriveScalarFunctionProperties` is `EfdaNoSQL`. -/
  FNoSQL : Predicate Op → Bool
  DeriveUsedColumns : Predicate Op → List CColRef
  UlSourceOpId : CColRef → ℕ

namespace Predicate

variable {Op K : Type}

/-- `gpos::ulong_max`. -/
def ulong_max : ℕ := 2 ^ 32 - 1

/-- `SourceToArrayPosMap` and `ColumnToArrayPosMap`, as the list of their entries. -/
abbrev ArrayPosMap (K Op : Type) : Type := List (K × List (List (Predicate Op)))

section Definitions

variable (ops : FilterOperators Op)

/-- `COperator::FLogical`. -/
def FLogical : PredicateOp Op → Bool := PredicateOp.ofOther ops.FLogical

/-- `COperator::FScalar`. -/
def FScalar : PredicateOp Op → Bool
  | .other pop => ops.FScalar pop
  | _ => true

/-- `PcrsUsedByPushableScalar` (CExpressionFactorizer.cpp:342). -/
def PcrsUsedByPushableScalar (pexpr : Predicate Op) : Option (List CColRef) :=
  if !FScalar ops pexpr.Pop then none
  else if 0 < (ops.DeriveDefinedColumns pexpr).length || ops.DeriveHasSubquery pexpr ||
      ops.FVolatile pexpr || !ops.FNoSQL pexpr then none
  else some (ops.DeriveUsedColumns pexpr)

/-- The loop of `FOpSourceIdOrComputedColumn` over the columns. -/
def sourceLoop : List CColRef → Option CColRef → ℕ → Option (ℕ × Option CColRef)
  | [], ppcrComputedColumn, ulComputedOpSourceId =>
    some (ulComputedOpSourceId, ppcrComputedColumn)
  | colref :: crsi, ppcrComputedColumn, ulComputedOpSourceId =>
    if !colref.fTable then
      match ppcrComputedColumn with
      | none => sourceLoop crsi (some colref) ulComputedOpSourceId
      | some pcr => if colref ≠ pcr then none else sourceLoop crsi (some pcr) ulComputedOpSourceId
    else if ppcrComputedColumn.isSome then none
    else if ulComputedOpSourceId = ulong_max then
      sourceLoop crsi ppcrComputedColumn (ops.UlSourceOpId colref)
    else if ulComputedOpSourceId ≠ ops.UlSourceOpId colref then none
    else sourceLoop crsi ppcrComputedColumn ulComputedOpSourceId

/-- `FOpSourceIdOrComputedColumn` (CExpressionFactorizer.cpp:376). -/
def FOpSourceIdOrComputedColumn (pexpr : Predicate Op) : Option (ℕ × Option CColRef) :=
  match PcrsUsedByPushableScalar ops pexpr with
  | none => none
  | some [] => none
  | some pcrsUsed => sourceLoop ops pcrsUsed none ulong_max

/-- The entry of a key, made if new ones are allowed. -/
def disjunctArray [DecidableEq K] (map : ArrayPosMap K Op) (fAllowNewSources : Bool) (key : K) :
    ArrayPosMap K Op :=
  if (map.find? (·.1 = key)).isSome || !fAllowNewSources then map else map ++ [(key, [])]

/-- `PdrgPdrgpexprDisjunctArrayForSourceId` (CExpressionFactorizer.cpp:442). -/
def PdrgPdrgpexprDisjunctArrayForSourceId (psrc2array : ArrayPosMap ℕ Op)
    (fAllowNewSources : Bool) (ulOpSourceId : ℕ) : ArrayPosMap ℕ Op :=
  disjunctArray psrc2array fAllowNewSources ulOpSourceId

/-- `PdrgPdrgpexprDisjunctArrayForColumn` (CExpressionFactorizer.cpp:485). -/
def PdrgPdrgpexprDisjunctArrayForColumn (pcol2array : ArrayPosMap CColRef Op)
    (fAllowNewSources : Bool) (colref : CColRef) : ArrayPosMap CColRef Op :=
  disjunctArray pcol2array fAllowNewSources colref

/-- The end of `StoreBaseOpToColumnExpr` (CExpressionFactorizer.cpp:568): a new array for a new
    disjunct, or one more conjunct of the current one. -/
def appendAt (ulPosition : ℕ) (pexpr : Predicate Op) (pdrgpdrgpexpr : List (List (Predicate Op))) :
    List (List (Predicate Op)) :=
  if ulPosition = pdrgpdrgpexpr.length then pdrgpdrgpexpr ++ [[pexpr]]
  else if ulPosition + 1 = pdrgpdrgpexpr.length then
    pdrgpdrgpexpr.modify ulPosition (· ++ [pexpr])
  else pdrgpdrgpexpr

/-- `appendAt` on the entry of a key. -/
def storeAt [DecidableEq K] (map : ArrayPosMap K Op) (key : K) (ulPosition : ℕ)
    (pexpr : Predicate Op) : ArrayPosMap K Op :=
  map.map fun entry => if entry.1 = key then (key, appendAt ulPosition pexpr entry.2) else entry

/-- `StoreBaseOpToColumnExpr` (CExpressionFactorizer.cpp:525). -/
def StoreBaseOpToColumnExpr (pcrsProducedByChildren : Option (List CColRef))
    (fAllowNewSources : Bool) (ulPosition : ℕ) (maps : ArrayPosMap ℕ Op × ArrayPosMap CColRef Op)
    (pexpr : Predicate Op) : ArrayPosMap ℕ Op × ArrayPosMap CColRef Op :=
  match FOpSourceIdOrComputedColumn ops pexpr with
  | none => maps
  | some (ulOpSourceId, pcrComputed) =>
    if ulOpSourceId ≠ ulong_max then
      (storeAt (PdrgPdrgpexprDisjunctArrayForSourceId maps.1 fAllowNewSources ulOpSourceId)
        ulOpSourceId ulPosition pexpr, maps.2)
    else
      match pcrComputed with
      -- excluded by an assertion
      | none => maps
      | some pcrComputed =>
        if (pcrsProducedByChildren.getD []).contains pcrComputed then maps
        else
          (maps.1, storeAt
            (PdrgPdrgpexprDisjunctArrayForColumn maps.2 fAllowNewSources pcrComputed)
            pcrComputed ulPosition pexpr)

/-- `AddInferredFiltersFromArray` (CExpressionFactorizer.cpp:640): what is added. -/
def AddInferredFiltersFromArray (pdrgpdrgpexpr : List (List (Predicate Op)))
    (ulDisjChildrenLength : ℕ) : List (Predicate Op) :=
  if pdrgpdrgpexpr.length = ulDisjChildrenLength then
    let pdrgpexprDisjuncts := pdrgpdrgpexpr.map (PexprConjDisj true)
    if 0 < pdrgpexprDisjuncts.length then [PexprConjDisj false pdrgpexprDisjuncts] else []
  else []

/-- `PexprAddInferredFilters` (CExpressionFactorizer.cpp:599). -/
def PexprAddInferredFilters (pexpr : Predicate Op)
    (maps : ArrayPosMap ℕ Op × ArrayPosMap CColRef Op) : Predicate Op :=
  PexprConjDisj true (pexpr ::
    (maps.1.flatMap (AddInferredFiltersFromArray ·.2 pexpr.PdrgPexpr.length) ++
      maps.2.flatMap (AddInferredFiltersFromArray ·.2 pexpr.PdrgPexpr.length)))

/-- `PcrsColumnsProducedByChildren` (CExpressionFactorizer.cpp:675). -/
def PcrsColumnsProducedByChildren (pexpr : Predicate Op) : List CColRef :=
  pexpr.PdrgPexpr.flatMap fun pexprChild =>
    (pexprChild.PdrgPexpr.filter fun pexprGrandChild => FScalar ops pexprGrandChild.Pop).flatMap
      ops.DeriveDefinedColumns

/-- The conjuncts of the disjunct at a position. -/
def storeDisjunct (pcrsProducedByChildren : Option (List CColRef))
    (maps : ArrayPosMap ℕ Op × ArrayPosMap CColRef Op) (disjunct : Predicate Op × ℕ) :
    ArrayPosMap ℕ Op × ArrayPosMap CColRef Op :=
  (conjuncts disjunct.1).foldl
    (StoreBaseOpToColumnExpr ops pcrsProducedByChildren (disjunct.2 == 0) disjunct.2) maps

/-- `PexprExtractInferredFiltersFromDisj` (CExpressionFactorizer.cpp:711). -/
def PexprExtractInferredFiltersFromDisj (pexpr : Predicate Op)
    (pexprLowestLogicalAncestor : Option (Predicate Op)) : Option (Predicate Op) :=
  pexprLowestLogicalAncestor.map fun pexprAncestor =>
    let pcrsProducedByChildren :=
      if PredicateOp.ofOther ops.FSelect pexprAncestor.Pop then
        some (PcrsColumnsProducedByChildren ops pexprAncestor)
      else none
    match pexpr.PdrgPexpr.zipIdx with
    | [] => PexprDedupChildren ops.toPredicateOperators (PexprAddInferredFilters pexpr ([], []))
    | first :: rest =>
      let maps := storeDisjunct ops pcrsProducedByChildren ([], []) first
      if maps.1.isEmpty && maps.2.isEmpty then pexpr
      else
        PexprDedupChildren ops.toPredicateOperators
          (PexprAddInferredFilters pexpr
            (rest.foldl (storeDisjunct ops pcrsProducedByChildren) maps))

/-- `PexprExtractInferredFilters` (CExpressionFactorizer.cpp:801). -/
def PexprExtractInferredFilters (pexpr : Predicate Op) : Option (Predicate Op) :=
  PexprProcessDisjDescendents (FLogical ops) (PexprExtractInferredFiltersFromDisj ops) pexpr none

end Definitions

/-! ## What the arrays hold -/

/-- The array at a position has conjuncts of the disjunct at that position. -/
def Covers (pdrgpexpr : List (Predicate Op)) (pdrgpdrgpexpr : List (List (Predicate Op))) : Prop :=
  ∀ (ul : ℕ) (conjs : List (Predicate Op)), pdrgpdrgpexpr[ul]? = some conjs →
    ∃ d, pdrgpexpr[ul]? = some d ∧ ∀ c ∈ conjs, c ∈ conjuncts d

/-- Every entry of a map covers a prefix of the disjunction. -/
def MapCovers (pdrgpexpr : List (Predicate Op)) (map : ArrayPosMap K Op) : Prop :=
  ∀ entry ∈ map, Covers pdrgpexpr entry.2

variable {pdrgpexpr : List (Predicate Op)}

theorem covers_appendAt {pdrgpdrgpexpr : List (List (Predicate Op))} {ulPosition : ℕ}
    {c d : Predicate Op} (hd : pdrgpexpr[ulPosition]? = some d) (hc : c ∈ conjuncts d)
    (h : Covers pdrgpexpr pdrgpdrgpexpr) :
    Covers pdrgpexpr (appendAt ulPosition c pdrgpdrgpexpr) := by
  intro ul conjs hconjs
  unfold appendAt at hconjs
  split at hconjs
  · rename_i hlen
    rw [hlen] at hd
    rw [List.getElem?_append] at hconjs
    split at hconjs
    · exact h ul conjs hconjs
    · rename_i hle
      obtain ⟨hzero, rfl⟩ : ul - pdrgpdrgpexpr.length = 0 ∧ [c] = conjs := by
        simpa [List.getElem?_singleton] using hconjs
      obtain rfl : ul = pdrgpdrgpexpr.length := by omega
      exact ⟨d, hd, fun x hx => List.mem_singleton.1 hx ▸ hc⟩
  · split at hconjs
    · rw [List.getElem?_modify] at hconjs
      obtain ⟨old, hold, rfl⟩ := Option.map_eq_some_iff.1 hconjs
      obtain ⟨d', hd', hall⟩ := h ul old hold
      refine ⟨d', hd', fun x hx => ?_⟩
      split at hx
      · rename_i hul
        obtain rfl : d = d' := Option.some.inj ((hul ▸ hd).symm.trans hd')
        rcases List.mem_append.1 hx with hx | hx
        · exact hall x hx
        · exact List.mem_singleton.1 hx ▸ hc
      · exact hall x hx
    · exact h ul conjs hconjs

theorem mapCovers_disjunctArray [DecidableEq K] {map : ArrayPosMap K Op} (fAllowNewSources : Bool)
    (key : K) (h : MapCovers pdrgpexpr map) :
    MapCovers pdrgpexpr (disjunctArray map fAllowNewSources key) := by
  unfold disjunctArray
  split
  · exact h
  · intro entry hentry
    rcases List.mem_append.1 hentry with hold | hnew
    · exact h entry hold
    · obtain rfl := List.mem_singleton.1 hnew
      intro ul conjs hconjs
      simp at hconjs

theorem mapCovers_storeAt [DecidableEq K] {map : ArrayPosMap K Op} (key : K) {ulPosition : ℕ}
    {c d : Predicate Op} (hd : pdrgpexpr[ulPosition]? = some d) (hc : c ∈ conjuncts d)
    (h : MapCovers pdrgpexpr map) : MapCovers pdrgpexpr (storeAt map key ulPosition c) := by
  intro entry hentry
  obtain ⟨old, hold, rfl⟩ := List.mem_map.1 hentry
  split
  · exact covers_appendAt hd hc (h old hold)
  · exact h old hold

variable {ops : FilterOperators Op}

/-- Both maps cover prefixes of the disjunction. -/
def MapsCover (pdrgpexpr : List (Predicate Op))
    (maps : ArrayPosMap ℕ Op × ArrayPosMap CColRef Op) : Prop :=
  MapCovers pdrgpexpr maps.1 ∧ MapCovers pdrgpexpr maps.2

theorem mapsCover_nil : MapsCover pdrgpexpr ([], []) := by
  constructor <;> intro entry hentry <;> simp at hentry

/-- One conjunct is stored. -/
theorem mapsCover_store {maps : ArrayPosMap ℕ Op × ArrayPosMap CColRef Op}
    (pcrsProducedByChildren : Option (List CColRef)) (fAllowNewSources : Bool) {ulPosition : ℕ}
    {c d : Predicate Op} (hd : pdrgpexpr[ulPosition]? = some d) (hc : c ∈ conjuncts d)
    (h : MapsCover pdrgpexpr maps) :
    MapsCover pdrgpexpr
      (StoreBaseOpToColumnExpr ops pcrsProducedByChildren fAllowNewSources ulPosition maps c) := by
  unfold StoreBaseOpToColumnExpr
  split
  · exact h
  · split
    · exact ⟨mapCovers_storeAt _ hd hc (mapCovers_disjunctArray _ _ h.1), h.2⟩
    · split
      · exact h
      · split
        · exact h
        · exact ⟨h.1, mapCovers_storeAt _ hd hc (mapCovers_disjunctArray _ _ h.2)⟩

/-- One disjunct is stored. -/
theorem mapsCover_storeDisjunct {maps : ArrayPosMap ℕ Op × ArrayPosMap CColRef Op}
    (pcrsProducedByChildren : Option (List CColRef)) {disjunct : Predicate Op × ℕ}
    (hd : pdrgpexpr[disjunct.2]? = some disjunct.1) (h : MapsCover pdrgpexpr maps) :
    MapsCover pdrgpexpr (storeDisjunct ops pcrsProducedByChildren maps disjunct) := by
  have hloop : ∀ (l : List (Predicate Op)) (maps : ArrayPosMap ℕ Op × ArrayPosMap CColRef Op),
      (∀ c ∈ l, c ∈ conjuncts disjunct.1) → MapsCover pdrgpexpr maps →
        MapsCover pdrgpexpr (l.foldl (StoreBaseOpToColumnExpr ops pcrsProducedByChildren
          (disjunct.2 == 0) disjunct.2) maps) := by
    intro l
    induction l with
    | nil => exact fun _ _ h => h
    | cons c l ih =>
      exact fun maps hl h => ih _ (fun c hc => hl c (List.mem_cons_of_mem _ hc))
        (mapsCover_store _ _ hd (hl c List.mem_cons_self) h)
  exact hloop _ maps (fun _ hc => hc) h

theorem mapsCover_foldl (pcrsProducedByChildren : Option (List CColRef))
    {l : List (Predicate Op × ℕ)} (hl : ∀ p ∈ l, pdrgpexpr[p.2]? = some p.1) :
    ∀ {maps : ArrayPosMap ℕ Op × ArrayPosMap CColRef Op}, MapsCover pdrgpexpr maps →
      MapsCover pdrgpexpr (l.foldl (storeDisjunct ops pcrsProducedByChildren) maps) := by
  induction l with
  | nil => exact fun h => h
  | cons p l ih =>
    exact fun h => ih (fun p hp => hl p (List.mem_cons_of_mem _ hp))
      (mapsCover_storeDisjunct _ (hl p List.mem_cons_self) h)

/-! ## Inferred filters are implied -/

section Truth

variable {X Env : Type} (S : Semantics ops.toScalarOperators X Env)

/-- **A filter with an array for every disjunct holds wherever the disjunction does.** -/
theorem holds_filter_of_covers {pdrgpexpr : List (Predicate Op)}
    {pdrgpdrgpexpr : List (List (Predicate Op))} (h : Covers pdrgpexpr pdrgpdrgpexpr)
    {pexprFilter : Predicate Op}
    (hfilter : pexprFilter ∈ AddInferredFiltersFromArray pdrgpdrgpexpr pdrgpexpr.length)
    {env : Env} {m : Bool} (hd : ∃ d ∈ pdrgpexpr, Truth.holds m (truth S d env)) :
    Truth.holds m (truth S pexprFilter env) := by
  unfold AddInferredFiltersFromArray at hfilter
  split at hfilter
  · rename_i hlen
    dsimp only at hfilter
    split at hfilter
    · obtain rfl := List.mem_singleton.1 hfilter
      obtain ⟨d, hd, hholds⟩ := hd
      obtain ⟨ul, hul, rfl⟩ := List.mem_iff_getElem.1 hd
      have hul' : ul < pdrgpdrgpexpr.length := hlen ▸ hul
      obtain ⟨d', hd', hconjs⟩ := h ul _ (List.getElem?_eq_getElem hul')
      obtain rfl : pdrgpexpr[ul] = d' :=
        Option.some.inj ((List.getElem?_eq_getElem hul).symm.trans hd')
      refine (holds_disjunction S).2 ⟨_, List.mem_map_of_mem (List.getElem_mem hul'), ?_⟩
      rw [truth_eq_conjuncts, Truth.holds_all] at hholds
      exact (holds_conjunction S).2 fun c hc => hholds _ (List.mem_map_of_mem (hconjs c hc))
    · simp at hfilter
  · simp at hfilter

/-- A filter is a truth value. -/
theorem wellTyped_filter_of_covers {pexpr : Predicate Op} (hor : FOr pexpr = true)
    (htyped : WellTyped ops.toScalarOperators pexpr)
    {pdrgpdrgpexpr : List (List (Predicate Op))} (h : Covers pexpr.PdrgPexpr pdrgpdrgpexpr)
    {pexprFilter : Predicate Op} {ulDisjChildrenLength : ℕ}
    (hfilter : pexprFilter ∈ AddInferredFiltersFromArray pdrgpdrgpexpr ulDisjChildrenLength) :
    WellTyped ops.toScalarOperators pexprFilter ∧ CExpression.MdidType
      (PredicateOp.operators ops.toScalarOperators) pexprFilter = GPDB_BOOL := by
  have hbuilt : ∀ {fConjunction : Bool} {l : List (Predicate Op)},
      (∀ e ∈ l, WellTyped ops.toScalarOperators e ∧
        CExpression.MdidType (PredicateOp.operators ops.toScalarOperators) e = GPDB_BOOL) →
      WellTyped ops.toScalarOperators (PexprConjDisj fConjunction l) ∧
        CExpression.MdidType (PredicateOp.operators ops.toScalarOperators)
          (PexprConjDisj fConjunction l) = GPDB_BOOL := fun hl =>
    ⟨wellTyped_pexprConjDisj _ hl, mdidType_pexprConjDisj _ fun e he => (hl e he).2⟩
  unfold AddInferredFiltersFromArray at hfilter
  split at hfilter
  · dsimp only at hfilter
    split at hfilter
    · obtain rfl := List.mem_singleton.1 hfilter
      refine hbuilt fun e he => ?_
      obtain ⟨conjs, hconjs, rfl⟩ := List.mem_map.1 he
      refine hbuilt fun c hc => ?_
      obtain ⟨ul, hul⟩ := List.mem_iff_getElem?.1 hconjs
      obtain ⟨d, hd, hall⟩ := h ul conjs hul
      exact wellTyped_conjuncts hor htyped c
        (List.mem_flatMap.2 ⟨d, List.mem_of_getElem? hd, hall c hc⟩)
    · simp at hfilter
  · simp at hfilter

/-- The filters are added to the disjunction. -/
theorem replaces_pexprAddInferredFilters {pexpr : Predicate Op} (hor : FOr pexpr = true)
    (htyped : WellTyped ops.toScalarOperators pexpr)
    {maps : ArrayPosMap ℕ Op × ArrayPosMap CColRef Op} (h : MapsCover pexpr.PdrgPexpr maps) :
    Replaces S pexpr (PexprAddInferredFilters pexpr maps) := by
  have hfilters : ∀ pexprFilter ∈
      maps.1.flatMap (AddInferredFiltersFromArray ·.2 pexpr.PdrgPexpr.length) ++
        maps.2.flatMap (AddInferredFiltersFromArray ·.2 pexpr.PdrgPexpr.length),
      ∃ arrays, Covers pexpr.PdrgPexpr arrays ∧
        pexprFilter ∈ AddInferredFiltersFromArray arrays pexpr.PdrgPexpr.length := by
    intro pexprFilter hmem
    rcases List.mem_append.1 hmem with hmem | hmem
    · obtain ⟨entry, hentry, hmem⟩ := List.mem_flatMap.1 hmem
      exact ⟨entry.2, h.1 entry hentry, hmem⟩
    · obtain ⟨entry, hentry, hmem⟩ := List.mem_flatMap.1 hmem
      exact ⟨entry.2, h.2 entry hentry, hmem⟩
  have hall : ∀ e ∈ pexpr :: (maps.1.flatMap (AddInferredFiltersFromArray ·.2
        pexpr.PdrgPexpr.length) ++
        maps.2.flatMap (AddInferredFiltersFromArray ·.2 pexpr.PdrgPexpr.length)),
      WellTyped ops.toScalarOperators e ∧ CExpression.MdidType
        (PredicateOp.operators ops.toScalarOperators) e = GPDB_BOOL :=
    List.forall_mem_cons.2 ⟨⟨htyped, mdidType_of_fOr hor⟩, fun e he => by
      obtain ⟨arrays, hcovers, hmem⟩ := hfilters e he
      exact wellTyped_filter_of_covers hor htyped hcovers hmem⟩
  have hbool := mdidType_pexprConjDisj true fun e he => (hall e he).2
  refine ⟨wellTyped_pexprConjDisj true hall, hbool.trans (mdidType_of_fOr hor).symm,
    eval_eq_of_truth S hbool (mdidType_of_fOr hor) fun env => Truth.eq_of_holds fun m => ?_⟩
  rw [PexprAddInferredFilters, holds_conjunction, List.forall_mem_cons]
  refine and_iff_left_of_imp fun hholds pexprFilter hmem => ?_
  obtain ⟨arrays, hcovers, hmem⟩ := hfilters pexprFilter hmem
  exact holds_filter_of_covers S hcovers hmem ((holds_or_iff S hor).1 hholds)

theorem Replaces.dedup (lawful : ops.toScalarOperators.Lawful) {pexpr pexpr' : Predicate Op}
    (h : Replaces S pexpr pexpr') :
    Replaces S pexpr (PexprDedupChildren ops.toPredicateOperators pexpr') where
  typed := wellTyped_pexprDedupChildren S lawful h.typed
  type := (pexprDedupChildren_spec S lawful h.typed).1.trans h.type
  value := (pexprDedupChildren_spec S lawful h.typed).2.trans h.value

/-- **Of a disjunction below a logical operator**, whatever is collected from the disjuncts. -/
theorem replaces_extractInferredFiltersFromDisj (lawful : ops.toScalarOperators.Lawful)
    {pexpr : Predicate Op} (hor : FOr pexpr = true)
    (htyped : WellTyped ops.toScalarOperators pexpr) (pexprAncestor : Predicate Op) :
    ∃ pexpr', PexprExtractInferredFiltersFromDisj ops pexpr (some pexprAncestor) = some pexpr' ∧
      Replaces S pexpr pexpr' := by
  refine ⟨_, rfl, ?_⟩
  dsimp only
  generalize (if PredicateOp.ofOther ops.FSelect pexprAncestor.Pop then
    some (PcrsColumnsProducedByChildren ops pexprAncestor) else none) = pcrsProducedByChildren
  have hadd : ∀ {maps}, MapsCover pexpr.PdrgPexpr maps → Replaces S pexpr
      (PexprDedupChildren ops.toPredicateOperators (PexprAddInferredFilters pexpr maps)) :=
    fun h => (replaces_pexprAddInferredFilters S hor htyped h).dedup S lawful
  split
  · exact hadd mapsCover_nil
  · rename_i first rest hzip
    have hindexed : ∀ p ∈ first :: rest, pexpr.PdrgPexpr[p.2]? = some p.1 := fun p hp =>
      List.mem_zipIdx_iff_getElem?.1 (hzip ▸ hp)
    split
    · exact ⟨htyped, rfl, rfl⟩
    · refine hadd (mapsCover_foldl _ (fun p hp => hindexed p (List.mem_cons_of_mem _ hp)) ?_)
      exact mapsCover_storeDisjunct _ (hindexed first List.mem_cons_self) mapsCover_nil

/-- Below an ancestor every disjunction has one. -/
theorem isSome_of_mem_disjunctions {flogical : PredicateOp Op → Bool} {e : Predicate Op} :
    ∀ {anc : Predicate Op} {d : Predicate Op × Option (Predicate Op)},
      d ∈ disjunctions flogical e (some anc) → d.2.isSome := by
  induction e using CExpression.induction with
  | node pop l ih =>
    intro anc d hd
    rw [disjunctions] at hd
    have hanc : ∃ anc', (if flogical pop then some (.node pop l) else some anc) = some anc' := by
      split
      · exact ⟨_, rfl⟩
      · exact ⟨_, rfl⟩
    obtain ⟨anc', hanc⟩ := hanc
    rw [hanc] at hd
    split at hd
    · exact List.mem_singleton.1 hd ▸ rfl
    · obtain ⟨e, he, hd⟩ := mem_disjunctionsEach.1 hd
      exact ih e he hd

/-- **Inferred filters are implied**: a scalar expression below a logical operator keeps its truth
value on every row, and a whole expression whose disjunctions stand below logical operators keeps
its value. -/
theorem truth_pexprExtractInferredFilters (lawful : ops.toScalarOperators.Lawful)
    {e : Predicate Op} (h : WellTyped ops.toScalarOperators e) :
    (∀ pexprAncestor : Predicate Op, ∃ pexpr, PexprProcessDisjDescendents (FLogical ops)
        (PexprExtractInferredFiltersFromDisj ops) e (some pexprAncestor) = some pexpr ∧
      ∀ env, truth S pexpr env = truth S e env) ∧
    ((∀ d ∈ disjunctions (FLogical ops) e none, d.2.isSome) →
      ∃ pexpr, PexprExtractInferredFilters ops e = some pexpr ∧
        ∀ env, eval S pexpr env = eval S e env) := by
  have hvisit : ∀ anc, (∀ d ∈ disjunctions (FLogical ops) e anc, d.2.isSome) →
      ∃ pexpr, PexprProcessDisjDescendents (FLogical ops)
        (PexprExtractInferredFiltersFromDisj ops) e anc = some pexpr ∧ Replaces S e pexpr := by
    intro anc hanc
    refine process_replaces S h anc fun d hd htyped => ?_
    obtain ⟨pexprAncestor, hsome⟩ := Option.isSome_iff_exists.1 (hanc d hd)
    rw [hsome]
    exact replaces_extractInferredFiltersFromDisj S lawful (fOr_of_mem_disjunctions hd) htyped _
  constructor
  · intro pexprAncestor
    obtain ⟨pexpr, heq, hrep⟩ := hvisit _ fun d hd => isSome_of_mem_disjunctions hd
    exact ⟨pexpr, heq, fun env => by rw [truth, hrep.value, truth]⟩
  · intro hanc
    obtain ⟨pexpr, heq, hrep⟩ := hvisit none hanc
    exact ⟨pexpr, heq, fun env => congrFun hrep.value env⟩

end Truth

/-! ## A selection -/

/-- Leaf 0 as a selection; each other leaf is about the column of its number, whose source is the
    remainder of the number by 10. -/
def selections : FilterOperators ℕ :=
  { leaves with
    FLogical := (· == 0)
    FScalar := (· != 0)
    FSelect := (· == 0)
    DeriveDefinedColumns := fun _ => []
    DeriveHasSubquery := fun _ => false
    FVolatile := fun _ => false
    FNoSQL := fun _ => true
    DeriveUsedColumns := fun pexpr => match pexpr.Pop with
      | .other n => [⟨n, true, true, true⟩]
      | _ => []
    UlSourceOpId := fun colref => colref.id % 10 }

/-- A selection by `(p AND q) OR (p' AND r)`, where `p` and `p'` are about one source. -/
theorem truth_pexprExtractInferredFilters_select :
    let pexpr : Predicate ℕ := .node (.other 0) [leaf 5, .node (.boolOp .or)
      [.node (.boolOp .and) [leaf 1, leaf 2], .node (.boolOp .and) [leaf 11, leaf 3]]]
    (∀ pexprAncestor : Predicate ℕ, ∃ pexpr', PexprProcessDisjDescendents (FLogical selections)
        (PexprExtractInferredFiltersFromDisj selections) pexpr (some pexprAncestor) = some pexpr' ∧
      ∀ env, truth assigned pexpr' env = truth assigned pexpr env) ∧
    ∃ pexpr', PexprExtractInferredFilters selections pexpr = some pexpr' ∧
      ∀ env, eval assigned pexpr' env = eval assigned pexpr env := by
  intro pexpr
  have htyped : WellTyped selections.toScalarOperators pexpr := by
    simp [pexpr, wellTyped_node_iff, CExpression.MdidType, leaf]; decide
  have h := @truth_pexprExtractInferredFilters ℕ selections Truth (ℕ → Truth) assigned
    lawful_leaves pexpr htyped
  refine ⟨h.1, h.2 ?_⟩
  decide

end Predicate

end BossOptimizer

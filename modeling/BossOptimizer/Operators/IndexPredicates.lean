import BossOptimizer.Operators.CScalarArrayCmp

/-!
# Index predicates: `ExtractIndexPredicates` (CPredicateUtils.cpp:1937)

An index can answer a comparison of one of its keys with an expression free of its keys. The
conjuncts of a predicate that the index answers are put with the key on the left, a Boolean column
becomes a comparison with a constant, and the others remain as residual. What the catalog says of
comparison operators and of indexes is taken as it comes.
-/

namespace BossOptimizer

/-- `CScalarIdent`, a `CScalarConst` that is not Boolean, `CScalarCast`, `CScalarCmp` and all other
    operators. -/
inductive IndexOp where
  | ident (m_pcr : CColRef) (mdid_type : ℕ)
  | const (mdid_type datum : ℕ)
  | cast (mdid_type : ℕ) (m_is_binary_coercible : Bool)
  | cmp (m_mdid_op : ℕ)
  | other (mdid_type id : ℕ) (used : List CColRef)
  deriving DecidableEq

/-- What the catalog says of comparison operators. -/
structure IndexCatalog where
  ParseCmpType : ℕ → ECmpType
  /-- `IMDScalarOp::GetCommuteOpMdid`; `none` is an invalid id. -/
  GetCommuteOpMdid : ℕ → Option ℕ
  /-- The equality of type bool (`IMDTypeBool::GetMdidForCmpType`). -/
  boolEq : ℕ

/-- `IMDIndex::EmdindexType` (IMDIndex.h:41). -/
inductive EmdindexType where
  | EmdindBtree | EmdindBitmap | EmdindGist | EmdindGin
  deriving DecidableEq, Repr

/-- `IMDIndex` on the columns of a table, with `IMDRelation::IsPartialIndex`. -/
structure IMDIndex where
  IndexType : EmdindexType
  /-- `CXformUtils::PdrgpcrIndexKeys`. -/
  pdrgpcrIndexCols : List CColRef
  /-- `CXformUtils::PcrsIndexIncludedCols`. -/
  pcrsIncludedCols : List CColRef
  IsPartialIndex : Bool
  /-- Of an operator and a position in the key. -/
  IsCompatible : ℕ → ℕ → Bool

namespace IndexOp

/-- What the comparison of expressions asks of the operators. -/
def operators (md : IndexCatalog) : ScalarOperators IndexOp where
  Matches pop pop' := pop = pop'
  matches_refl := by simp
  FInputOrderSensitive _ := true
  FBinaryCoercibleCast pop := match pop with
    | .cast _ m_is_binary_coercible => m_is_binary_coercible
    | _ => false
  FAnd _ := false
  FNot _ := false
  IsEqualityOp pop := match pop with
    | .cmp m_mdid_op => md.ParseCmpType m_mdid_op = .eq
    | _ => false
  FIDF _ := false
  MdidType pop := match pop with
    | .ident _ mdid_type => mdid_type
    | .const mdid_type _ => mdid_type
    | .cast mdid_type _ => mdid_type
    | .cmp _ => GPDB_BOOL
    | .other mdid_type _ _ => mdid_type

end IndexOp

/-- The predicates that indexes are matched with. -/
abbrev IndexScalar : Type := Predicate (ArrayOp IndexOp)

/-- The operators of these predicates. -/
abbrev IndexCatalog.operators (md : IndexCatalog) : ScalarOperators (ArrayOp IndexOp) :=
  ArrayOp.operators (IndexOp.operators md)

namespace IndexScalar

/-! ## Tests -/

/-- `DeriveUsedColumns`. -/
def usedColumns : IndexScalar → List CColRef := CExpression.fold fun pop used =>
  match pop with
  | .other (.other (.ident m_pcr _)) => [m_pcr]
  | .other (.other (.other _ _ cols)) => cols ++ used.flatten
  | _ => used.flatten

/-- `CUtils::FScalarIdent`. -/
def FScalarIdent : IndexScalar → Bool
  | .node (.other (.other (.ident _ _))) _ => true
  | _ => false

/-- `CUtils::FScalarIdentBoolType` (CUtils.cpp:2892). -/
def FScalarIdentBoolType : IndexScalar → Bool
  | .node (.other (.other (.ident _ mdid_type))) _ => mdid_type = GPDB_BOOL
  | _ => false

/-- `CUtils::FScalarConst`. -/
def FScalarConst : IndexScalar → Bool
  | .node (.other (.other (.const _ _))) _ => true
  | .node (.constBool _) _ => true
  | _ => false

/-- `CScalarIdent::FCastedScId` (CScalarIdent.cpp:145). -/
def FCastedScId : IndexScalar → Bool
  | .node (.other (.other (.cast _ _))) (pexprChild :: _) => FScalarIdent pexprChild
  | _ => false

/-- `CScalarConst::FCastedConst` (CScalarConst.cpp:133). -/
def FCastedConst : IndexScalar → Bool
  | .node (.other (.other (.cast _ _))) (pexprChild :: _) => FScalarConst pexprChild
  | _ => false

/-- `CUtils::FScalarIdentIgnoreCast` (CUtils.cpp:2884). -/
def FScalarIdentIgnoreCast (pexpr : IndexScalar) : Bool := FScalarIdent pexpr || FCastedScId pexpr

/-- The column of a `CUtils::FScalarIdent` or `CCastUtils::FBinaryCoercibleCastedScId`. -/
def identOrCast : IndexScalar → Option CColRef
  | .node (.other (.other (.ident m_pcr _))) _ => some m_pcr
  | .node (.other (.other (.cast _ true))) (.node (.other (.other (.ident m_pcr _))) _ :: _) =>
    some m_pcr
  | _ => none

/-- The operator of a `CScalarCmp`. -/
def scalarCmp : IndexScalar → Option ℕ
  | .node (.other (.other (.cmp m_mdid_op))) _ => some m_mdid_op
  | _ => none

/-- The operator of a `CScalarArrayCmp`. -/
def scalarArrayCmp : IndexScalar → Option ℕ
  | .node (.other (.arrayCmp _ m_mdid_op)) _ => some m_mdid_op
  | _ => none

/-! ## Lookups -/

variable (md : IndexCatalog) (pmdindex : IMDIndex)

/-- `CPredicateUtils::FCompatibleIndexPredicate` (CPredicateUtils.cpp:2499). -/
def FCompatibleIndexPredicate (pexprPred : IndexScalar) : Bool :=
  match (scalarCmp pexprPred).or (scalarArrayCmp pexprPred), pexprPred.PdrgPexpr with
  | some mdid_op, pexprLeft :: _ =>
    match usedColumns pexprLeft with
    | pcrIndexKey :: _ => pmdindex.IsCompatible mdid_op (pmdindex.pdrgpcrIndexCols.idxOf pcrIndexKey)
    | [] => false
  | _, _ => false

/-- `CPredicateUtils::FCompatiblePredicates` (CPredicateUtils.cpp:2476). -/
def FCompatiblePredicates (pdrgpexprPred : List IndexScalar) : Bool :=
  pdrgpexprPred.all (FCompatibleIndexPredicate pmdindex)

/-- The test of `PexprIndexLookupKeyOnLeft` on the right argument: free of index keys, and of
    columns other than the outer references where these are given. -/
def rightIsFree (outer_refs : Option (List CColRef)) (pexprRight : IndexScalar) : Bool :=
  let pcrsUsedRight := usedColumns pexprRight
  pcrsUsedRight.all fun colref => !pmdindex.pdrgpcrIndexCols.contains colref &&
    outer_refs.all (·.contains colref)

/-- `CPredicateUtils::PexprIndexLookupKeyOnLeft` (CPredicateUtils.cpp:1775). -/
def PexprIndexLookupKeyOnLeft (outer_refs : Option (List CColRef)) (pexprScalar : IndexScalar) :
    Option IndexScalar :=
  match pexprScalar.PdrgPexpr with
  | pexprLeft :: pexprRight :: _ =>
    if (identOrCast pexprLeft).any (pmdindex.pdrgpcrIndexCols.contains ·) &&
        rightIsFree pmdindex outer_refs pexprRight && FCompatibleIndexPredicate pmdindex pexprScalar
    then some pexprScalar
    else none
  | _ => none

/-- `CPredicateUtils::PexprIndexLookupKeyOnRight` (CPredicateUtils.cpp:1833), with
    `CScalarCmp::PopCommutedOp`. -/
def PexprIndexLookupKeyOnRight (outer_refs : Option (List CColRef)) :
    IndexScalar → Option IndexScalar
  | .node (.other (.other (.cmp m_mdid_op))) [pexprLeft, pexprRight] => do
    let mdid ← md.GetCommuteOpMdid m_mdid_op
    PexprIndexLookupKeyOnLeft pmdindex outer_refs
      (.node (.other (.other (.cmp mdid))) [pexprRight, pexprLeft])
  | _ => none

/-- The comparison type `PexprIndexLookup` goes by (CPredicateUtils.cpp:1884). -/
def lookupCmpType (allowArrayCmpForBTreeIndexes : Bool) (pexprScalar : IndexScalar) : ECmpType :=
  match scalarCmp pexprScalar with
  | some mdid_op => md.ParseCmpType mdid_op
  | none =>
    match scalarArrayCmp pexprScalar with
    | some mdid_op =>
      if pmdindex.IndexType = .EmdindBitmap ||
          allowArrayCmpForBTreeIndexes && pmdindex.IndexType = .EmdindBtree then
        md.ParseCmpType mdid_op
      else .other
    | none => .other

/-- `CPredicateUtils::PexprIndexLookup` (CPredicateUtils.cpp:1873). -/
def PexprIndexLookup (outer_refs : Option (List CColRef)) (allowArrayCmpForBTreeIndexes : Bool)
    (pexprScalar : IndexScalar) : Option IndexScalar :=
  let cmptype := lookupCmpType md pmdindex allowArrayCmpForBTreeIndexes pexprScalar
  let gin_or_gist_index : Bool :=
    pmdindex.IndexType = .EmdindGist || pmdindex.IndexType = .EmdindGin
  if cmptype = .neq || cmptype = .idf || cmptype = .other && !gin_or_gist_index ||
      gin_or_gist_index && pexprScalar.PdrgPexpr.length < 2 then none
  else
    (PexprIndexLookupKeyOnLeft pmdindex outer_refs pexprScalar).or
      (PexprIndexLookupKeyOnRight md pmdindex outer_refs pexprScalar)

/-- `CUtils::PexprScalarEqCmp` of a Boolean expression and a constant. -/
def PexprBoolEqCmp (pexpr : IndexScalar) (value : Bool) : IndexScalar :=
  .node (.other (.other (.cmp md.boolEq))) [pexpr, Predicate.PexprScalarConstBool value]

/-- One round of `ExtractIndexPredicates`: the index predicate of a conjunct, `none` if it is
    residual. -/
def indexPredicate (pcrsAcceptedOuterRefs : Option (List CColRef))
    (allowArrayCmpForBTreeIndexes : Bool) (pexprCond : IndexScalar) : Option IndexScalar :=
  let pcrsUsed := (usedColumns pexprCond).filter fun colref =>
    !pcrsAcceptedOuterRefs.any (·.contains colref)
  if pcrsUsed.isEmpty || !pcrsUsed.all (pmdindex.pdrgpcrIndexCols.contains ·) then none
  else if FScalarIdentBoolType pexprCond then some (PexprBoolEqCmp md pexprCond true)
  else
    match pexprCond with
    | .node (.boolOp .not) [pexprScId] =>
      if FScalarIdentBoolType pexprScId then some (PexprBoolEqCmp md pexprScId false)
      else PexprIndexLookup md pmdindex pcrsAcceptedOuterRefs allowArrayCmpForBTreeIndexes pexprCond
    | _ =>
      PexprIndexLookup md pmdindex pcrsAcceptedOuterRefs allowArrayCmpForBTreeIndexes pexprCond

/-- `CPredicateUtils::ExtractIndexPredicates` (CPredicateUtils.cpp:1937): the index predicates and
    the residual. -/
def ExtractIndexPredicates (pcrsAcceptedOuterRefs : Option (List CColRef))
    (allowArrayCmpForBTreeIndexes : Bool) : List IndexScalar → List IndexScalar × List IndexScalar
  | [] => ([], [])
  | pexprCond :: pdrgpexprPredicate =>
    let rest := ExtractIndexPredicates pcrsAcceptedOuterRefs allowArrayCmpForBTreeIndexes
      pdrgpexprPredicate
    match indexPredicate md pmdindex pcrsAcceptedOuterRefs allowArrayCmpForBTreeIndexes pexprCond with
    | some pexprLookupPred => (pexprLookupPred :: rest.1, rest.2)
    | none => (rest.1, pexprCond :: rest.2)

end IndexScalar

/-- `CXformUtils::FIndexApplicable` (CXformUtils.cpp:2275); `altindtype` is `none` for
    `EmdindSentinel`. -/
def CXformUtils.FIndexApplicable (pmdindex : IMDIndex) (fAORowOrColTable : Bool)
    (pcrsReqd pcrsScalar : List CColRef) (emdindtype : EmdindexType)
    (altindtype : Option EmdindexType) : Bool :=
  let fMatch : Bool :=
    if pmdindex.IndexType = .EmdindGist ||
        emdindtype = .EmdindBitmap && pmdindex.IndexType = .EmdindGin then
      !pmdindex.IsPartialIndex
    else if emdindtype = .EmdindBitmap && pmdindex.IndexType = .EmdindBtree && fAORowOrColTable then
      true
    else
      !(emdindtype ≠ pmdindex.IndexType && altindtype ≠ some pmdindex.IndexType ||
        pcrsScalar.isEmpty || emdindtype ≠ .EmdindBitmap && fAORowOrColTable)
  fMatch && pcrsReqd.all (pmdindex.pcrsIncludedCols.contains ·) &&
    pcrsScalar.any (pmdindex.pdrgpcrIndexCols.contains ·)

/-! ## Meaning -/

/-- What operators compute, comparisons by the catalog: an operator and its commutator compare
alike, and the equality of type bool compares truth values. -/
structure IndexSemantics (md : IndexCatalog) (X Env : Type) extends Predicate.Semantics md.operators X Env where
  compare : ℕ → X → X → Truth
  scalarCmp : ∀ mdid_op v w env,
    other (.other (.cmp mdid_op)) [v, w] env = ofTruth (compare mdid_op (v env) (w env))
  commuted : ∀ mdid_op mdid, md.GetCommuteOpMdid mdid_op = some mdid →
    ∀ x y, compare mdid y x = compare mdid_op x y
  boolEq : ∀ t b, compare md.boolEq (ofTruth t) (ofTruth (some b)) = t.map (· == b)

namespace IndexScalar

variable {md : IndexCatalog} {pmdindex : IMDIndex} {X Env : Type} (S : IndexSemantics md X Env)

theorem truth_cmp (mdid_op : ℕ) (pexprLeft pexprRight : IndexScalar) (env : Env) :
    Predicate.truth S.toSemantics (.node (.other (.other (.cmp mdid_op))) [pexprLeft, pexprRight])
      env = S.compare mdid_op (Predicate.eval S.toSemantics pexprLeft env)
        (Predicate.eval S.toSemantics pexprRight env) := by
  rw [Predicate.truth, Predicate.eval_node]
  simp only [Predicate.Semantics.op, List.map_cons, List.map_nil, S.scalarCmp, S.truth_ofTruth]

theorem eq_of_pexprIndexLookupKeyOnLeft {outer_refs : Option (List CColRef)}
    {pexprScalar pexpr : IndexScalar}
    (h : PexprIndexLookupKeyOnLeft pmdindex outer_refs pexprScalar = some pexpr) :
    pexpr = pexprScalar := by
  unfold PexprIndexLookupKeyOnLeft at h
  split at h
  · split at h
    · exact (Option.some.inj h).symm
    · cases h
  · cases h

/-- A lookup has the truth value of the predicate, also with the arguments exchanged. -/
theorem truth_pexprIndexLookup {outer_refs : Option (List CColRef)} {fAllow : Bool}
    {pexprScalar pexpr : IndexScalar}
    (h : PexprIndexLookup md pmdindex outer_refs fAllow pexprScalar = some pexpr) (env : Env) :
    Predicate.truth S.toSemantics pexpr env = Predicate.truth S.toSemantics pexprScalar env := by
  unfold PexprIndexLookup at h
  dsimp only at h
  split at h
  · cases h
  · rcases Option.or_eq_some_iff.1 h with hleft | ⟨-, hright⟩
    · rw [eq_of_pexprIndexLookupKeyOnLeft hleft]
    · unfold PexprIndexLookupKeyOnRight at hright
      split at hright
      · obtain ⟨mdid, hcommute, hlookup⟩ := Option.bind_eq_some_iff.1 hright
        rw [eq_of_pexprIndexLookupKeyOnLeft hlookup, truth_cmp, truth_cmp]
        exact S.commuted _ mdid hcommute _ _
      · cases hright

/-- A Boolean column has the value of its truth value. -/
theorem eval_fScalarIdentBoolType {pexpr : IndexScalar} (h : FScalarIdentBoolType pexpr = true)
    (env : Env) : Predicate.eval S.toSemantics pexpr env =
      S.ofTruth (Predicate.truth S.toSemantics pexpr env) := by
  refine (Predicate.ofTruth_truth S.toSemantics ?_ env).symm
  unfold FScalarIdentBoolType at h
  split at h
  · exact of_decide_eq_true h
  · cases h

theorem truth_pexprBoolEqCmp {pexpr : IndexScalar} (h : FScalarIdentBoolType pexpr = true)
    (value : Bool) (env : Env) : Predicate.truth S.toSemantics (PexprBoolEqCmp md pexpr value) env =
      (Predicate.truth S.toSemantics pexpr env).map (· == value) := by
  rw [PexprBoolEqCmp, truth_cmp, eval_fScalarIdentBoolType S h, Predicate.PexprScalarConstBool,
    Predicate.eval_node]
  exact S.boolEq _ _

theorem map_beq_true (t : Truth) : t.map (· == true) = t := by
  cases t with
  | none => rfl
  | some b => cases b <;> rfl

theorem map_beq_false (t : Truth) : t.map (· == false) = t.not := by
  cases t with
  | none => rfl
  | some b => cases b <;> rfl

/-- **An index predicate has the truth value of its conjunct.** -/
theorem truth_indexPredicate {pcrsAcceptedOuterRefs : Option (List CColRef)} {fAllow : Bool}
    {pexprCond pexpr : IndexScalar}
    (h : indexPredicate md pmdindex pcrsAcceptedOuterRefs fAllow pexprCond = some pexpr)
    (env : Env) :
    Predicate.truth S.toSemantics pexpr env = Predicate.truth S.toSemantics pexprCond env := by
  unfold indexPredicate at h
  dsimp only at h
  split at h
  · cases h
  · split at h
    · next hident =>
      rw [← Option.some.inj h, truth_pexprBoolEqCmp S hident, map_beq_true]
    · split at h
      · split at h
        · next hident =>
          rw [← Option.some.inj h, truth_pexprBoolEqCmp S hident, map_beq_false]
          exact (Predicate.truth_pexprNegate S.toSemantics _ env).symm
        · exact truth_pexprIndexLookup S h env
      · exact truth_pexprIndexLookup S h env

/-- The conjuncts hold when the index predicates and the residual do. -/
theorem holds_extractIndexPredicates {pcrsAcceptedOuterRefs : Option (List CColRef)} {fAllow : Bool}
    (pdrgpexprPredicate : List IndexScalar) (env : Env) (m : Bool) :
    (∀ pexpr ∈ pdrgpexprPredicate, Truth.holds m (Predicate.truth S.toSemantics pexpr env)) ↔
      ∀ pexpr ∈ (ExtractIndexPredicates md pmdindex pcrsAcceptedOuterRefs fAllow
          pdrgpexprPredicate).1 ++
        (ExtractIndexPredicates md pmdindex pcrsAcceptedOuterRefs fAllow pdrgpexprPredicate).2,
        Truth.holds m (Predicate.truth S.toSemantics pexpr env) := by
  induction pdrgpexprPredicate with
  | nil => simp [ExtractIndexPredicates]
  | cons pexprCond pdrgpexprPredicate ih =>
    rw [List.forall_mem_cons, ih, ExtractIndexPredicates]
    split
    · next pexpr hindex =>
      rw [List.cons_append, List.forall_mem_cons, truth_indexPredicate S hindex]
    · rw [List.forall_mem_append, List.forall_mem_append, List.forall_mem_cons]
      tauto

/-- The residual is part of the conjuncts, less as many as there are index predicates. -/
theorem extractIndexPredicates_residual {pcrsAcceptedOuterRefs : Option (List CColRef)}
    {fAllow : Bool} (pdrgpexprPredicate : List IndexScalar) :
    (ExtractIndexPredicates md pmdindex pcrsAcceptedOuterRefs fAllow pdrgpexprPredicate).2.Sublist
        pdrgpexprPredicate ∧
      (ExtractIndexPredicates md pmdindex pcrsAcceptedOuterRefs fAllow pdrgpexprPredicate).1.length +
        (ExtractIndexPredicates md pmdindex pcrsAcceptedOuterRefs fAllow
          pdrgpexprPredicate).2.length = pdrgpexprPredicate.length := by
  induction pdrgpexprPredicate with
  | nil => simp [ExtractIndexPredicates]
  | cons pexprCond pdrgpexprPredicate ih =>
    rw [ExtractIndexPredicates]
    split
    · refine ⟨ih.1.cons _, ?_⟩
      simp only [List.length_cons]
      omega
    · refine ⟨ih.1.cons_cons _, ?_⟩
      simp only [List.length_cons]
      omega

end IndexScalar

/-! ## Integers -/

/-- Equality 0, the orders 1 and 2. -/
def intCatalog : IndexCatalog where
  ParseCmpType mdid_op := match mdid_op with
    | 0 => .eq
    | 1 => .l
    | 2 => .g
    | _ => .other
  GetCommuteOpMdid mdid_op := match mdid_op with
    | 0 => some 0
    | 1 => some 2
    | 2 => some 1
    | _ => none
  boolEq := 0

namespace IntValue

/-- An integer is true unless it is 0. -/
def truth (x : Option ℤ) : Truth := x.map (· ≠ 0)

def ofTruth (t : Truth) : Option ℤ := t.map fun b => if b then 1 else 0

theorem truth_ofTruth (t : Truth) : truth (ofTruth t) = t := by
  cases t with
  | none => rfl
  | some b => cases b <;> rfl

def compare (mdid_op : ℕ) : Option ℤ → Option ℤ → Truth
  | some m, some n =>
    match mdid_op with
    | 0 => some (m = n)
    | 1 => some (m < n)
    | 2 => some (n < m)
    | _ => none
  | _, _ => none

/-- What an operator computes, before its type is looked at. -/
def raw : IndexOp → List ((CColRef → Option ℤ) → Option ℤ) → (CColRef → Option ℤ) → Option ℤ
  | .ident m_pcr _, _, env => env m_pcr
  | .const _ datum, _, _ => some datum
  | .cast _ _, [v], env => v env
  | .cmp m_mdid_op, [v, w], env => ofTruth (compare m_mdid_op (v env) (w env))
  | _, _, _ => none

/-- What an operator computes; arrays are NULL. -/
def other : ArrayOp IndexOp → List ((CColRef → Option ℤ) → Option ℤ) → (CColRef → Option ℤ) →
    Option ℤ
  | .other pop, vs, env =>
    if (IndexOp.operators intCatalog).MdidType pop = GPDB_BOOL then ofTruth (truth (raw pop vs env))
    else raw pop vs env
  | _, _, _ => none

attribute [local simp] raw in
theorem compare_comm {mdid_op mdid : ℕ} (h : intCatalog.GetCommuteOpMdid mdid_op = some mdid)
    (x y : Option ℤ) : compare mdid y x = compare mdid_op x y := by
  cases x <;> cases y <;> try rfl
  match mdid_op, h with
  | 0, h => cases h; simp [compare, eq_comm]
  | 1, h => cases h; rfl
  | 2, h => cases h; rfl

end IntValue

/-- Integers with NULL, by column. -/
def intSemantics : IndexSemantics intCatalog (Option ℤ) (CColRef → Option ℤ) where
  truth := IntValue.truth
  ofTruth := IntValue.ofTruth
  truth_ofTruth := IntValue.truth_ofTruth
  existential _ _ := some true
  other := IntValue.other
  boolean pop vs env h := by
    cases pop with
    | other pop =>
      have htype : (IndexOp.operators intCatalog).MdidType pop = GPDB_BOOL := h
      rw [IntValue.other, if_pos htype, IntValue.truth_ofTruth]
    | _ => rfl
  matches_eq pop pop' h := by
    cases pop <;> cases pop' <;>
      simp only [IndexCatalog.operators, ArrayOp.operators, ArrayOp.Matches, Bool.false_eq_true] at h
    · rfl
    · rfl
    · rfl
    · rw [of_decide_eq_true h]
  unordered pop h vs vs' _ := by
    cases pop with
    | other pop => cases h
    | _ => rfl
  compare := IntValue.compare
  scalarCmp mdid_op v w env := by
    have htype : (IndexOp.operators intCatalog).MdidType (.cmp mdid_op) = GPDB_BOOL := rfl
    rw [IntValue.other, if_pos htype, IntValue.raw, IntValue.truth_ofTruth]
  commuted _ _ h x y := IntValue.compare_comm h x y
  boolEq t b := by
    cases t with
    | none => rfl
    | some b' => cases b' <;> cases b <;> rfl

end BossOptimizer

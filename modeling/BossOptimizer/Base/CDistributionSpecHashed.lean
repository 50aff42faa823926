import BossOptimizer.Base.CExpression

/-!
# Hashed distribution specs

`CDistributionSpecHashed` (CDistributionSpecHashed.cpp). `HashedKeys` is one spec without its
pointer to the equivalent one; the constructors of `CDistributionSpecHashed` are those of the
source, with and without an equivalent spec. All specs here are hashed ones, so the tests of `Edt`
are left out.
-/

namespace BossOptimizer

/-- The fields of a hashed spec but `m_pdshashedEquiv`. The constructors assert that there is an
expression, `ComputeEquivHashExprs` that its table has an entry for each expression. -/
structure HashedKeys (Op : Type) where
  m_pdrgpexpr : List (CExpression Op)
  m_fNullsColocated : Bool
  m_is_duplicate_sensitive : Bool
  m_fSatisfiedBySingleton : Bool
  m_equiv_hash_exprs : Option (List (List (CExpression Op)))
  exprs_ne : m_pdrgpexpr ≠ []
  table_length : ∀ t ∈ m_equiv_hash_exprs, t.length = m_pdrgpexpr.length

/-- The constructors set the flags of `CDistributionSpecRandom` to their defaults. -/
def HashedKeys.new {Op : Type} (pdrgpexpr : List (CExpression Op)) (fNullsColocated : Bool)
    (hne : pdrgpexpr ≠ []) : HashedKeys Op :=
  { m_pdrgpexpr := pdrgpexpr, m_fNullsColocated := fNullsColocated,
    m_is_duplicate_sensitive := false, m_fSatisfiedBySingleton := true,
    m_equiv_hash_exprs := none, exprs_ne := hne, table_length := by simp }

/-- `CDistributionSpecHashed`. -/
inductive CDistributionSpecHashed (Op : Type) where
  | single (keys : HashedKeys Op)
  | withEquiv (keys : HashedKeys Op) (pdshashedEquiv : CDistributionSpecHashed Op)

namespace HashedKeys

variable {Op : Type} (ops : ScalarOperators Op)

/-- `FNullsColocatedCompatible` (CDistributionSpecHashed.h:54). -/
def FNullsColocatedCompatible (own other : HashedKeys Op) : Bool :=
  own.m_fNullsColocated || !other.m_fNullsColocated

/-- `FDuplicateSensitiveCompatible` (CDistributionSpecHashed.h:64). -/
def FDuplicateSensitiveCompatible (own other : HashedKeys Op) : Bool :=
  own.m_is_duplicate_sensitive || !other.m_is_duplicate_sensitive

/-- The expressions that the table has for position `ul`. -/
def equivExprs (keys : HashedKeys Op) (ul : ℕ) : List (CExpression Op) :=
  match keys.m_equiv_hash_exprs with
  | some t => t.getD ul []
  | none => []

/-- `FMatchHashedDistribution` (CDistributionSpecHashed.cpp:390). -/
def FMatchHashedDistribution (own other : HashedKeys Op) : Bool :=
  if own.m_pdrgpexpr.length ≠ other.m_pdrgpexpr.length || !own.FNullsColocatedCompatible other ||
      own.m_is_duplicate_sensitive != other.m_is_duplicate_sensitive then false
  else
    (other.m_pdrgpexpr.zip own.m_pdrgpexpr).zipIdx.all fun p =>
      CExpression.Equals ops p.1.1 p.1.2 || CExpression.Contains ops (other.equivExprs p.2) p.1.2

/-- `FMatchSubset` (CDistributionSpecHashed.cpp:177). -/
def FMatchSubset (own other : HashedKeys Op) : Bool :=
  if other.m_pdrgpexpr.length < own.m_pdrgpexpr.length || !own.FNullsColocatedCompatible other ||
      !own.FDuplicateSensitiveCompatible other then false
  else
    own.m_pdrgpexpr.all fun pexprOwn =>
      let pexprOwn := CExpression.PexprWithoutBinaryCoercibleCasts ops pexprOwn
      other.m_pdrgpexpr.zipIdx.any fun p =>
        CExpression.Equals ops pexprOwn (CExpression.PexprWithoutBinaryCoercibleCasts ops p.1) ||
          CExpression.Contains ops (other.equivExprs p.2) pexprOwn

/-- The comparison that `Equals` makes besides that of the equivalent specs. -/
def Equals (own other : HashedKeys Op) : Bool :=
  own.m_fNullsColocated == other.m_fNullsColocated &&
    own.m_is_duplicate_sensitive == other.m_is_duplicate_sensitive &&
    own.m_fSatisfiedBySingleton == other.m_fSatisfiedBySingleton &&
    CExpression.EqualsArray ops own.m_pdrgpexpr other.m_pdrgpexpr &&
    CExpression.EqualsArrays ops own.m_equiv_hash_exprs other.m_equiv_hash_exprs

end HashedKeys

namespace CDistributionSpecHashed

variable {Op : Type} (ops : ScalarOperators Op)

/-- The spec itself, without its equivalents. -/
def keys : CDistributionSpecHashed Op → HashedKeys Op
  | .single keys => keys
  | .withEquiv keys _ => keys

/-- The equivalent specs, the first one being `PdshashedEquiv`. -/
def equivalents : CDistributionSpecHashed Op → List (HashedKeys Op)
  | .single _ => []
  | .withEquiv _ equiv => equiv.keys :: equiv.equivalents

/-- The chain of specs. -/
def chain (pds : CDistributionSpecHashed Op) : List (HashedKeys Op) := pds.keys :: pds.equivalents

@[simp] theorem chain_single (keys : HashedKeys Op) : (single keys).chain = [keys] := rfl

@[simp] theorem chain_withEquiv (keys : HashedKeys Op) (equiv : CDistributionSpecHashed Op) :
    (withEquiv keys equiv).chain = keys :: equiv.chain := rfl

/-- `Matches` (CDistributionSpecHashed.cpp:438). The roles are the other way round when the
equivalent spec of `pds` is asked. -/
def Matches : CDistributionSpecHashed Op → CDistributionSpecHashed Op → Bool
  | .single keys, .single keysOther => keys.FMatchHashedDistribution ops keysOther
  | .withEquiv keys equiv, .single keysOther =>
    Matches equiv (.single keysOther) || keys.FMatchHashedDistribution ops keysOther
  | .single keys, .withEquiv keysOther equivOther =>
    Matches equivOther (.single keys) || keys.FMatchHashedDistribution ops keysOther
  | .withEquiv keys equiv, .withEquiv keysOther equivOther =>
    Matches equiv (.withEquiv keysOther equivOther) ||
      Matches equivOther (.withEquiv keys equiv) || keys.FMatchHashedDistribution ops keysOther
termination_by pds pdsOther => sizeOf pds + sizeOf pdsOther

/-- `FSatisfies` (CDistributionSpecHashed.cpp:136), for a hashed requirement. -/
def FSatisfies : CDistributionSpecHashed Op → CDistributionSpecHashed Op → Bool
  | .single keys, pds => Matches ops (.single keys) pds || keys.FMatchSubset ops pds.keys
  | .withEquiv keys equiv, pds =>
    FSatisfies equiv pds || Matches ops (.withEquiv keys equiv) pds ||
      keys.FMatchSubset ops pds.keys

/-- `Equals` (CDistributionSpecHashed.cpp:464). -/
def Equals : CDistributionSpecHashed Op → CDistributionSpecHashed Op → Bool
  | .single keys, .single keysOther => keys.Equals ops keysOther
  | .withEquiv keys equiv, .withEquiv keysOther equivOther =>
    Equals equiv equivOther && keys.Equals ops keysOther
  | _, _ => false

/-! ## Copies -/

/-- `GPOS_NEW CDistributionSpecHashed(exprs, fNullsColocated, spec)`, where `spec` may be NULL. -/
def new (keys : HashedKeys Op) : Option (CDistributionSpecHashed Op) → CDistributionSpecHashed Op
  | none => .single keys
  | some equiv => .withEquiv keys equiv

/-- The expression arrays of the chain with the flag `fNullsColocated` put on each. -/
def plainKeys (fNullsColocated : Bool) (keys : HashedKeys Op) : HashedKeys Op :=
  .new keys.m_pdrgpexpr fNullsColocated keys.exprs_ne

/-- The loop of `Copy` and `Combine`: each array becomes the head of the chain built so far. -/
def pushEach (fNullsColocated : Bool) (exprs : List (HashedKeys Op)) :
    Option (CDistributionSpecHashed Op) :=
  exprs.foldl (fun spec keys => some (new (plainKeys fNullsColocated keys) spec)) none

/-- `Copy` (CDistributionSpecHashed.cpp:671). -/
def Copy (pds : CDistributionSpecHashed Op) : CDistributionSpecHashed Op :=
  let fNullsColocated := pds.keys.m_fNullsColocated
  new (plainKeys fNullsColocated pds.keys) (pushEach fNullsColocated pds.equivalents)

/-- `Combine` (CDistributionSpecHashed.cpp:807). The result is never NULL, since there is at least
one expression array. -/
def Combine (pds other_spec : CDistributionSpecHashed Op) : CDistributionSpecHashed Op :=
  let fNullsColocated := pds.keys.m_fNullsColocated
  (pushEach fNullsColocated (pds.chain ++ other_spec.chain)).getD pds

/-- `CompleteEquivSpec` (CDistributionSpecHashed.cpp:861). -/
def CompleteEquivSpec (pdshashed : CDistributionSpecHashed Op) (pexprPred : CExpression Op) :
    Option (CDistributionSpecHashed Op) :=
  let pdrgpexprPred := CExpression.PdrgpexprConjuncts ops pexprPred
  let matching := pdshashed.keys.m_pdrgpexpr.map fun pexpr =>
    (pexpr, CExpression.PexprMatchEqualityOrINDF ops pexpr pdrgpexprPred)
  if matching.all fun p => p.2.isNone then none
  else
    some (.single (.new (matching.map fun p => p.2.getD p.1) pdshashed.keys.m_fNullsColocated (by
      simpa [matching] using pdshashed.keys.exprs_ne)))

end CDistributionSpecHashed

end BossOptimizer

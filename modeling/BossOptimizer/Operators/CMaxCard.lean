import BossOptimizer.Operators.CPropConstraint

/-!
# Derived maximum cardinality: `CMaxCard` and `DeriveMaxCard` of the operators

A maximum cardinality is a number of rows up to `GPOPT_MAX_CARD`, which reads "unbounded". It is
kept in 64 bits and cropped to 32 bits after every operation, so that the next one cannot
overflow; the arithmetic below wraps as the machine's does.
-/

namespace BossOptimizer

/-- `GPOPT_MAX_CARD` (CMaxCard.h:21): `gpos::ulong_max`. -/
def gpoptMaxCard : ℕ := 2 ^ 32 - 1

/-- `CMaxCard` (CMaxCard.h:35). -/
structure CMaxCard where
  ull : ℕ
  le_max : ull ≤ gpoptMaxCard
  deriving DecidableEq, Repr

namespace CMaxCard

/-- The constructor crops its argument. -/
def ofUll (ull : ℕ) : CMaxCard := ⟨min ull gpoptMaxCard, min_le_right _ _⟩

def unbounded : CMaxCard := ofUll gpoptMaxCard

/-- `operator*=`. -/
def mul (this mc : CMaxCard) : CMaxCard := ofUll (mc.ull * this.ull % 2 ^ 64)

/-- `operator+=`. -/
def add (this mc : CMaxCard) : CMaxCard := ofUll ((mc.ull + this.ull) % 2 ^ 64)

/-- `operator<=` on `CMaxCard`, as the code picks the smaller or the larger of two. -/
def le (this mc : CMaxCard) : Bool := this.ull ≤ mc.ull

/-- The number of rows is covered: unbounded, or at least that many. -/
def Bounds (this : CMaxCard) (n : ℕ) : Prop := this.ull = gpoptMaxCard ∨ n ≤ this.ull

instance (this : CMaxCard) (n : ℕ) : Decidable (this.Bounds n) := by unfold Bounds; infer_instance

variable {a b : CMaxCard} {m n : ℕ}

/-- **No product and no sum of two cropped values wraps.** -/
theorem no_overflow (a b : CMaxCard) : a.ull * b.ull < 2 ^ 64 ∧ a.ull + b.ull < 2 ^ 64 := by
  have ha := a.le_max
  have hb := b.le_max
  have hmul : a.ull * b.ull ≤ gpoptMaxCard * gpoptMaxCard := Nat.mul_le_mul ha hb
  simp only [gpoptMaxCard] at ha hb hmul
  omega

theorem ull_ofUll (n : ℕ) : (ofUll n).ull = min n gpoptMaxCard := rfl

theorem ull_mul (a b : CMaxCard) : (a.mul b).ull = min (a.ull * b.ull) gpoptMaxCard := by
  rw [mul, ull_ofUll, Nat.mod_eq_of_lt (no_overflow b a).1, Nat.mul_comm]

theorem ull_add (a b : CMaxCard) : (a.add b).ull = min (a.ull + b.ull) gpoptMaxCard := by
  rw [add, ull_ofUll, Nat.mod_eq_of_lt (no_overflow b a).2, Nat.add_comm]

/-! ## Bounds -/

theorem bounds_ofUll (h : n ≤ m) : (ofUll m).Bounds n := by
  rw [Bounds, ull_ofUll]
  rcases le_total gpoptMaxCard m with hm | hm
  · exact .inl (min_eq_right hm)
  · exact .inr ((min_eq_left hm).symm ▸ h)

theorem bounds_unbounded (n : ℕ) : unbounded.Bounds n := .inl rfl

theorem Bounds.mono (h : a.Bounds n) (hm : m ≤ n) : a.Bounds m := h.imp_right hm.trans

/-- A larger value covers what a smaller one does. -/
theorem Bounds.trans (h : a.Bounds n) (hab : a.ull ≤ b.ull) : b.Bounds n := by
  rcases h with h | h
  · exact .inl (le_antisymm b.le_max (h ▸ hab))
  · exact .inr (h.trans hab)

theorem Bounds.add (ha : a.Bounds m) (hb : b.Bounds n) : (a.add b).Bounds (m + n) := by
  rcases ha with ha | ha
  · refine .inl ?_
    rw [ull_add, ha]
    exact min_eq_right (Nat.le_add_right _ _)
  rcases hb with hb | hb
  · refine .inl ?_
    rw [ull_add, hb]
    exact min_eq_right (Nat.le_add_left _ _)
  · have hsum : m + n ≤ a.ull + b.ull := Nat.add_le_add ha hb
    have h := bounds_ofUll hsum
    rwa [Bounds, ull_ofUll, ← ull_add] at h

/-- A product covers the pairs, also where one factor stands for any number. -/
theorem Bounds.mul (ha : a.Bounds m) (hb : b.Bounds n) (ha0 : a.ull = 0 → m = 0)
    (hb0 : b.ull = 0 → n = 0) : (a.mul b).Bounds (m * n) := by
  by_cases hazero : a.ull = 0
  · exact .inr (by simp [ha0 hazero])
  by_cases hbzero : b.ull = 0
  · exact .inr (by simp [hb0 hbzero])
  rcases ha with ha | ha
  · refine .inl ?_
    rw [ull_mul, ha]
    exact min_eq_right (Nat.le_mul_of_pos_right _ (Nat.pos_of_ne_zero hbzero))
  rcases hb with hb | hb
  · refine .inl ?_
    rw [ull_mul, hb]
    exact min_eq_right (Nat.le_mul_of_pos_left _ (Nat.pos_of_ne_zero hazero))
  · have hprod : m * n ≤ a.ull * b.ull := Nat.mul_le_mul ha hb
    have h := bounds_ofUll hprod
    rwa [Bounds, ull_ofUll, ← ull_mul] at h

theorem Bounds.eq_zero (h : a.Bounds n) (ha : a.ull = 0) : n = 0 := by
  rcases h with h | h
  · rw [ha] at h
    exact absurd h (by decide)
  · exact Nat.le_zero.1 (ha ▸ h)

end CMaxCard

/-! ## The operators -/

/-- `CUtils::FScalarConstBoolNull` (CUtils.cpp:2354). -/
def fScalarConstBoolNull {D : Type} : ScalarExpr D → Bool
  | .const none => true
  | _ => false

theorem fScalarConstBoolNull_iff {D : Type} {e : ScalarExpr D} :
    fScalarConstBoolNull e = true ↔ e = .const none := by
  unfold fScalarConstBoolNull
  split <;> simp_all

/-- The value that `IDatumInt8::Value` or `IDatumInt4::Value` of a constant has as a `ULLONG`
    (CDatumInt8GPDB.cpp:36, CDatumInt4GPDB.cpp:35): a NULL datum holds the largest `INT`. -/
def LimitScalar.value? : LimitScalar → Option ℕ
  | .int8 (some n) => some n.toNat
  | .int4 (some n) => some (n.signExtend 64).toNat
  | .int8 none => some (2 ^ 31 - 1)
  | .int4 none => some (2 ^ 31 - 1)
  | .other _ => none

namespace LogicalExpr

variable {D : Type} [LinearOrder D]

open CPropConstraint

/-- `CLogical::Maxcard` (CLogical.cpp:1059): no row for a false condition of an operator that is
    not an outer join, or for a contradiction. -/
def maxcard (fOuterJoin : Bool) (pexprScalar : ScalarExpr D)
    (ppc : Except Fault (CPropConstraint D)) (maxcard : CMaxCard) : Except Fault CMaxCard := do
  if fScalarConstBool false pexprScalar && !fOuterJoin then return .ofUll 0
  return if (← ppc).fContradiction then .ofUll 0 else maxcard

/-- No row for a contradiction. -/
def unlessContradiction (ppc : Except Fault (CPropConstraint D)) (maxcard : CMaxCard) :
    Except Fault CMaxCard := do
  return if (← ppc).fContradiction then .ofUll 0 else maxcard

/-- The set operations. The bounds of unions add up (CLogicalUnion.cpp:114), an intersection has
    the smaller one of the first two (CLogicalIntersect.cpp:80), a difference the first
    (CLogicalDifference.cpp:81). -/
def maxcardSetOp (op : ESetOp) (ppc : Except Fault (CPropConstraint D)) (maxcards : List CMaxCard) :
    Except Fault CMaxCard :=
  match op, maxcards with
  | .union, maxcard :: rest | .unionAll, maxcard :: rest => .ok (rest.foldl .add maxcard)
  | .intersect, maxcardL :: maxcardR :: _ | .intersectAll, maxcardL :: maxcardR :: _ =>
    unlessContradiction ppc (if maxcardL.le maxcardR then maxcardL else maxcardR)
  | .difference, maxcard :: _ | .differenceAll, maxcard :: _ => unlessContradiction ppc maxcard
  | _, _ => .error .outOfBounds

/-- `CLogicalFullOuterJoin::DeriveMaxCard` (CLogicalFullOuterJoin.cpp:53). -/
def maxcardFullOuter (left_child_maxcard right_child_maxcard : CMaxCard) : CMaxCard :=
  if 0 < left_child_maxcard.ull ∧ 0 < right_child_maxcard.ull then
    left_child_maxcard.mul right_child_maxcard
  else if left_child_maxcard.le right_child_maxcard then right_child_maxcard
  else left_child_maxcard

/-- The joins with two children (CLogicalInnerJoin.cpp:57, CLogicalLeftOuterJoin.cpp:54). -/
def maxcardJoin (op : EJoin) (pexprScalar : ScalarExpr D) (ppc : Except Fault (CPropConstraint D))
    (maxCard maxCardInner : CMaxCard) : Except Fault CMaxCard :=
  match op with
  | .inner => maxcard false pexprScalar ppc (maxCard.mul maxCardInner)
  | .leftOuter => maxcard true pexprScalar ppc
      (if 0 < maxCardInner.ull then maxCard.mul maxCardInner else maxCard)
  | .fullOuter => .ok (maxcardFullOuter maxCard maxCardInner)

/-- The loop of `CLogicalNAryJoin::DeriveMaxCard` (CLogicalNAryJoin.cpp:69): at least 1 for a child
    of a left outer join. -/
def maxcardNAry (idx : Option (List ℕ)) : ℕ → CMaxCard → List CMaxCard → CMaxCard
  | _, maxCard, [] => maxCard
  | ul, maxCard, childMaxCard :: rest =>
    maxcardNAry idx (ul + 1)
      (if isInnerJoinChild idx ul || decide (1 ≤ childMaxCard.ull) then maxCard.mul childMaxCard
        else maxCard) rest

/-- `CLogicalNAryJoin::DeriveMaxCard` (CLogicalNAryJoin.cpp:63), from the product. -/
def maxcardNAryJoin (idx : Option (List ℕ)) (outputCols : List (List CColRef))
    (innerJoinPreds : ScalarExpr D) (ppc : Except Fault (CPropConstraint D)) (maxCard : CMaxCard) :
    Except Fault CMaxCard := do
  if (← ppc).fContradiction then return .ofUll 0
  match idx with
  | none => maxcard false innerJoinPreds ppc maxCard
  | some _ =>
    return if fScalarConstBool false
      (getTrueInnerJoinPreds (childrenOf false idx 0 outputCols) innerJoinPreds) then .ofUll 0
    else maxCard

variable (fArrayConstraints : Bool) (arrayExpansionThreshold : ℕ)

mutual

/-- `DeriveMaxCard`. -/
def deriveMaxCard : LogicalExpr D → Except Fault CMaxCard
  | .get _ _ _ => .ok .unbounded
  | .constTableGet _ pdrgpdrgpdatum => .ok (.ofUll pdrgpdrgpdatum.length)
  | .select child pexprScalar => do
    if fScalarConstBool false pexprScalar || fScalarConstBoolNull pexprScalar then
      return .ofUll 0
    unlessContradiction
      ((select child pexprScalar).derivePropertyConstraint fArrayConstraints arrayExpansionThreshold)
      (← child.deriveMaxCard)
  | .project child pexprPrL =>
    if deriveHasNonScalarFunction pexprPrL then .ok .unbounded else child.deriveMaxCard
  | .gbAgg pdrgpcr child pexprPrL =>
    if pdrgpcr = [] then .ok (.ofUll 1)
    else unlessContradiction ((gbAgg pdrgpcr child pexprPrL).derivePropertyConstraint
      fArrayConstraints arrayExpansionThreshold) .unbounded
  | .limit _ child _ pexprCount =>
    match pexprCount.value? with
    | some value => .ok (.ofUll value)
    | none => child.deriveMaxCard
  | .setOp op out input children => do
    maxcardSetOp op ((setOp op out input children).derivePropertyConstraint fArrayConstraints
      arrayExpansionThreshold) (← deriveMaxCardAll children)
  | .join op left right pexprScalar => do
    maxcardJoin op pexprScalar ((join op left right pexprScalar).derivePropertyConstraint
      fArrayConstraints arrayExpansionThreshold) (← left.deriveMaxCard) (← right.deriveMaxCard)
  | .naryJoin children idx innerJoinPreds onPreds => do
    maxcardNAryJoin idx (children.map deriveOutputColumns) innerJoinPreds
      ((naryJoin children idx innerJoinPreds onPreds).derivePropertyConstraint fArrayConstraints
        arrayExpansionThreshold) (maxcardNAry idx 0 (.ofUll 1) (← deriveMaxCardAll children))

def deriveMaxCardAll : List (LogicalExpr D) → Except Fault (List CMaxCard)
  | [] => .ok []
  | e :: es => do
    return (← e.deriveMaxCard) :: (← deriveMaxCardAll es)

end

end LogicalExpr

end BossOptimizer

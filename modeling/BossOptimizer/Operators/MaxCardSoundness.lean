import BossOptimizer.Operators.CMaxCard
import BossOptimizer.Operators.DerivedProperties

/-!
# Soundness of the derived maximum cardinality

A derived value is read in two ways: as a bound on the number of rows, and as the promise that there
are none when it is 0. Both readings survive the same arithmetic, so the rules of the operators are
followed once, for a `Reading`. Two rules do not keep the first one: the product of a full outer
join does not cover its unmatched rows, and a NULL limit counts as a limit of 2^31 - 1 rows.
-/

namespace BossOptimizer

open CPropConstraint

namespace CMaxCard

/-- A reading of a value as a statement on a number of rows that the operators can rely on. -/
structure Reading (B : CMaxCard → ℕ → Prop) : Prop where
  ofUll : ∀ {m n}, n ≤ m → B (.ofUll m) n
  unbounded : ∀ n, B .unbounded n
  mono : ∀ {a m n}, B a n → m ≤ n → B a m
  min : ∀ {a b n}, B a n → B b n → B (if a.le b then a else b) n
  add : ∀ {a b m n}, B a m → B b n → B (a.add b) (m + n)
  mul : ∀ {a b m n}, B a m → B b n → B (a.mul b) (m * n)
  /-- A positive value allows a row. -/
  pos : ∀ {a n}, B a n → 0 < a.ull → B a (max 1 n)
  zero : ∀ {a n}, B a n → a.ull = 0 → n = 0

attribute [local simp] LogicalExpr.deriveMaxCard LogicalExpr.deriveMaxCardAll in
theorem reading_bounds : Reading Bounds where
  ofUll := bounds_ofUll
  unbounded := bounds_unbounded
  mono := .mono
  min ha hb := by
    split
    · exact ha
    · exact hb
  add := .add
  mul ha hb := ha.mul hb ha.eq_zero hb.eq_zero
  pos h hpos := h.imp_right fun h => max_le hpos h
  zero h := h.eq_zero

/-- No rows for the value 0. -/
def EmptyIfZero (this : CMaxCard) (n : ℕ) : Prop := this.ull = 0 → n = 0

theorem reading_emptyIfZero : Reading EmptyIfZero where
  ofUll {m n} h hzero := by
    rw [ull_ofUll] at hzero
    have hmax : 0 < gpoptMaxCard := by decide
    omega
  unbounded n h := absurd h (by decide)
  mono h hm hzero := Nat.le_zero.1 (h hzero ▸ hm)
  min ha hb := by
    split
    · exact ha
    · exact hb
  add {a b m n} ha hb hzero := by
    rw [ull_add] at hzero
    have hmax : 0 < gpoptMaxCard := by decide
    have ha0 : m = 0 := ha (by omega)
    have hb0 : n = 0 := hb (by omega)
    omega
  mul {a b m n} ha hb hzero := by
    rw [ull_mul] at hzero
    have hmax : 0 < gpoptMaxCard := by decide
    have hprod : a.ull * b.ull = 0 := by omega
    rcases Nat.mul_eq_zero.1 hprod with h | h
    · rw [ha h, Nat.zero_mul]
    · rw [hb h, Nat.mul_zero]
  pos _ hpos hzero := absurd hzero hpos.ne'
  zero h := h

end CMaxCard

namespace LogicalExpr

variable {D : Type} [LinearOrder D] {ex : Execution D} {env : Row D} {fArrayConstraints : Bool}
  {arrayExpansionThreshold : ℕ} {B : CMaxCard → ℕ → Prop} {mc : CMaxCard}

/-! ## Contradictions -/

variable {rows : List (Row D)} {S : Set CColRef}

/-- A property that holds of the rows and is a contradiction leaves no row. -/
theorem rows_eq_nil_of_fContradiction {ppc : CPropConstraint D} (h : Sound S (· ∈ rows) ppc)
    (hcon : ppc.fContradiction = true) :
    rows = [] := by
  refine List.eq_nil_iff_forall_not_mem.2 fun r hr => ?_
  obtain ⟨K, hK, hcon⟩ := (Option.any_eq_true _ _).1 hcon
  exact (CConstraint.sat_of_flags K r).1 hcon (h.sat r hr K (by simp [hK]))

variable {ppc : Except Fault (CPropConstraint D)}

theorem unlessContradiction_spec {maxcard : CMaxCard} (hB : CMaxCard.Reading B)
    (hsound : ∀ p, ppc = .ok p → Sound S (· ∈ rows) p)
    (h : unlessContradiction ppc maxcard = .ok mc) (hmax : B maxcard rows.length) :
    B mc rows.length := by
  obtain ⟨p, hp, h⟩ := bind_eq_ok.1 h
  cases h
  split
  · next hcon =>
    rw [rows_eq_nil_of_fContradiction (hsound p hp) hcon]
    exact hB.ofUll le_rfl
  · exact hmax

variable {I : Interpretation D}

theorem isTrue_const {value : Option Bool} {r : Row D} :
    isTrue I (.const value) r = true ↔ value = some true := by
  rw [isTrue_iff, CConstraintInterval.satisfied, ScalarExpr.eval, Truth.holds_false_iff]

/-- A filter that is FALSE leaves no row. -/
theorem rows_eq_nil_of_constFalse {e : ScalarExpr D} (hfilter : ∀ r ∈ rows, isTrue I e r = true)
    (hfalse : fScalarConstBool false e = true) :
    rows = [] := by
  refine List.eq_nil_iff_forall_not_mem.2 fun r hr => ?_
  have htrue := hfilter r hr
  rw [fScalarConstBool_iff.1 hfalse, isTrue_const] at htrue
  cases htrue

theorem rows_eq_nil_of_constNull {e : ScalarExpr D} (hfilter : ∀ r ∈ rows, isTrue I e r = true)
    (hnull : fScalarConstBoolNull e = true) :
    rows = [] := by
  refine List.eq_nil_iff_forall_not_mem.2 fun r hr => ?_
  have htrue := hfilter r hr
  rw [fScalarConstBoolNull_iff.1 hnull, isTrue_const] at htrue
  cases htrue

theorem maxcard_spec {fOuterJoin : Bool} {pexprScalar : ScalarExpr D} {mc' : CMaxCard}
    (hB : CMaxCard.Reading B) (hsound : ∀ p, ppc = .ok p → Sound S (· ∈ rows) p)
    (hfilter : fOuterJoin = false → ∀ r ∈ rows, isTrue I pexprScalar r = true)
    (h : maxcard fOuterJoin pexprScalar ppc mc' = .ok mc) (hmax : B mc' rows.length) :
    B mc rows.length := by
  unfold maxcard at h
  split at h
  · next hfalse =>
    cases h
    obtain ⟨hfalse, hjoin⟩ := Bool.and_eq_true_iff.1 hfalse
    rw [rows_eq_nil_of_constFalse (hfilter (by simpa using hjoin)) hfalse]
    exact hB.ofUll le_rfl
  · exact unlessContradiction_spec hB hsound h hmax

/-! ## Set operations and joins -/

variable {mcs : List CMaxCard}

theorem foldl_add_spec (hB : CMaxCard.Reading B) {ns : List ℕ} (h : List.Forall₂ B mcs ns) {n : ℕ}
    (hmc : B mc n) :
    B (mcs.foldl .add mc) (n + ns.sum) := by
  induction h generalizing mc n with
  | nil => exact hmc
  | cons hab _ ih =>
    rw [List.foldl_cons, List.sum_cons, ← Nat.add_assoc]
    exact ih (hB.add hmc hab)

theorem maxcardSetOp_spec {op : ESetOp} {cols : List CColRef} {operands : List (List (Row D))}
    (hB : CMaxCard.Reading B)
    (hsound : ∀ p, ppc = .ok p → Sound S (· ∈ setOpRows op cols operands) p)
    (hall : List.Forall₂ (fun mc (rows : List (Row D)) => B mc rows.length) mcs operands)
    (h : maxcardSetOp op ppc mcs = .ok mc) : B mc (setOpRows op cols operands).length := by
  have hunion : ∀ {mc'} {rest}, mcs = mc' :: rest → op = .union ∨ op = .unionAll →
      B (rest.foldl .add mc') (setOpRows op cols operands).length := by
    intro mc' rest hmcs hop
    subst hmcs
    obtain ⟨rows, operands, hfirst, hrest, rfl⟩ := List.forall₂_cons_left_iff.1 hall
    refine hB.mono ?_ (length_setOpRows_union_le hop cols _)
    rw [List.map_cons, List.sum_cons]
    exact foldl_add_spec hB (List.forall₂_map_right_iff.2 hrest) hfirst
  have hintersect : ∀ {mcL mcR} {rest}, mcs = mcL :: mcR :: rest →
      op = .intersect ∨ op = .intersectAll →
      unlessContradiction ppc (if mcL.le mcR then mcL else mcR) = .ok mc →
      B mc (setOpRows op cols operands).length := by
    intro mcL mcR rest hmcs hop hmin
    subst hmcs
    obtain ⟨first, operands, hfirst, hrest, rfl⟩ := List.forall₂_cons_left_iff.1 hall
    obtain ⟨second, operands, hsecond, -, rfl⟩ := List.forall₂_cons_left_iff.1 hrest
    refine unlessContradiction_spec hB hsound hmin (hB.min (hB.mono hfirst ?_) (hB.mono hsecond ?_))
    · exact length_setOpRows_le_first (by rcases hop with rfl | rfl <;> simp) cols _ _
    · exact length_setOpRows_le_second hop cols _ _ _
  have hdifference : ∀ {mc'} {rest}, mcs = mc' :: rest → op = .difference ∨ op = .differenceAll →
      unlessContradiction ppc mc' = .ok mc → B mc (setOpRows op cols operands).length := by
    intro mc' rest hmcs hop hmc'
    subst hmcs
    obtain ⟨first, operands, hfirst, -, rfl⟩ := List.forall₂_cons_left_iff.1 hall
    refine unlessContradiction_spec hB hsound hmc' (hB.mono hfirst ?_)
    exact length_setOpRows_le_first (by rcases hop with rfl | rfl <;> simp) cols _ _
  unfold maxcardSetOp at h
  split at h
  · cases h; exact hunion rfl (.inl rfl)
  · cases h; exact hunion rfl (.inr rfl)
  · exact hintersect rfl (.inl rfl) h
  · exact hintersect rfl (.inr rfl) h
  · exact hdifference rfl (.inl rfl) h
  · exact hdifference rfl (.inr rfl) h
  · cases h

/-- A left outer join has no more rows than the preserved ones times the others or 1. -/
theorem leftOuter_spec (hB : CMaxCard.Reading B) {a b : CMaxCard} {l r n : ℕ} (ha : B a l)
    (hb : B b r) (hn : n ≤ l * max 1 r) : B (if 0 < b.ull then a.mul b else a) n := by
  split
  · next hpos => exact hB.mono (hB.mul ha (hB.pos hb hpos)) hn
  · next hzero =>
    have hr : r = 0 := hB.zero hb (Nat.eq_zero_of_not_pos hzero)
    subst hr
    exact hB.mono ha (by simpa using hn)

/-- The steps of an n-ary join. -/
theorem maxcardNAry_spec (hB : CMaxCard.Reading B) {idx : Option (List ℕ)}
    {onPreds : List (ScalarExpr D)} {operands : List (List (Row D) × List CColRef)}
    (hall : List.Forall₂ (fun mc operand => B mc operand.1.length) mcs operands) {j : ℕ}
    {acc : List (Row D)} (hacc : B mc acc.length) :
    B (maxcardNAry idx j mc mcs) (naryJoinRows ex idx onPreds j acc operands).length := by
  induction hall generalizing j mc acc with
  | nil => exact hacc
  | @cons mc' operand _ _ hfirst _ ih =>
    rw [maxcardNAry, naryJoinRows]
    refine ih ?_
    cases hon : onPredicate idx onPreds j with
    | none =>
      rw [onPredicate_eq_none.1 hon, Bool.true_or, if_pos rfl]
      exact hB.mono (hB.mul hacc hfirst) Joins.length_inner_le
    | some on =>
      rw [onPredicate_eq_some hon, Bool.false_or]
      simp only [decide_eq_true_eq, Nat.one_le_iff_ne_zero, ← Nat.pos_iff_ne_zero]
      exact leftOuter_spec hB hacc hfirst Joins.length_leftOuter_le

/-- A condition of an n-ary join that is FALSE leaves no row. -/
theorem maxcardNAryJoin_spec {idx : Option (List ℕ)} {outputCols : List (List CColRef)}
    {innerJoinPreds : ScalarExpr D} {mc' : CMaxCard} (hB : CMaxCard.Reading B)
    (hsound : ∀ p, ppc = .ok p → Sound S (· ∈ rows) p)
    (hfilter : ∀ r ∈ rows, isTrue ex.scalars innerJoinPreds r = true)
    (h : maxcardNAryJoin idx outputCols innerJoinPreds ppc mc' = .ok mc)
    (hmax : B mc' rows.length) :
    B mc rows.length := by
  obtain ⟨p, hp, h⟩ := bind_eq_ok.1 h
  split at h
  · next hcon =>
    cases h
    rw [rows_eq_nil_of_fContradiction (hsound p hp) hcon]
    exact hB.ofUll le_rfl
  cases idx with
  | none => exact maxcard_spec hB hsound (fun _ => hfilter) h hmax
  | some idx =>
    cases h
    split
    · next hfalse =>
      have htrue : ∀ r ∈ rows, isTrue ex.scalars
          (getTrueInnerJoinPreds (childrenOf false (some idx) 0 outputCols) innerJoinPreds) r = true :=
        fun r hr => isTrue_iff.2 (getTrueInnerJoinPreds_true (isTrue_iff.1 (hfilter r hr)))
      rw [rows_eq_nil_of_constFalse htrue hfalse]
      exact hB.ofUll le_rfl
    · exact hmax

/-! ## The rows of the children -/

omit [LinearOrder D] in
/-- A project list of scalars has one row for each. -/
theorem length_projectRow_of_scalar {l : List (CScalarProjectElement D)}
    (h : deriveHasNonScalarFunction l = false) (row : Row D) : (projectRow ex l row).length = 1 := by
  have hwidth : ∀ n ∈ l.map fun el => el.scalar.width ex row, n = 1 := by
    intro n hn
    obtain ⟨el, hel, rfl⟩ := List.mem_map.1 hn
    have hel := List.any_eq_false.1 h el hel
    cases hscalar : el.scalar with
    | operand => rfl
    | setReturning => rw [hscalar] at hel; exact absurd rfl hel
  rw [projectRow, List.length_map, List.length_range]
  generalize l.map (fun el => el.scalar.width ex row) = ns at hwidth
  induction ns with
  | nil => rfl
  | cons n ns ih =>
    rw [List.foldr_cons, ih fun n hn => hwidth n (by simp [hn]), hwidth n (by simp), Nat.lcm_self]

theorem length_project_of_scalar {l : List (CScalarProjectElement D)}
    (h : deriveHasNonScalarFunction l = false) (child : LogicalExpr D) :
    ((project child l).rows ex env).length = (child.rows ex env).length := by
  rw [rows, List.length_flatMap, List.map_congr_left fun row _ => length_projectRow_of_scalar h row]
  simp

theorem forall₂_inputRows {out : List CColRef} {input : List (List CColRef)}
    {es : List (LogicalExpr D)} (hlen : input.length = es.length)
    (hall : List.Forall₂ (fun e mc => B mc (e.rows ex env).length) es mcs) :
    List.Forall₂ (fun mc (rows : List (Row D)) => B mc rows.length) mcs
      (List.zipWith (fun rows cols => rows.map fun row => assign out (cols.map row) row)
        (rowsAll ex env es) input) := by
  induction hall generalizing input with
  | nil => exact .nil
  | cons hmc _ ih =>
    cases input with
    | nil => cases hlen
    | cons cols input =>
      exact .cons (by rwa [List.length_map]) (ih (Nat.succ.inj hlen))

/-! ## The derivation -/

theorem deriveMaxCardAll_eq_ok {es : List (LogicalExpr D)}
    (h : deriveMaxCardAll fArrayConstraints arrayExpansionThreshold es = .ok mcs) :
    List.Forall₂ (fun e mc => e.deriveMaxCard fArrayConstraints arrayExpansionThreshold = .ok mc)
      es mcs := by
  induction es generalizing mcs with
  | nil => cases h; exact .nil
  | cons e es ih =>
    obtain ⟨mc, hmc, h⟩ := bind_eq_ok.1 h
    obtain ⟨rest, hrest, h⟩ := bind_eq_ok.1 h
    cases h
    exact .cons hmc (ih hrest)

/-- The derived value, where there is one, says something true of the rows. -/
def maxCardHolds (B : CMaxCard → ℕ → Prop) (fArrayConstraints : Bool) (arrayExpansionThreshold : ℕ)
    (ex : Execution D) (env : Row D) (e : LogicalExpr D) : Prop :=
  ∀ mc, e.deriveMaxCard fArrayConstraints arrayExpansionThreshold = .ok mc →
    B mc (e.rows ex env).length

/-- The two rules that a reading may not survive do keep it at this operator. -/
def keeps (B : CMaxCard → ℕ → Prop) (ex : Execution D) (env : Row D) : LogicalExpr D → Prop
  | .join .fullOuter left right p => ∀ a b, B a (left.rows ex env).length →
      B b (right.rows ex env).length →
      B (maxcardFullOuter a b) ((join .fullOuter left right p).rows ex env).length
  | .limit id child offset count => ∀ value, count.value? = some value →
      B (.ofUll value) ((limit id child offset count).rows ex env).length
  | _ => True

/-- **One operator**: from the values of its children to its own. -/
theorem maxCardHolds_step (hB : CMaxCard.Reading B) {e : LogicalExpr D}
    (hs : Everywhere WellScoped e) (hf : Everywhere (baseFacts ex) e)
    (hsafe : Everywhere (constraintsSafe fArrayConstraints arrayExpansionThreshold) e)
    (hkeeps : keeps B ex env e)
    (hchildren : ∀ c ∈ e.children, maxCardHolds B fArrayConstraints arrayExpansionThreshold ex env c) :
    maxCardHolds B fArrayConstraints arrayExpansionThreshold ex env e := by
  intro mc h
  have hsound : ∀ p, e.derivePropertyConstraint fArrayConstraints arrayExpansionThreshold = .ok p →
      Sound e.colrefs (· ∈ e.rows ex env) p :=
    fun p hp => derivePropertyConstraint_sound hs hf hsafe hp
  cases e with
  | get ptabdesc out unused =>
    cases h
    exact hB.unbounded _
  | constTableGet out data =>
    cases h
    exact hB.ofUll (by simp [rows])
  | select child p =>
    have hfilter : ∀ r ∈ (select child p).rows ex env, isTrue ex.scalars p r = true :=
      fun r hr => List.of_mem_filter hr
    rw [deriveMaxCard] at h
    split at h
    · next hconst =>
      cases h
      have hnil : (select child p).rows ex env = [] := by
        rcases Bool.or_eq_true_iff.1 hconst with hfalse | hnull
        · exact rows_eq_nil_of_constFalse hfilter hfalse
        · exact rows_eq_nil_of_constNull hfilter hnull
      rw [hnil]
      exact hB.ofUll le_rfl
    · obtain ⟨mc', hmc', h⟩ := bind_eq_ok.1 h
      refine unlessContradiction_spec hB hsound h (hB.mono
        (hchildren child (by simp [children]) mc' hmc') ?_)
      exact List.length_filter_le _ _
  | project child l =>
    rw [deriveMaxCard] at h
    split at h
    · cases h
      exact hB.unbounded _
    · next hscalar =>
      refine hB.mono (hchildren child (by simp [children]) mc h) (Nat.le_of_eq ?_)
      exact length_project_of_scalar (by simpa using hscalar) child
  | gbAgg cols child l =>
    rw [deriveMaxCard] at h
    split at h
    · next hcols =>
      cases h
      subst hcols
      exact hB.ofUll (by simp [rows, gbAggRows])
    · exact unlessContradiction_spec hB hsound h (hB.unbounded _)
  | limit id child offset count =>
    rw [deriveMaxCard] at h
    split at h
    · next value hvalue =>
      cases h
      exact hkeeps value hvalue
    · obtain ⟨l, hl, hsub⟩ := @limit_rows D _ ex env id child offset count
      refine hB.mono (hchildren child (by simp [children]) mc h) ?_
      exact hsub.length_le.trans hl.length_eq.le
  | setOp op out input es =>
    obtain ⟨mcs, hmcs, h⟩ := bind_eq_ok.1 h
    refine maxcardSetOp_spec hB hsound (forall₂_inputRows hs.here.2.1 ?_) h
    exact forall₂_imp_of_mem (deriveMaxCardAll_eq_ok hmcs) fun c hc mc' hmc' => hchildren c hc mc' hmc'
  | join op left right p =>
    obtain ⟨mcL, hmcL, h⟩ := bind_eq_ok.1 h
    obtain ⟨mcR, hmcR, h⟩ := bind_eq_ok.1 h
    have hleft := hchildren left (by simp [children]) mcL hmcL
    have hright := hchildren right (by simp [children]) mcR hmcR
    cases op with
    | inner =>
      refine maxcard_spec (I := ex.scalars) hB hsound (fun _ r hr => ?_) h
        (hB.mono (hB.mul hleft hright) Joins.length_inner_le)
      obtain ⟨-, -, -, -, hp, -⟩ | ⟨hop, -⟩ | ⟨hop, -⟩ := mem_joinRows hr
      · exact hp
      · exact absurd rfl hop
      · cases hop
    | leftOuter =>
      refine maxcard_spec (I := ex.scalars) hB hsound (fun hjoin => by cases hjoin) h ?_
      exact leftOuter_spec hB hleft hright Joins.length_leftOuter_le
    | fullOuter =>
      cases h
      exact hkeeps mcL mcR hleft hright
  | naryJoin es idx preds on =>
    obtain ⟨mcs, hmcs, h⟩ := bind_eq_ok.1 h
    have hall := forall₂_imp_of_mem (deriveMaxCardAll_eq_ok hmcs)
      fun c hc mc' hmc' => hchildren c hc mc' hmc'
    refine maxcardNAryJoin_spec hB hsound (fun r hr => List.of_mem_filter hr) h (hB.mono ?_
      (List.length_filter_le _ _))
    rw [operands_eq_zip]
    refine maxcardNAry_spec hB ?_ (hB.ofUll (by simp))
    exact List.forall₂_map_right_iff.2 hall.flip

/-- **Whole expressions**: at all subtrees, where the two rules keep the reading. -/
theorem maxCardHolds_everywhere (hB : CMaxCard.Reading B) {e : LogicalExpr D}
    (hs : Everywhere WellScoped e) (hf : Everywhere (baseFacts ex) e)
    (hsafe : Everywhere (constraintsSafe fArrayConstraints arrayExpansionThreshold) e)
    (hkeeps : Everywhere (keeps B ex env) e) :
    Everywhere (maxCardHolds B fArrayConstraints arrayExpansionThreshold ex env) e := by
  refine everywhere_of_step (Q := fun e => (Everywhere WellScoped e ∧ Everywhere (baseFacts ex) e ∧
    Everywhere (constraintsSafe fArrayConstraints arrayExpansionThreshold) e) ∧ keeps B ex env e)
    (fun e he hchildren => ?_) e fun s hsub => ?_
  · exact maxCardHolds_step hB he.1.1 he.1.2.1 he.1.2.2 he.2 hchildren
  · exact ⟨⟨hs.everywhere s hsub, hf.everywhere s hsub, hsafe.everywhere s hsub⟩, hkeeps s hsub⟩

/-! ## The two rules -/

theorem length_limit (id : ℕ) (child : LogicalExpr D) (offset count : LimitScalar) :
    ((limit id child offset count).rows ex env).length =
      match count.eval ex env with
      | none => (child.rows ex env).length - ((offset.eval ex env).getD 0).toNat
      | some n => min n.toNat
        ((child.rows ex env).length - ((offset.eval ex env).getD 0).toNat) := by
  rw [rows]
  cases count.eval ex env with
  | none => rw [List.length_drop, (ex.arrange_perm id _).length_eq]
  | some n => rw [List.length_take, List.length_drop, (ex.arrange_perm id _).length_eq]

/-- The `ULLONG` of a limit that is not NULL is at least the limit, which may be negative. -/
theorem toNat_toInt_le {w : ℕ} (n : BitVec w) : n.toInt.toNat ≤ n.toNat := by
  rw [BitVec.toInt_eq_toNat_cond]
  split <;> omega

/-- The rows of a limit are no more than its count, unless that is NULL. -/
theorem length_limit_le {id : ℕ} {child : LogicalExpr D} {offset count : LimitScalar} {value : ℕ}
    (h : count.value? = some value) (hnull : count ≠ .int8 none ∧ count ≠ .int4 none) :
    ((limit id child offset count).rows ex env).length ≤ value := by
  rw [length_limit]
  match count, h, hnull with
  | .int8 (some n), rfl, _ => exact (min_le_left _ _).trans (toNat_toInt_le n)
  | .int4 (some n), rfl, _ =>
    refine (min_le_left _ _).trans ?_
    rw [← BitVec.toInt_signExtend_of_le (show 32 ≤ 64 by decide)]
    exact toNat_toInt_le (n.signExtend 64)
  | .int8 none, _, hnull => exact absurd rfl hnull.1
  | .int4 none, _, hnull => exact absurd rfl hnull.2

/-- Where the two rules bound the rows: a match of a full outer join, or sides whose product covers
    their sum, or as many rows as "unbounded" stands for; and a child of a NULL limit whose rows
    after the offset are no more than the number that NULL is taken for. -/
def covered (ex : Execution D) (env : Row D) : LogicalExpr D → Prop
  | .join .fullOuter left right p =>
    (∃ l ∈ left.rows ex env, ∃ r ∈ right.rows ex env,
      isTrue ex.scalars p (merge right.rowColumns l r) = true) ∨
    left.rows ex env = [] ∨ right.rows ex env = [] ∨
    (2 ≤ (left.rows ex env).length ∧ 2 ≤ (right.rows ex env).length) ∨
    gpoptMaxCard ≤ (left.rows ex env).length ∨ gpoptMaxCard ≤ (right.rows ex env).length
  | .limit _ child offset count => count = .int8 none ∨ count = .int4 none →
    (child.rows ex env).length - ((offset.eval ex env).getD 0).toNat ≤ 2 ^ 31 - 1
  | _ => True

theorem le_maxcardFullOuter (a b : CMaxCard) :
    a.ull ≤ (maxcardFullOuter a b).ull ∧ b.ull ≤ (maxcardFullOuter a b).ull := by
  have ha := a.le_max
  have hb := b.le_max
  unfold maxcardFullOuter
  split
  · next hpos =>
    rw [CMaxCard.ull_mul]
    exact ⟨le_min (Nat.le_mul_of_pos_right _ hpos.2) ha, le_min (Nat.le_mul_of_pos_left _ hpos.1) hb⟩
  · split
    · next hle => exact ⟨of_decide_eq_true hle, le_rfl⟩
    · next hle => exact ⟨le_rfl, (Nat.lt_of_not_le fun h => hle (decide_eq_true h)).le⟩

theorem maxcardFullOuter_mul {a b : CMaxCard} {l r : ℕ} (ha : a.Bounds l) (hb : b.Bounds r)
    (hl : 0 < l) (hr : 0 < r) : (maxcardFullOuter a b).Bounds (l * r) := by
  have hapos : 0 < a.ull := Nat.pos_of_ne_zero fun h => hl.ne' (ha.eq_zero h)
  have hbpos : 0 < b.ull := Nat.pos_of_ne_zero fun h => hr.ne' (hb.eq_zero h)
  rw [maxcardFullOuter, if_pos ⟨hapos, hbpos⟩]
  exact ha.mul hb ha.eq_zero hb.eq_zero

section FullOuter

variable {left right : LogicalExpr D} {p : ScalarExpr D}

/-- A full outer join without a match returns the rows of both sides. -/
theorem length_fullOuter_of_no_match (hno : ¬ ∃ l ∈ left.rows ex env, ∃ r ∈ right.rows ex env,
      isTrue ex.scalars p (merge right.rowColumns l r) = true) :
    ((join .fullOuter left right p).rows ex env).length =
      (left.rows ex env).length + (right.rows ex env).length := by
  refine Joins.length_fullOuter_of_no_match fun a ha b hb => ?_
  rw [← Bool.not_eq_true]
  exact fun h => hno ⟨a, ha, b, hb, h⟩

/-- The product of two bounds that are attained covers the rows only where `covered` says so. -/
theorem covered_of_bounds_attained
    (h : (maxcardFullOuter (.ofUll (left.rows ex env).length)
      (.ofUll (right.rows ex env).length)).Bounds
        ((join .fullOuter left right p).rows ex env).length) :
    covered ex env (join .fullOuter left right p) := by
  by_contra hcovered
  simp only [covered, not_or] at hcovered
  obtain ⟨hno, hl, hr, htwo, hlmax, hrmax⟩ := hcovered
  rw [length_fullOuter_of_no_match hno] at h
  have hl : 0 < (left.rows ex env).length := List.length_pos_iff.2 hl
  have hr : 0 < (right.rows ex env).length := List.length_pos_iff.2 hr
  have hlull : (CMaxCard.ofUll (left.rows ex env).length).ull = (left.rows ex env).length :=
    min_eq_left (Nat.lt_of_not_le hlmax).le
  have hrull : (CMaxCard.ofUll (right.rows ex env).length).ull = (right.rows ex env).length :=
    min_eq_left (Nat.lt_of_not_le hrmax).le
  rw [maxcardFullOuter, hlull, hrull, if_pos ⟨hl, hr⟩, CMaxCard.Bounds, CMaxCard.ull_mul, hlull,
    hrull] at h
  -- the one row of a side adds to the rows but not to the product
  have hone : (left.rows ex env).length = 1 ∨ (right.rows ex env).length = 1 := by omega
  rcases hone with hone | hone <;> rw [hone] at h <;> omega

theorem bounds_of_covered (h : covered ex env (join .fullOuter left right p)) {a b : CMaxCard}
    (ha : a.Bounds (left.rows ex env).length) (hb : b.Bounds (right.rows ex env).length) :
    (maxcardFullOuter a b).Bounds ((join .fullOuter left right p).rows ex env).length := by
  by_cases hmatch : ∃ l ∈ left.rows ex env, ∃ r ∈ right.rows ex env,
      isTrue ex.scalars p (merge right.rowColumns l r) = true
  · obtain ⟨x, hx, y, hy, -⟩ := id hmatch
    have hmul := maxcardFullOuter_mul ha hb (List.length_pos_of_mem hx) (List.length_pos_of_mem hy)
    exact hmul.mono (Joins.length_fullOuter_le_of_match hmatch)
  have hle := le_maxcardFullOuter a b
  have hmax := (maxcardFullOuter a b).le_max
  rw [length_fullOuter_of_no_match hmatch]
  obtain h | h | h | h | h | h := h
  · exact absurd h hmatch
  · rw [h, List.length_nil, Nat.zero_add]
    exact hb.trans hle.2
  · rw [h, List.length_nil, Nat.add_zero]
    exact ha.trans hle.1
  · refine (maxcardFullOuter_mul ha hb (by omega) (by omega)).mono ?_
    exact Nat.add_le_mul h.1 h.2
  · refine .inl (le_antisymm hmax ?_)
    rcases ha with ha | ha
    · exact ha ▸ hle.1
    · exact h.trans (ha.trans hle.1)
  · refine .inl (le_antisymm hmax ?_)
    rcases hb with hb | hb
    · exact hb ▸ hle.2
    · exact h.trans (hb.trans hle.2)

/-- **The rule of full outer joins takes bounds to a bound exactly where they are covered.** -/
theorem keeps_bounds_fullOuter_iff :
    keeps CMaxCard.Bounds ex env (join .fullOuter left right p) ↔
      covered ex env (join .fullOuter left right p) := by
  constructor
  · intro h
    exact covered_of_bounds_attained (h _ _ (CMaxCard.bounds_ofUll le_rfl)
      (CMaxCard.bounds_ofUll le_rfl))
  · exact fun h a b ha hb => bounds_of_covered h ha hb

end FullOuter

theorem keeps_bounds_limit_iff {id : ℕ} {child : LogicalExpr D} {offset count : LimitScalar} :
    keeps CMaxCard.Bounds ex env (limit id child offset count) ↔
      covered ex env (limit id child offset count) := by
  by_cases hnull : count = .int8 none ∨ count = .int4 none
  · have hvalue : count.value? = some (2 ^ 31 - 1) := by rcases hnull with rfl | rfl <;> rfl
    have heval : count.eval ex env = none := by rcases hnull with rfl | rfl <;> rfl
    have hlen := @length_limit D _ ex env id child offset count
    rw [heval] at hlen
    simp only [keeps, covered, hvalue, Option.some.injEq, forall_eq', hnull, true_imp_iff, hlen]
    rw [CMaxCard.Bounds, CMaxCard.ull_ofUll, gpoptMaxCard]
    omega
  · refine iff_of_true (fun value hvalue => ?_) fun h => absurd h hnull
    exact CMaxCard.bounds_ofUll (length_limit_le hvalue (not_or.1 hnull))

theorem keeps_bounds_iff (e : LogicalExpr D) :
    keeps CMaxCard.Bounds ex env e ↔ covered ex env e := by
  cases e with
  | limit => exact keeps_bounds_limit_iff
  | join op =>
    cases op with
    | fullOuter => exact keeps_bounds_fullOuter_iff
    | inner => exact Iff.rfl
    | leftOuter => exact Iff.rfl
  | _ => exact Iff.rfl

/-- Both rules keep the value 0. -/
theorem keeps_emptyIfZero (e : LogicalExpr D) : keeps CMaxCard.EmptyIfZero ex env e := by
  cases e with
  | limit id child offset count =>
    intro value hvalue hzero
    have hmax : 0 < gpoptMaxCard := by decide
    obtain rfl : value = 0 := by
      rw [CMaxCard.ull_ofUll] at hzero
      omega
    refine Nat.le_zero.1 (length_limit_le hvalue ⟨?_, ?_⟩) <;> rintro rfl <;> cases hvalue
  | join op left right p =>
    cases op with
    | fullOuter =>
      intro a b ha hb hzero
      have hle := le_maxcardFullOuter a b
      have hl : left.rows ex env = [] := List.length_eq_zero_iff.1 (ha (by omega))
      have hr : right.rows ex env = [] := List.length_eq_zero_iff.1 (hb (by omega))
      simp [rows, joinRows, hl, hr, Joins.fullOuter, Joins.leftOuter]
    | inner => trivial
    | leftOuter => trivial
  | _ => trivial

/-! ## The derived bounds -/

/-- The sides of a full outer join return as many rows as their derived values say. -/
def sidesAttained (fArrayConstraints : Bool) (arrayExpansionThreshold : ℕ) (ex : Execution D)
    (env : Row D) : LogicalExpr D → Prop
  | .join .fullOuter left right _ =>
    left.deriveMaxCard fArrayConstraints arrayExpansionThreshold =
      .ok (.ofUll (left.rows ex env).length) ∧
    right.deriveMaxCard fArrayConstraints arrayExpansionThreshold =
      .ok (.ofUll (right.rows ex env).length)
  | _ => True

theorem covered_of_maxCardHolds {e : LogicalExpr D}
    (hattained : sidesAttained fArrayConstraints arrayExpansionThreshold ex env e)
    (h : maxCardHolds CMaxCard.Bounds fArrayConstraints arrayExpansionThreshold ex env e) :
    covered ex env e := by
  cases e with
  | limit id child offset count =>
    refine keeps_bounds_limit_iff.1 fun value hvalue => h _ ?_
    rw [deriveMaxCard, hvalue]
  | join op left right p =>
    cases op with
    | fullOuter =>
      refine covered_of_bounds_attained (h _ ?_)
      rw [deriveMaxCard, hattained.1, hattained.2]
      rfl
    | inner => trivial
    | leftOuter => trivial
  | _ => trivial

section Examples

/-- A row of one value and a row of another one, joined where they are equal. -/
def fullOuterConstants (a b : ℤ) : LogicalExpr ℤ :=
  .join .fullOuter (.constTableGet [colKey] [[(a : Datum ℤ)]])
    (.constTableGet [colValue] [[(b : Datum ℤ)]]) (.cmp .eq (.ident colKey) (.ident colValue))

theorem fullOuterConstants_facts (a b : ℤ) :
    Everywhere WellScoped (fullOuterConstants a b) ∧
      Everywhere (baseFacts oneRow) (fullOuterConstants a b) ∧
      Everywhere (constraintsSafe true 10) (fullOuterConstants a b) := by
  have happart : Apart (.constTableGet [colKey] [[(a : Datum ℤ)]] : LogicalExpr ℤ)
      (.constTableGet [colValue] [[(b : Datum ℤ)]]) := by
    simp [Apart, rowColumns, colrefs, colKey, colValue]
  refine ⟨?_, ?_, ?_⟩
  · simpa [fullOuterConstants, WellScoped] using happart
  · simp [fullOuterConstants, baseFacts]
  · simp [fullOuterConstants, constraintsSafe]

end Examples

end LogicalExpr

end BossOptimizer

import BossOptimizer.Base.IntervalDerivation
import BossOptimizer.Lib.Except

/-!
# What `PciIntervalFromScalarExpr` computes

The derivation never looks at rows: it turns the text of a predicate into a set of column values.
`reading` is that set, clause by clause: a comparison is its ranges against the constant, whether
the constant is NULL or not; an array comparison is IN or NOT IN of its elements, whether it is
ANY or ALL; AND is the conjunction of the children that convert; NOT is the complement in the
other null mode. The interval that comes back holds exactly the values of the reading, so what is
right and wrong about the derivation is a matter of comparing `reading` with SQL evaluation.
-/

namespace BossOptimizer

namespace CConstraintInterval

variable {D : Type} [LinearOrder D]

/-- The interval accepts a value: NULL by its flag, a datum by its ranges. -/
def admits (this : CConstraintInterval (Datum D)) (v : Datum D) : Prop :=
  (if v = ⊥ then none else some v) ∈ this.members

attribute [local simp] CConstraintInterval.pciIntervalFromScalarExpr in
theorem admits_bot (this : CConstraintInterval (Datum D)) :
    this.admits ⊥ ↔ this.fIncludesNull = true := by simp [admits]

theorem admits_coe (this : CConstraintInterval (Datum D)) (d : D) :
    this.admits d ↔ ∃ r ∈ this.pdrgprng, (d : Datum D) ∈ r.members := by
  rw [admits, if_neg (WithBot.coe_ne_bot)]
  rfl

/-- A well-formed interval on the column that accepts exactly the values of a set. -/
def Exact (colref : CColRef) (S : Datum D → Prop) (pci : CConstraintInterval (Datum D)) : Prop :=
  pci.WellFormed ∧ pci.pcr = colref ∧ ∀ v, pci.admits v ↔ S v

variable {colref : CColRef}

theorem Exact.congr {S T : Datum D → Prop} {K : CConstraintInterval (Datum D)}
    (h : Exact colref S K) (hST : ∀ v, S v ↔ T v) : Exact colref T K :=
  ⟨h.1, h.2.1, fun v => (h.2.2 v).trans (hST v)⟩

theorem Exact.inter {S T : Datum D → Prop}
    {I J K : CConstraintInterval (Datum D)} (hI : Exact colref S I) (hJ : Exact colref T J)
    (hK : I.pciIntersect J = .ok K) : Exact colref (fun v => S v ∧ T v) K := by
  obtain ⟨hIwf, hIcol, hI⟩ := hI
  obtain ⟨hJwf, -, hJ⟩ := hJ
  obtain ⟨K', hK', hwf, hcol, hmem⟩ := pciIntersect_returns hIwf hJwf
  obtain rfl : K' = K := Except.ok.inj (hK'.symm.trans hK)
  refine ⟨hwf, hcol.trans hIcol, fun v => ?_⟩
  beta_reduce
  rw [← hI, ← hJ]
  simp only [admits, hmem, Set.mem_inter_iff]

theorem Exact.compl {S : Datum D → Prop} {I K : CConstraintInterval (Datum D)}
    (hI : Exact colref S I) (hK : I.pciComplement = .ok K) : Exact colref (fun v => ¬ S v) K := by
  obtain ⟨hIwf, hIcol, hI⟩ := hI
  have hc : I.pcr.fConstrainable = true := by
    by_contra hne
    simp [pciComplement, pciUnbounded, hne] at hK
  obtain ⟨K', hK', hwf, hcol, hmem⟩ := pciComplement_returns hIwf hc
  obtain rfl : K' = K := Except.ok.inj (hK'.symm.trans hK)
  refine ⟨hwf, hcol.trans hIcol, fun v => ?_⟩
  beta_reduce
  rw [← hI]
  simp only [admits, hmem, Set.mem_compl_iff]

/-- Well-formed intervals on one column. -/
def AllOn (colref : CColRef) (l : List (CConstraintInterval (Datum D))) : Prop :=
  ∀ pci ∈ l, pci.WellFormed ∧ pci.pcr = colref

theorem unionRound_spec (l : List (CConstraintInterval (Datum D))) (hl : AllOn colref l) {r}
    (h : unionRound l = .ok r) :
    AllOn colref r.1 ∧ ∀ v, (∃ pci ∈ r.1, pci.admits v) ↔ ∃ pci ∈ l, pci.admits v := by
  induction l using unionRound.induct with
  | case1 | case2 pci => cases h; exact ⟨hl, fun v => Iff.rfl⟩
  | case3 pci1 pci2 rest ih =>
    simp only [unionRound, bind_eq_ok, pure_eq_ok] at h
    obtain ⟨pciOr, hor, ⟨constraints, hlen⟩, hrest, rfl⟩ := h
    obtain ⟨hAll, hiff⟩ := ih (fun pci hpci => hl pci (by simp [hpci])) hrest
    obtain ⟨hwf1, hcol1⟩ := hl pci1 (by simp)
    obtain ⟨hwf2, -⟩ := hl pci2 (by simp)
    obtain ⟨K, hK, hwf, hcol, hmem⟩ := pciUnion_returns hwf1 hwf2
    obtain rfl : K = pciOr := Except.ok.inj (hK.symm.trans hor)
    refine ⟨?_, fun v => ?_⟩
    · intro pci hpci
      rcases List.mem_cons.1 hpci with rfl | hpci
      · exact ⟨hwf, hcol.trans hcol1⟩
      · exact hAll pci hpci
    · have hKv : K.admits v ↔ pci1.admits v ∨ pci2.admits v := by simp [admits, hmem]
      have := hiff v
      simp only [List.mem_cons, exists_eq_or_imp, hKv, this, or_assoc]

/-- The rounds compute the union of all intervals. -/
theorem unionRounds_spec (l : List (CConstraintInterval (Datum D))) (hl : AllOn colref l)
    {K : CConstraintInterval (Datum D)} (h : unionRounds l = .ok K) :
    K.WellFormed ∧ K.pcr = colref ∧ ∀ v, K.admits v ↔ ∃ pci ∈ l, pci.admits v := by
  induction hn : l.length using Nat.strong_induction_on generalizing l with
  | _ n ih =>
    rcases l with _ | ⟨pci1, _ | ⟨pci2, rest⟩⟩
    · simp [unionRounds] at h
    · rw [unionRounds] at h
      cases h
      exact ⟨(hl K (by simp)).1, (hl K (by simp)).2, by simp⟩
    · rw [unionRounds] at h
      simp only [bind_eq_ok] at h
      obtain ⟨⟨constraints, hlen⟩, hround, h⟩ := h
      obtain ⟨hAll, hiff⟩ := unionRound_spec _ hl hround
      obtain ⟨hwf, hcol, hK⟩ := ih constraints.length
        (by simp only [List.length_cons] at hlen hn; omega) constraints hAll h rfl
      exact ⟨hwf, hcol, fun v => (hK v).trans (hiff v)⟩

/-! ## Which predicates have an interval -/

section Converts

variable (fArrayConstraints : Bool) (colref : CColRef)

mutual

/-- The predicate has a shape the derivation understands. -/
def converts : ScalarExpr D → Bool
  | .const value => value ≠ some true || colref.fConstrainable
  | .nullTest (.ident _) => true
  | .nullTest _ => false
  | .cmp cmpType left right =>
    cmpType ≠ .other && left.identOrCast.isSome && right.constOrCast.isSome
  | .isDistinctFrom (.ident _) (.const _) => true
  | .isDistinctFrom _ _ => false
  | .arrayCmp _ cmpType left coerced array =>
    fArrayConstraints && (cmpType = .eq || cmpType = .neq) &&
      (match compareIdentToConstArray left coerced array with
        | some datums => datums ≠ []
        | none => false)
  | .boolOp .and children => convertsAny children
  | .boolOp .or children => convertsAll children
  | .boolOp .not children => convertsHead children
  | .other _ _ => false

def convertsAny : List (ScalarExpr D) → Bool
  | [] => false
  | e :: es => converts e || convertsAny es

def convertsAll : List (ScalarExpr D) → Bool
  | [] => true
  | e :: es => converts e && convertsAll es

def convertsHead : List (ScalarExpr D) → Bool
  | [] => false
  | e :: _ => converts e

end

attribute [local simp] converts convertsAny convertsAll convertsHead in
omit [LinearOrder D] in
@[simp] theorem convertsAny_iff (es : List (ScalarExpr D)) :
    convertsAny fArrayConstraints colref es = true ↔
      ∃ e ∈ es, converts fArrayConstraints colref e = true := by
  induction es with
  | nil => simp [convertsAny]
  | cons e es ih => simp [convertsAny, ih]

omit [LinearOrder D] in
@[simp] theorem convertsAll_iff (es : List (ScalarExpr D)) :
    convertsAll fArrayConstraints colref es = true ↔
      ∀ e ∈ es, converts fArrayConstraints colref e = true := by
  induction es with
  | nil => simp [convertsAll]
  | cons e es ih => simp [convertsAll, ih]

end Converts

variable {fArrayConstraints : Bool} {colref : CColRef}

omit [LinearOrder D] in
theorem isSome_pciIntervalFromColConstCmp (cmpType : ECmpType) (datum : Datum D) (m : Bool) :
    (pciIntervalFromColConstCmp colref cmpType datum m).isSome = decide (cmpType ≠ .other) := by
  cases cmpType <;> rfl

variable {datum : Datum D}

theorem isSome_isDistinctFrom {c : CColRef} {r : Option (CConstraintInterval (Datum D))}
    (h : pciIntervalFromScalarIDF colref (.ident c) (.const datum) = .ok r) :
    r.isSome = true := by
  by_cases hd : datum = ⊥
  · simp only [pciIntervalFromScalarIDF, if_pos hd, bind_eq_ok, pure_eq_ok] at h
    obtain ⟨K, -, rfl⟩ := h
    rfl
  · simp only [pciIntervalFromScalarIDF, if_neg hd, pure_eq_ok] at h
    subst h
    rfl

omit [LinearOrder D] in
theorem isSome_pciIntervalFromScalarConst (value : Option Bool) :
    (pciIntervalFromScalarConst (D := D) colref value).isSome =
      (value ≠ some true || colref.fConstrainable) := by
  rcases value with _ | _ | _ <;> cases h : colref.fConstrainable <;>
    simp [pciIntervalFromScalarConst, pciUnbounded, h]

variable {cmpType : ECmpType}

theorem isSome_arrayCmp {left : ScalarOperand D} {coerced m : Bool} {array : List (ScalarOperand D)}
    {r : Option (CConstraintInterval (Datum D))}
    (h : pcnstrIntervalFromScalarArrayCmp colref cmpType left coerced array m = .ok r) :
    r.isSome = ((cmpType = .eq || cmpType = .neq) &&
      (match compareIdentToConstArray left coerced array with
        | some datums => decide (datums ≠ [])
        | none => false)) := by
  unfold pcnstrIntervalFromScalarArrayCmp at h
  generalize compareIdentToConstArray left coerced array = datums at h ⊢
  rcases datums with _ | _ | ⟨d, ds⟩
  · cases h; simp
  · cases h; simp
  · simp only [bind_eq_ok] at h
    obtain ⟨set, -, h⟩ := h
    cases cmpType <;> cases h <;> simp

theorem isSome_boolAndRound {pci pciChild r : Option (CConstraintInterval (Datum D))}
    (h : boolAndRound pci pciChild = .ok r) : r.isSome = (pci.isSome || pciChild.isSome) := by
  cases pciChild <;> cases pci <;> simp only [boolAndRound, map_eq_ok] at h
  · cases h; rfl
  · cases h; rfl
  · cases h; rfl
  · obtain ⟨K, -, rfl⟩ := h
    rfl

variable {es : List (ScalarExpr D)}

theorem isSome_boolAnd {m : Bool}
    (ih : ∀ e ∈ es, ∀ r, pciIntervalFromScalarExpr fArrayConstraints colref e m = .ok r →
      r.isSome = converts fArrayConstraints colref e)
    {acc r : Option (CConstraintInterval (Datum D))}
    (h : pciIntervalFromScalarBoolAnd fArrayConstraints colref es m acc = .ok r) :
    r.isSome = (acc.isSome || convertsAny fArrayConstraints colref es) := by
  induction es generalizing acc with
  | nil => cases h; simp [convertsAny]
  | cons e es ihes =>
    simp only [pciIntervalFromScalarBoolAnd, bind_eq_ok] at h
    obtain ⟨child, hchild, acc', hacc', h⟩ := h
    have hc := ih e (by simp) child hchild
    rw [ihes (fun e he => ih e (by simp [he])) h, convertsAny, ← hc]
    have : acc'.isSome = (acc.isSome || child.isSome) := by
      exact isSome_boolAndRound hacc'
    rw [this, Bool.or_assoc]

theorem isSome_boolOrChildren {m : Bool}
    (ih : ∀ e ∈ es, ∀ r, pciIntervalFromScalarExpr fArrayConstraints colref e m = .ok r →
      r.isSome = converts fArrayConstraints colref e)
    {r : Option (List (CConstraintInterval (Datum D)))}
    (h : boolOrChildren fArrayConstraints colref es m = .ok r) :
    r.isSome = convertsAll fArrayConstraints colref es := by
  induction es generalizing r with
  | nil => cases h; simp [convertsAll]
  | cons e es ihes =>
    simp only [boolOrChildren, bind_eq_ok] at h
    obtain ⟨child, hchild, h⟩ := h
    have hc := ih e (by simp) child hchild
    rw [convertsAll, ← hc]
    cases child with
    | none => cases h; simp
    | some pciChild =>
      simp only [bind_eq_ok, pure_eq_ok] at h
      obtain ⟨rest, hrest, rfl⟩ := h
      simp [ihes (fun e he => ih e (by simp [he])) hrest]

/-- The shape of the predicate decides whether a returning derivation finds an interval. -/
theorem isSome_pciIntervalFromScalarExpr (e : ScalarExpr D) : ∀ (m : Bool) r,
    pciIntervalFromScalarExpr fArrayConstraints colref e m = .ok r →
      r.isSome = converts fArrayConstraints colref e := by
  induction e using ScalarExpr.induction with
  | const value =>
    rintro m r ⟨⟩
    rw [isSome_pciIntervalFromScalarConst, converts]
  | nullTest child =>
    rintro m r ⟨⟩
    cases child <;> rfl
  | cmp cmpType left right =>
    rintro m r ⟨⟩
    rw [pciIntervalFromScalarCmp, converts]
    cases left.identOrCast <;> cases right.constOrCast <;>
      simp [isSome_pciIntervalFromColConstCmp]
  | isDistinctFrom left right =>
    intro m r h
    simp only [pciIntervalFromScalarExpr] at h
    cases left with
    | ident c =>
      cases right with
      | const datum => rw [isSome_isDistinctFrom h, converts]
      | _ => cases h; rfl
    | _ => cases h; rfl
  | arrayCmp arr cmpType left coerced array =>
    intro m r h
    simp only [pciIntervalFromScalarExpr] at h
    cases fArrayConstraints with
    | false => cases h; simp [converts]
    | true => rw [isSome_arrayCmp h, converts, Bool.true_and]
  | boolOp op children ih =>
    intro m r h
    simp only [pciIntervalFromScalarExpr] at h
    cases op with
    | and =>
      cases children with
      | nil => simp at h
      | cons e es =>
        simpa [converts] using isSome_boolAnd (fun e he => ih e he m) h
    | or =>
      simp only [bind_eq_ok] at h
      obtain ⟨pcis, hpcis, h⟩ := h
      rw [converts, ← isSome_boolOrChildren (fun e he => ih e he m) hpcis]
      cases pcis with
      | none => cases h; rfl
      | some pcis =>
        simp only [bind_eq_ok, pure_eq_ok] at h
        obtain ⟨K, -, rfl⟩ := h
        rfl
    | not =>
      cases children with
      | nil => simp [pciIntervalFromScalarBoolNot] at h
      | cons e es =>
        simp only [pciIntervalFromScalarBoolNot, bind_eq_ok] at h
        obtain ⟨child, hchild, h⟩ := h
        rw [converts, convertsHead, ← ih e (by simp) _ child hchild]
        cases child with
        | none => cases h; rfl
        | some pciChild =>
          simp only [bind_eq_ok, pure_eq_ok] at h
          obtain ⟨K, -, rfl⟩ := h
          rfl
  | other id used =>
    rintro m r ⟨⟩
    rfl

/-- The comparison as a relation on a linear order. -/
def cmpHolds {α : Type} [LinearOrder α] (cmpType : ECmpType) (x d : α) : Prop :=
  match cmpType with
  | .eq => x = d
  | .neq | .idf => x ≠ d
  | .l => x < d
  | .leq => x ≤ d
  | .g => d < x
  | .geq => d ≤ x
  | .other => False

attribute [local simp] cmpHolds in
/-- The ranges of a comparison with a constant hold exactly the datums that satisfy it. -/
theorem pciRangeFromColConstCmp_spec {rngs : List (CRange (Datum D))}
    (h : pciRangeFromColConstCmp cmpType datum = some rngs) :
    Ordered rngs ∧ ∀ x, (∃ r ∈ rngs, x ∈ r.members) ↔ cmpHolds cmpType x datum := by
  cases cmpType <;> simp only [pciRangeFromColConstCmp, reduceCtorEq, Option.some.injEq] at h <;>
    subst h
  all_goals
    refine ⟨by simp [ordered_cons, CRange.wellFormed_iff, CRange.ofCmp, CRange.lo, CRange.hi],
      fun x => ?_⟩
    simp [CRange.mem_members, CRange.ofCmp, cmpHolds]
  all_goals grind

/-! ## The reading -/

mutual

/-- The column values the derivation keeps for a predicate in a null mode. -/
def reading (fArrayConstraints : Bool) (colref : CColRef) :
    Bool → ScalarExpr D → Datum D → Prop
  | _, .const value, _ => value = some true
  | _, .nullTest _, v => v = ⊥
  | inferNullsAs, .cmp cmpType _ right, v =>
    if v = ⊥ then inferNullsAs = true else ∀ d ∈ right.constOrCast, cmpHolds cmpType v d
  | _, .isDistinctFrom _ right, v => ∀ d ∈ right.const?, v ≠ d
  | inferNullsAs, .arrayCmp _ cmpType left coerced array, v =>
    if v = ⊥ then inferNullsAs = true
    else ∀ datums ∈ compareIdentToConstArray left coerced array,
      if cmpType = .eq then v ∈ datums else v ∉ datums
  | inferNullsAs, .boolOp .and children, v =>
    readingAll fArrayConstraints colref inferNullsAs children v
  | inferNullsAs, .boolOp .or children, v =>
    readingAny fArrayConstraints colref inferNullsAs children v
  | inferNullsAs, .boolOp .not children, v =>
    ¬ readingHead fArrayConstraints colref (!inferNullsAs) children v
  | _, .other _ _, _ => True

/-- The conjunction of the children that convert. -/
def readingAll (fArrayConstraints : Bool) (colref : CColRef) (inferNullsAs : Bool) :
    List (ScalarExpr D) → Datum D → Prop
  | [], _ => True
  | e :: es, v =>
    (converts fArrayConstraints colref e = true →
      reading fArrayConstraints colref inferNullsAs e v) ∧
    readingAll fArrayConstraints colref inferNullsAs es v

def readingAny (fArrayConstraints : Bool) (colref : CColRef) (inferNullsAs : Bool) :
    List (ScalarExpr D) → Datum D → Prop
  | [], _ => False
  | e :: es, v =>
    reading fArrayConstraints colref inferNullsAs e v ∨
    readingAny fArrayConstraints colref inferNullsAs es v

def readingHead (fArrayConstraints : Bool) (colref : CColRef) (inferNullsAs : Bool) :
    List (ScalarExpr D) → Datum D → Prop
  | [], _ => True
  | e :: _, v => reading fArrayConstraints colref inferNullsAs e v

end

attribute [local simp] reading readingAll readingAny readingHead in
@[simp] theorem readingAll_iff (m : Bool) (es : List (ScalarExpr D)) (v : Datum D) :
    readingAll fArrayConstraints colref m es v ↔
      ∀ e ∈ es, converts fArrayConstraints colref e = true →
        reading fArrayConstraints colref m e v := by
  induction es with
  | nil => simp [readingAll]
  | cons e es ih => simp [readingAll, ih]

@[simp] theorem readingAny_iff (m : Bool) (es : List (ScalarExpr D)) (v : Datum D) :
    readingAny fArrayConstraints colref m es v ↔
      ∃ e ∈ es, reading fArrayConstraints colref m e v := by
  induction es with
  | nil => simp [readingAny]
  | cons e es ih => simp [readingAny, ih]

/-! ## Leaves -/

variable {pci : CConstraintInterval (Datum D)}

theorem nullTest_exact {child : ScalarOperand D}
    (h : pciIntervalFromScalarNullTest colref child = some pci) :
    Exact colref (fun v => v = ⊥) pci := by
  cases child with
  | ident c =>
    cases h
    refine ⟨ordered_nil, rfl, fun v => ?_⟩
    cases v using WithBot.recBotCoe <;> simp [admits_bot, admits_coe]
  | _ => cases h

/-- A comparison with a constant; the NULL datum is compared like any other. -/
theorem colConstCmp_exact {m : Bool}
    (h : pciIntervalFromColConstCmp colref cmpType datum m = some pci) :
    Exact colref (fun v => if v = ⊥ then m = true else cmpHolds cmpType v datum) pci := by
  simp only [pciIntervalFromColConstCmp, Option.map_eq_some_iff] at h
  obtain ⟨rngs, hrngs, rfl⟩ := h
  obtain ⟨hord, hmem⟩ := pciRangeFromColConstCmp_spec hrngs
  refine ⟨hord, rfl, fun v => ?_⟩
  cases v using WithBot.recBotCoe with
  | bot => simp [admits_bot]
  | coe v => simp [admits_coe, hmem]

theorem isDistinctFrom_exact {c : CColRef}
    (h : pciIntervalFromScalarIDF colref (.ident c) (.const datum) = .ok (some pci)) :
    Exact colref (fun v => v ≠ datum) pci := by
  simp only [pciIntervalFromScalarIDF] at h
  split at h
  · next hbot =>
    subst hbot
    simp only [bind_eq_ok, pure_eq_ok, Option.some.injEq] at h
    obtain ⟨K, hK, rfl⟩ := h
    have hnull : Exact colref (fun v : Datum D => v = ⊥) ⟨colref, [], true⟩ :=
      nullTest_exact (show pciIntervalFromScalarNullTest colref (.ident c) = _ from rfl)
    exact hnull.compl hK
  · next hbot =>
    simp only [pure_eq_ok, Option.map_eq_some_iff] at h
    obtain ⟨rngs, hrngs, rfl⟩ := h
    obtain ⟨hord, hmem⟩ := pciRangeFromColConstCmp_spec hrngs
    refine ⟨hord, rfl, fun v => ?_⟩
    cases v using WithBot.recBotCoe with
    | bot => simpa [admits_bot] using Ne.symm hbot
    | coe v => simp [admits_coe, hmem, cmpHolds]

theorem const_exact {value : Option Bool} (h : pciIntervalFromScalarConst colref value = some pci) :
    Exact colref (fun _ => value = some true) pci := by
  unfold pciIntervalFromScalarConst at h
  split at h
  · next htrue =>
    obtain ⟨hwf, hcol, -, hn⟩ := pciUnbounded_wellFormed h
    refine ⟨hwf, hcol, fun v => iff_of_true ?_ htrue⟩
    cases v using WithBot.recBotCoe with
    | bot => simp [admits_bot, hn]
    | coe v => simpa [admits] using mem_pciUnbounded h (v : Datum D)
  · next hne =>
    cases h
    refine ⟨ordered_nil, rfl, fun v => iff_of_false ?_ hne⟩
    cases v using WithBot.recBotCoe <;> simp [admits_bot, admits_coe]

theorem dedupSorted_spec (prev : Datum D) (l : List (Datum D))
    (h : (prev :: l).Pairwise (· ≤ ·)) :
    (prev :: dedupSorted prev l).Pairwise (· < ·) ∧
      ∀ x, x ∈ prev :: dedupSorted prev l ↔ x ∈ prev :: l := by
  induction l generalizing prev with
  | nil => simp [dedupSorted]
  | cons d l ih =>
    have hle : prev ≤ d := (List.pairwise_cons.1 h).1 d (by simp)
    by_cases hd : d = prev
    · subst hd
      obtain ⟨hsort, hmem⟩ := ih d (List.pairwise_cons.1 h).2
      simp only [dedupSorted, ne_eq, not_true_eq_false, if_false]
      exact ⟨hsort, fun x => by rw [hmem x]; simp⟩
    · obtain ⟨hsort, hmem⟩ := ih d (List.pairwise_cons.1 h).2
      have hlt : prev < d := lt_of_le_of_ne hle (Ne.symm hd)
      simp only [dedupSorted, ne_eq, hd, not_false_eq_true, if_true]
      refine ⟨List.pairwise_cons.2 ⟨fun x hx => ?_, hsort⟩, fun x => ?_⟩
      · rcases List.mem_cons.1 hx with rfl | hx'
        · exact hlt
        · exact hlt.trans ((List.pairwise_cons.1 hsort).1 x hx')
      · rw [List.mem_cons, hmem x, List.mem_cons (a := x) (b := prev)]

/-- The set holds the non-NULL datums of the array once each, in order, and is not empty. -/
theorem datumSortedSet_spec {datums set : List (Datum D)} (h : datumSortedSet datums = .ok set) :
    set ≠ [] ∧ set.Pairwise (· < ·) ∧ ∀ x, x ∈ set ↔ x ∈ datums ∧ x ≠ ⊥ := by
  unfold datumSortedSet at h
  have hmem : ∀ x, x ∈ (datums.filter (· ≠ ⊥)).insertionSort (· ≤ ·) ↔ x ∈ datums ∧ x ≠ ⊥ := by
    simp [List.mem_insertionSort]
  have hsort := List.pairwise_insertionSort (· ≤ ·) (datums.filter (· ≠ ⊥))
  generalize (datums.filter (· ≠ ⊥)).insertionSort (· ≤ ·) = sorted at h hmem hsort
  cases sorted with
  | nil => cases h
  | cons prev rest =>
    cases h
    obtain ⟨hlt, hmem'⟩ := dedupSorted_spec prev rest hsort
    exact ⟨by simp, hlt, fun x => (hmem' x).trans (hmem x)⟩

/-- IN: the points of a strictly sorted list. -/
theorem inRanges_spec (set : List (Datum D)) (h : set.Pairwise (· < ·)) :
    Ordered (set.map (CRange.ofCmp .eq)) ∧
      ∀ x, (∃ r ∈ set.map (CRange.ofCmp .eq), x ∈ r.members) ↔ x ∈ set := by
  refine ⟨⟨?_, ?_⟩, fun x => ?_⟩
  · simp [CRange.wellFormed_iff, CRange.ofCmp]
  · rw [List.pairwise_map]
    refine h.imp fun hab => ?_
    simp [CRange.ofCmp, CRange.hi, CRange.lo, hab]
  · simp only [List.mem_map, exists_exists_and_eq_and, CRange.mem_members, CRange.ofCmp]
    grind

/-- NOT IN: the gaps of a strictly sorted list, from `prev` on. -/
theorem notInRanges_spec (prev : Option (Datum D)) (set : List (Datum D))
    (h : set.Pairwise (· < ·)) (hprev : ∀ a ∈ prev, ∀ x ∈ set, a < x) :
    Ordered (notInRanges prev set) ∧
      (∀ r ∈ notInRanges prev set, ∀ a ∈ prev, Cut.side a true ≤ r.lo) ∧
      ∀ x, (∃ r ∈ notInRanges prev set, x ∈ r.members) ↔ (∀ a ∈ prev, a < x) ∧ x ∉ set := by
  induction set generalizing prev with
  | nil =>
    refine ⟨?_, ?_, fun x => ?_⟩
    · cases prev <;> simp [notInRanges, ordered_cons, CRange.wellFormed_iff]
    · cases prev <;> simp [notInRanges, CRange.lo]
    · simp [notInRanges, CRange.mem_members, eq_comm]
  | cons d rest ih =>
    obtain ⟨hd, hrest⟩ := List.pairwise_cons.1 h
    obtain ⟨hord, hlo, hmem⟩ := ih (some d) hrest (by simpa using hd)
    have hpd : ∀ a ∈ prev, a < d := fun a ha => hprev a ha d (by simp)
    refine ⟨?_, ?_, fun x => ?_⟩
    · rw [notInRanges, ordered_cons]
      refine ⟨?_, fun s hs => ?_, hord⟩
      · rw [CRange.wellFormed_iff]
        rintro a b ha hb
        cases hb
        exact .inl (hpd a ha)
      · refine le_trans ?_ (hlo s hs d rfl)
        simp [CRange.hi]
    · simp only [notInRanges, List.mem_cons, forall_eq_or_imp]
      refine ⟨fun a ha => by cases ha; simp [CRange.lo], fun r hr a ha => ?_⟩
      exact le_trans (by simp [hpd a ha]) (hlo r hr d rfl)
    · have hhead : x ∈ (⟨prev, .excluded, some d, .excluded⟩ : CRange (Datum D)).members ↔
          (∀ a ∈ prev, a < x) ∧ x < d := by
        rw [CRange.mem_members]
        simp
      simp only [notInRanges, List.mem_cons, exists_eq_or_imp]
      rw [hhead, hmem x]
      have hpd' : d < x → ∀ a ∈ prev, a < x := fun hx a ha => (hpd a ha).trans hx
      have hd' := hd x
      simp only [Option.mem_some_iff, forall_eq', not_or]
      constructor
      · rintro (⟨hp, hx⟩ | ⟨hx, hr⟩)
        · exact ⟨hp, hx.ne, fun hr => absurd (hd' hr) (not_lt.2 hx.le)⟩
        · exact ⟨hpd' hx, hx.ne', hr⟩
      · rintro ⟨hp, hne, hr⟩
        rcases lt_or_gt_of_ne hne with hx | hx
        · exact .inl ⟨hp, hx⟩
        · exact .inr ⟨hx, hr⟩

/-- IN or NOT IN of the elements; the quantifier of the comparison is not looked at. -/
theorem arrayCmp_exact {left : ScalarOperand D} {coerced m : Bool} {array : List (ScalarOperand D)}
    (h : pcnstrIntervalFromScalarArrayCmp colref cmpType left coerced array m = .ok (some pci)) :
    Exact colref (fun v => if v = ⊥ then m = true
      else ∀ datums ∈ compareIdentToConstArray left coerced array,
        if cmpType = .eq then v ∈ datums else v ∉ datums) pci := by
  unfold pcnstrIntervalFromScalarArrayCmp at h
  generalize compareIdentToConstArray left coerced array = o at h ⊢
  rcases o with _ | _ | ⟨d0, ds⟩
  · cases h
  · cases h
  simp only [bind_eq_ok] at h
  obtain ⟨set, hset, h⟩ := h
  obtain ⟨-, hlt, hmem⟩ := datumSortedSet_spec hset
  generalize d0 :: ds = datums at *
  cases cmpType <;> simp only [reduceCtorEq, pure_eq_ok, Option.some.injEq] at h <;> subst h
  · obtain ⟨hord, hin⟩ := inRanges_spec set hlt
    refine ⟨hord, rfl, fun v => ?_⟩
    cases v using WithBot.recBotCoe with
    | bot => simp [admits_bot]
    | coe v => rw [admits_coe, hin, hmem]; simp
  · obtain ⟨hord, -, hin⟩ := notInRanges_spec none set hlt (by simp)
    refine ⟨hord, rfl, fun v => ?_⟩
    cases v using WithBot.recBotCoe with
    | bot => simp [admits_bot]
    | coe v => simp [admits_coe, hin, hmem]

/-! ## The derivation -/

/-- The accumulator of the AND loop holds the values of the converting conjuncts read so far. -/
theorem boolAnd_exact {m : Bool}
    (ih : ∀ e ∈ es, ∀ pci, pciIntervalFromScalarExpr fArrayConstraints colref e m = .ok (some pci) →
      Exact colref (reading fArrayConstraints colref m e) pci)
    {acc : Option (CConstraintInterval (Datum D))} {S : Datum D → Prop}
    (hacc : ∀ K ∈ acc, Exact colref S K) (hnone : acc = none → ∀ v, S v)
    (h : pciIntervalFromScalarBoolAnd fArrayConstraints colref es m acc = .ok (some pci)) :
    Exact colref (fun v => S v ∧ readingAll fArrayConstraints colref m es v) pci := by
  induction es generalizing acc S with
  | nil =>
    cases h
    exact (hacc pci rfl).congr fun v => by simp
  | cons e es ihes =>
    simp only [pciIntervalFromScalarBoolAnd, bind_eq_ok] at h
    obtain ⟨child, hchild, acc', hacc', h⟩ := h
    have hconv := isSome_pciIntervalFromScalarExpr e m child hchild
    set T : Datum D → Prop := fun v => S v ∧ (converts fArrayConstraints colref e = true →
      reading fArrayConstraints colref m e v) with hT
    have key : (∀ K ∈ acc', Exact colref T K) ∧ (acc' = none → ∀ v, T v) := by
      cases child with
      | none =>
        cases hacc'
        have hno : ∀ v, S v ↔ T v := fun v => by simp [hT, ← hconv]
        exact ⟨fun K hK => (hacc K hK).congr hno, fun ha v => (hno v).1 (hnone ha v)⟩
      | some pciChild =>
        have hc := ih e (by simp) pciChild hchild
        cases acc with
        | none =>
          cases hacc'
          refine ⟨fun K hK => ?_, by simp⟩
          cases hK
          exact hc.congr fun v => by simp [hT, ← hconv, hnone rfl v]
        | some pciAcc =>
          simp only [boolAndRound, map_eq_ok] at hacc'
          obtain ⟨K, hK, rfl⟩ := hacc'
          refine ⟨fun K' hK' => ?_, by simp⟩
          cases hK'
          exact ((hacc pciAcc rfl).inter hc hK).congr fun v => by simp [hT, ← hconv]
    refine (ihes (fun e he => ih e (by simp [he])) key.1 key.2 h).congr fun v => ?_
    rw [readingAll, hT, and_assoc]

theorem boolOrChildren_exact {m : Bool}
    (ih : ∀ e ∈ es, ∀ pci, pciIntervalFromScalarExpr fArrayConstraints colref e m = .ok (some pci) →
      Exact colref (reading fArrayConstraints colref m e) pci)
    {pcis : List (CConstraintInterval (Datum D))}
    (h : boolOrChildren fArrayConstraints colref es m = .ok (some pcis)) :
    AllOn colref pcis ∧
      ∀ v, (∃ pci ∈ pcis, pci.admits v) ↔ readingAny fArrayConstraints colref m es v := by
  induction es generalizing pcis with
  | nil => cases h; exact ⟨by simp [AllOn], by simp⟩
  | cons e es ihes =>
    simp only [boolOrChildren, bind_eq_ok] at h
    obtain ⟨child, hchild, h⟩ := h
    cases child with
    | none => cases h
    | some pciChild =>
      simp only [bind_eq_ok, pure_eq_ok, Option.map_eq_some_iff] at h
      obtain ⟨rest, hrest, pcis', rfl, rfl⟩ := h
      obtain ⟨hwf, hcol, hiff⟩ := ih e (by simp) pciChild hchild
      obtain ⟨hAll, hrest⟩ := ihes (fun e he => ih e (by simp [he])) hrest
      refine ⟨?_, fun v => ?_⟩
      · intro pci hpci
        rcases List.mem_cons.1 hpci with rfl | hpci
        · exact ⟨hwf, hcol⟩
        · exact hAll pci hpci
      · simp only [List.mem_cons, exists_eq_or_imp, hiff v, hrest v, readingAny]

/-- **The interval holds exactly the values of the reading.** -/
theorem exact_reading (e : ScalarExpr D) : ∀ (m : Bool) pci,
    pciIntervalFromScalarExpr fArrayConstraints colref e m = .ok (some pci) →
      Exact colref (reading fArrayConstraints colref m e) pci := by
  induction e using ScalarExpr.induction with
  | const value =>
    intro m pci h
    exact (const_exact (Except.ok.inj h)).congr fun v => by rw [reading]
  | nullTest child =>
    intro m pci h
    exact (nullTest_exact (Except.ok.inj h)).congr fun v => by rw [reading]
  | cmp cmpType left right =>
    intro m pci h
    have h := Except.ok.inj h
    rw [pciIntervalFromScalarCmp] at h
    cases hl : left.identOrCast with
    | none => rw [hl] at h; cases h
    | some c =>
      cases hr : right.constOrCast with
      | none => rw [hl, hr] at h; cases h
      | some datum =>
        rw [hl, hr] at h
        exact (colConstCmp_exact h).congr fun v => by simp [reading, hr]
  | isDistinctFrom left right =>
    intro m pci h
    rw [pciIntervalFromScalarExpr] at h
    cases left with
    | ident c =>
      cases right with
      | const datum =>
        exact (isDistinctFrom_exact h).congr fun v => by simp [reading, ScalarOperand.const?]
      | _ => cases h
    | _ => cases h
  | arrayCmp arr cmpType left coerced array =>
    intro m pci h
    rw [pciIntervalFromScalarExpr] at h
    cases fArrayConstraints with
    | false => simp at h
    | true =>
      rw [if_pos rfl] at h
      exact (arrayCmp_exact h).congr fun v => by rw [reading]
  | boolOp op children ih =>
    intro m pci h
    simp only [pciIntervalFromScalarExpr] at h
    cases op with
    | and =>
      cases children with
      | nil => simp at h
      | cons e es =>
        refine (boolAnd_exact (S := fun _ => True) (fun e he => ih e he m) (by simp) (by simp)
          h).congr fun v => ?_
        rw [reading, true_and]
    | or =>
      simp only [bind_eq_ok] at h
      obtain ⟨pcis, hpcis, h⟩ := h
      cases pcis with
      | none => cases h
      | some pcis =>
        simp only [bind_eq_ok, pure_eq_ok, Option.some.injEq] at h
        obtain ⟨K, hK, rfl⟩ := h
        obtain ⟨hAll, hany⟩ := boolOrChildren_exact (fun e he => ih e he m) hpcis
        obtain ⟨hwf, hcol, hmem⟩ := unionRounds_spec pcis hAll hK
        exact ⟨hwf, hcol, fun v => by rw [hmem, hany, reading]⟩
    | not =>
      cases children with
      | nil => simp [pciIntervalFromScalarBoolNot] at h
      | cons e es =>
        simp only [pciIntervalFromScalarBoolNot, bind_eq_ok] at h
        obtain ⟨child, hchild, h⟩ := h
        cases child with
        | none => cases h
        | some pciChild =>
          simp only [bind_eq_ok, pure_eq_ok, Option.some.injEq] at h
          obtain ⟨K, hK, rfl⟩ := h
          exact ((ih e (by simp) (!m) pciChild hchild).compl hK).congr fun v => by
            rw [reading, readingHead]
  | other id used => intro m pci h; cases h

end CConstraintInterval

end BossOptimizer

import BossOptimizer.Base.ConstraintExpr
import BossOptimizer.Base.IntervalSoundness

/-!
# When the expression of an interval is true

`PexprScalar` writes an interval out as a disjunction of ranges or, under array constraints, as an
IN or NOT IN list. SQL evaluates it to true on the members of the interval, as long as no range
with members starts at the NULL datum: the comparator of intervals puts NULL below every value,
while a comparison with NULL is unknown in SQL.
-/

namespace BossOptimizer

open CConstraint (joined)
open CConstraintInterval (admits admits_iff AdmitsDatum Ordered ordered_cons cmpHolds satisfied)

variable {D : Type} [LinearOrder D] {I : Interpretation D} {row : Row D} {colref : CColRef}

/-! ## Predicates that keep a row -/

theorem satisfied_const (b : Bool) : satisfied I false (.const (some b)) row ↔ b = true :=
  Truth.holds_some b

theorem satisfied_isNull : satisfied I false (pexprIsNull colref) row ↔ row colref = ⊥ := by
  rw [satisfied, pexprIsNull, ScalarExpr.eval, Truth.holds_some]
  exact decide_eq_true_iff

theorem satisfied_isNotNull :
    satisfied I false (pexprNegate (pexprIsNull colref)) row ↔ row colref ≠ ⊥ := by
  change (Truth.not (some (decide (row colref = ⊥)))).holds false ↔ _
  rw [Truth.holds_not, Truth.holds_some]
  exact not_congr decide_eq_true_iff

/-- A comparison with a constant is true of values, against a value. -/
theorem satisfied_cmp {cmpType : ECmpType} (h : cmpType ≠ .other) {datum : Datum D} :
    satisfied I false (.cmp cmpType (.ident colref) (.const datum)) row ↔
      row colref ≠ ⊥ ∧ datum ≠ ⊥ ∧ cmpHolds cmpType (row colref) datum := by
  rw [satisfied, ScalarExpr.eval, ScalarOperand.eval, ScalarOperand.eval]
  cases row colref using WithBot.recBotCoe with
  | bot => simp
  | coe v =>
    cases datum using WithBot.recBotCoe with
    | bot => simp
    | coe d => simp [CConstraintInterval.holds_evalCmp_coe h]

/-- A connective is true when it is true of its operands. -/
theorem satisfied_boolOp (fConj : Bool) (es : List (ScalarExpr D)) :
    satisfied I false (.boolOp (if fConj then .and else .or) es) row ↔
      joined fConj es (satisfied I false · row) := by
  cases fConj
  · simp [satisfied, ScalarExpr.eval, EBoolOperator.eval, joined]
  · simp [satisfied, ScalarExpr.eval, EBoolOperator.eval, joined]

/-- Skipping constants and reducing to one keeps the meaning of the connective. -/
theorem satisfied_pexprConjDisj (fConj : Bool) (pdrgpexpr : List (ScalarExpr D)) :
    satisfied I false (pexprConjDisj fConj pdrgpexpr) row ↔
      joined fConj pdrgpexpr (satisfied I false · row) := by
  unfold pexprConjDisj
  by_cases hred : pdrgpexpr.any (fScalarConstBool (!fConj)) = true
  · rw [if_pos hred, satisfied_const]
    obtain ⟨e, he, hconst⟩ := List.any_eq_true.1 hred
    obtain rfl := fScalarConstBool_iff.1 hconst
    cases fConj
    · exact iff_of_true rfl ⟨_, he, (satisfied_const _).2 rfl⟩
    · exact iff_of_false (by simp) fun hall => by simpa using (satisfied_const _).1 (hall _ he)
  · rw [if_neg hred]
    have hskip : ∀ e ∈ pdrgpexpr, fScalarConstBool fConj e = true →
        (satisfied I false e row ↔ fConj = true) := by
      intro e _ hconst
      rw [fScalarConstBool_iff.1 hconst, satisfied_const]
    have hjoin : joined fConj pdrgpexpr (satisfied I false · row) ↔ joined fConj
        (pdrgpexpr.filter (!fScalarConstBool fConj ·)) (satisfied I false · row) := by
      cases fConj
      · refine ⟨fun ⟨e, he, hsat⟩ => ⟨e, List.mem_filter.2 ⟨he, ?_⟩, hsat⟩,
          fun ⟨e, he, hsat⟩ => ⟨e, List.mem_of_mem_filter he, hsat⟩⟩
        by_contra hconst
        exact absurd ((hskip e he (by simpa using hconst)).1 hsat) (by simp)
      · refine ⟨fun hall e he => hall e (List.mem_of_mem_filter he), fun hall e he => ?_⟩
        by_cases hconst : fScalarConstBool true e = true
        · exact (hskip e he hconst).2 rfl
        · exact hall e (List.mem_filter.2 ⟨he, by simpa using hconst⟩)
    rw [hjoin]
    generalize pdrgpexpr.filter (!fScalarConstBool fConj ·) = final
    rcases final with _ | ⟨e, _ | ⟨e', es⟩⟩
    · rw [satisfied_const]
      cases fConj <;> simp [joined]
    · cases fConj <;> simp [joined]
    · exact satisfied_boolOp fConj _

/-! ## Ranges -/

namespace CRange

/-- The expression of a range is true on its values, unless its left end is the NULL datum. -/
theorem satisfied_pexprScalar {r : CRange (Datum D)}
    (hends : r.pdatumLeft = none → r.pdatumRight ≠ none) :
    satisfied I false (r.pexprScalar colref) row ↔
      row colref ≠ ⊥ ∧ r.pdatumLeft ≠ some ⊥ ∧ row colref ∈ r.members := by
  obtain ⟨left, eL, right, eR⟩ := r
  rw [mem_members, pexprScalar]
  cases heq : (⟨left, eL, right, eR⟩ : CRange (Datum D)).pexprEquality colref with
  | some e =>
    rcases left with _ | a <;> rcases right with _ | b <;> simp [pexprEquality] at heq
    obtain ⟨⟨rfl, hL, hR⟩, rfl⟩ := heq
    have hL : eL = .included := by cases eL <;> simp_all
    have hR : eR = .included := by cases eR <;> simp_all
    subst hL hR
    refine (satisfied_cmp (by simp)).trans ?_
    simp only [cmpHolds, Option.some.injEq, forall_eq', ne_eq]
    grind
  | none =>
    refine (satisfied_pexprConjDisj true _).trans ?_
    rcases left with _ | a <;> rcases right with _ | b <;> cases eL <;> cases eR <;>
      simp [pexprScalarCompEnd, joined, satisfied_cmp, cmpHolds] at hends ⊢
    all_goals grind

end CRange

/-! ## Intervals -/

namespace CConstraintInterval

/-- The value is in a range that does not start at the NULL datum. -/
def InProperRange (this : CConstraintInterval (Datum D)) (v : Datum D) : Prop :=
  v ≠ ⊥ ∧ ∃ r ∈ this.pdrgprng, r.pdatumLeft ≠ some ⊥ ∧ v ∈ r.members

/-- OR IS NULL adds NULL when the interval includes it. -/
theorem satisfied_pexprOrIsNull (this : CConstraintInterval (Datum D)) (e : ScalarExpr D) :
    satisfied I false (this.pexprOrIsNull e) row ↔
      satisfied I false e row ∨ row this.pcr = ⊥ ∧ this.fIncludesNull = true := by
  unfold pexprOrIsNull
  split
  · next hn =>
    rw [satisfied_pexprConjDisj]
    simp [joined, satisfied_isNull, hn]
  · next hn => simp [hn]

variable {this : CConstraintInterval (Datum D)}

/-- The disjunction of the ranges. -/
theorem satisfied_pexprConstructDisjunctionScalar
    (hwf : this.WellFormed) : satisfied I false this.pexprConstructDisjunctionScalar row ↔
      this.InProperRange (row this.pcr) ∨ row this.pcr = ⊥ ∧ this.fIncludesNull = true := by
  by_cases hall : ∃ r ∈ this.pdrgprng, r.pdatumLeft = none ∧ r.pdatumRight = none
  · -- all values but NULL
    obtain ⟨r, hr, hl, hrr⟩ := hall
    have hsole := Ordered.sole hwf hr hl hrr
    have hproper : this.InProperRange (row this.pcr) ↔ row this.pcr ≠ ⊥ := by
      simp [InProperRange, hsole, CRange.mem_members, hl, hrr]
    rw [pexprConstructDisjunctionScalar_unbounded hsole hl hrr, hproper]
    split
    · next hn => simp [satisfied_const, hn, or_comm, em]
    · next hn => simp [satisfied_isNotNull, hn]
  · have hrange : ∀ r ∈ this.pdrgprng, r.pdatumLeft = none → r.pdatumRight ≠ none :=
      fun r hr hl hrr => hall ⟨r, hr, hl, hrr⟩
    rw [pexprConstructDisjunctionScalar_bounded hrange, satisfied_pexprConjDisj]
    simp only [joined, List.mem_append, or_and_right, exists_or, Bool.false_eq_true, if_false,
      List.mem_map, exists_exists_and_eq_and]
    refine or_congr ?_ ?_
    · constructor
      · rintro ⟨r, hr, hsat⟩
        obtain ⟨hne, hleft, hmem⟩ := (CRange.satisfied_pexprScalar (hrange r hr)).1 hsat
        exact ⟨hne, r, hr, hleft, hmem⟩
      · rintro ⟨hne, r, hr, hleft, hmem⟩
        exact ⟨r, hr, (CRange.satisfied_pexprScalar (hrange r hr)).2 ⟨hne, hleft, hmem⟩⟩
    · split
      · next hn => simp [hn, satisfied_isNull]
      · next hn => simp [hn]

/-! ## Arrays -/

/-- An array of constants compared with the column. -/
theorem satisfied_arrayCmp {arr : EArrCmpType} {cmpType : ECmpType} (h : cmpType ≠ .other)
    {array : List (ScalarOperand D)} {datums : List (Datum D)}
    (harray : fScalarConstArray array = some datums) (hne : datums ≠ []) :
    satisfied I false (.arrayCmp arr cmpType (.ident colref) false array) row ↔
      row colref ≠ ⊥ ∧
        quantify arr datums fun d => d ≠ ⊥ ∧ cmpHolds cmpType (row colref) d := by
  have heval : ScalarExpr.eval I row (.arrayCmp arr cmpType (.ident colref) false array) =
      arr.eval (datums.map (evalCmp I cmpType (row colref))) := by
    rw [ScalarExpr.eval, ← eval_of_fScalarConstArray (I := I) harray row, List.map_map]
    rfl
  rw [satisfied, heval]
  cases row colref using WithBot.recBotCoe with
  | bot => simp [arrayEval_bot arr cmpType hne]
  | coe v =>
    rw [arrayEval_coe arr h]
    cases arr <;> simp [quantify]

variable {rs : List (CRange (Datum D))}

omit [LinearOrder D] in
theorem arrayDatums_ok (h : ∀ r ∈ rs, r.pdatumRight ≠ none) :
    ∃ array, arrayDatums rs = .ok array := by
  induction rs with
  | nil => exact ⟨[], rfl⟩
  | cons r rs ih =>
    obtain ⟨datum, hdatum⟩ := Option.ne_none_iff_exists'.1 (h r (by simp))
    obtain ⟨array, harray⟩ := ih fun r hr => h r (by simp [hr])
    exact ⟨.const datum :: array, by rw [arrayDatums, hdatum, harray]; rfl⟩

/-- In an ordered array only the last range can have an infinite right end. -/
theorem Ordered.right_of_dropLast (h : Ordered rs)
    {r : CRange (Datum D)} (hr : r ∈ rs.dropLast) : r.pdatumRight ≠ none := by
  have hne : rs ≠ [] := fun heq => by simp [heq] at hr
  rw [← List.dropLast_append_getLast hne, ordered_append] at h
  obtain ⟨-, hlast, hsep⟩ := h
  intro hright
  have hle := hsep r hr _ (List.mem_singleton.2 rfl)
  rw [(CRange.hi_eq_top_iff r).2 hright] at hle
  exact absurd (hlast.1 _ (List.mem_singleton.2 rfl)) (not_lt.2 (le_top.trans hle))

/-- The ranges of an IN list are points. -/
theorem points_of_fConvertsToIn (hwf : Ordered rs)
    (hin : fConvertsToIn rs = true) : 1 < rs.length ∧ (∀ r ∈ rs, r.fPoint = true) ∧
      (∀ r ∈ rs, r.pdatumRight = r.pdatumLeft) ∧ ∀ r ∈ rs, r.pdatumRight ≠ none := by
  simp only [fConvertsToIn, Bool.and_eq_true, decide_eq_true_eq, List.all_eq_true] at hin
  obtain ⟨hlen, hpoint⟩ := hin
  have hends : ∀ r ∈ rs, r.pdatumRight = r.pdatumLeft := fun r hr => by
    have hr := hpoint r hr
    simp only [CRange.fPoint, Bool.and_eq_true, decide_eq_true_eq] at hr
    exact hr.2
  refine ⟨hlen, hpoint, hends, fun r hr hnone => ?_⟩
  have hsole := Ordered.sole hwf hr ((hends r hr).symm.trans hnone) hnone
  simp [hsole] at hlen

/-- The IN list of an interval of points. -/
theorem satisfied_in (hwf : this.WellFormed)
    (hin : fConvertsToIn this.pdrgprng = true) : ∃ array, arrayDatums this.pdrgprng = .ok array ∧
      ∀ (I : Interpretation D) (row : Row D),
        satisfied I false (.arrayCmp .any .eq (.ident this.pcr) false array) row ↔
          this.InProperRange (row this.pcr) := by
  obtain ⟨hlen, hpoint, hends, hright⟩ := points_of_fConvertsToIn hwf hin
  obtain ⟨array, harray⟩ := arrayDatums_ok hright
  obtain ⟨datums, hds, hmap⟩ := fScalarConstArray_arrayDatums harray
  have hne : datums ≠ [] := by
    rintro rfl
    simp only [List.map_nil, List.map_eq_nil_iff] at hmap
    simp [hmap] at hlen
  refine ⟨array, harray, fun I row => (satisfied_arrayCmp (by simp) hds hne).trans ?_⟩
  have hmem := fConvertsToIn_members hpoint hmap (row this.pcr)
  refine and_congr_right fun hv => ?_
  calc quantify .any datums (fun d => d ≠ ⊥ ∧ cmpHolds .eq (row this.pcr) d)
      ↔ row this.pcr ∈ datums := by
        simp only [quantify, cmpHolds]
        constructor
        · rintro ⟨d, hd, -, heq⟩
          exact heq ▸ hd
        · exact fun hd => ⟨_, hd, hv, rfl⟩
    _ ↔ ∃ r ∈ this.pdrgprng, row this.pcr ∈ r.members := hmem.symm
    _ ↔ ∃ r ∈ this.pdrgprng, r.pdatumLeft ≠ some ⊥ ∧ row this.pcr ∈ r.members := by
        refine exists_congr fun r => and_congr_right fun hr => ?_
        refine ⟨fun hin => ⟨fun hleft => ?_, hin⟩, And.right⟩
        -- the point NULL has no other member
        have hle := ((CRange.mem_members r _).1 hin).2 ⊥ ((hends r hr).trans hleft)
        rcases hle with hlt | heq
        · exact absurd hlt not_lt_bot
        · exact hv heq.1

/-- The inner ends of a NOT IN list are the left ends of its ranges. -/
theorem mem_datums_of_innerEndsMeet {r : CRange (Datum D)} {datums : List (Datum D)}
    (hmeet : innerEndsMeet (r :: rs) = true)
    (hds : (r :: rs).dropLast.map CRange.pdatumRight = datums.map some) (d : Datum D) :
    d ∈ datums ↔ ∃ s ∈ rs, s.pdatumLeft = some d := by
  induction rs generalizing r datums with
  | nil =>
    obtain rfl : datums = [] := by simpa using hds.symm
    simp
  | cons s rs ih =>
    obtain _ | ⟨d', datums⟩ := datums
    · simp at hds
    simp only [List.dropLast_cons_cons, List.map_cons, List.cons.injEq] at hds
    obtain ⟨hd', hds⟩ := hds
    simp only [innerEndsMeet, Bool.and_eq_true, decide_eq_true_eq,
      CRange.fUpperBoundEqualsLowerBound] at hmeet
    obtain ⟨⟨-, heq⟩, hrest⟩ := hmeet
    have hleft : s.pdatumLeft = some d' := heq.symm.trans hd'
    simp only [List.mem_cons, ih hrest hds, exists_eq_or_imp, hleft, Option.some.injEq]
    exact or_congr_left eq_comm

/-- The NOT IN list of the gaps of an interval: unknown as soon as NULL is a gap. -/
theorem satisfied_notIn (hwf : this.WellFormed) (hnotin : fConvertsToNotIn this.pdrgprng = true) :
    ∃ array, arrayDatums this.pdrgprng.dropLast = .ok array ∧
      ∀ (I : Interpretation D) (row : Row D),
        satisfied I false (.arrayCmp .all .neq (.ident this.pcr) false array) row ↔
          (∀ r ∈ this.pdrgprng, r.pdatumLeft ≠ some ⊥) ∧ this.InProperRange (row this.pcr) := by
  simp only [fConvertsToNotIn, Bool.and_eq_true, decide_eq_true_eq, Option.isNone_iff_eq_none]
    at hnotin
  obtain ⟨⟨hlen, hfirst⟩, hmeet⟩ := hnotin
  obtain ⟨array, harray⟩ := arrayDatums_ok fun r hr => Ordered.right_of_dropLast hwf hr
  obtain ⟨datums, hds, hmap⟩ := fScalarConstArray_arrayDatums harray
  obtain ⟨col, rs, n⟩ := this
  rcases rs with _ | ⟨r, _ | ⟨s, rs⟩⟩
  · simp at hlen
  · simp at hlen
  have hne : datums ≠ [] := by
    rintro rfl
    simp at hmap
  have hlo : r.lo = ⊥ := (CRange.lo_eq_bot_iff r).2 (by simpa using hfirst)
  have hleft : r.pdatumLeft = none := by simpa using hfirst
  refine ⟨array, harray, fun I row => (satisfied_arrayCmp (by simp) hds hne).trans ?_⟩
  have hmem := (innerEndsMeet_members hwf hmeet hmap).2 (row col)
  rw [hlo] at hmem
  have hbot : ⊥ ∉ datums ↔ ∀ t ∈ r :: s :: rs, t.pdatumLeft ≠ some ⊥ := by
    rw [mem_datums_of_innerEndsMeet hmeet hmap]
    simp [hleft]
  simp only [quantify, cmpHolds, InProperRange, ← hbot]
  constructor
  · rintro ⟨hv, hall⟩
    have hnull : ⊥ ∉ datums := fun hd => (hall _ hd).1 rfl
    obtain ⟨t, ht, hin⟩ := hmem.2 ⟨bot_le, fun hd => (hall _ hd).2 rfl⟩
    exact ⟨hnull, hv, t, ht, hbot.1 hnull t ht, hin⟩
  · rintro ⟨hnull, hv, t, ht, -, hin⟩
    have hnot := (hmem.1 ⟨t, ht, hin⟩).2
    exact ⟨hv, fun d hd => ⟨fun heq => hnull (heq ▸ hd), fun heq => hnot (heq ▸ hd)⟩⟩

/-! ## The expression of an interval -/

/-- The expression is a NOT IN list. -/
def isNotIn (fArrayConstraints : Bool) (this : CConstraintInterval (Datum D)) : Bool :=
  fArrayConstraints && fConvertsToNotIn this.pdrgprng

/-- The values on which the expression is true. -/
theorem satisfied_pexprScalar (hwf : this.WellFormed)
    (fArrayConstraints : Bool) : ∃ e, this.pexprScalar fArrayConstraints = .ok e ∧
      ∀ (I : Interpretation D) (row : Row D), satisfied I false e row ↔
        ((this.isNotIn fArrayConstraints = true → ∀ r ∈ this.pdrgprng, r.pdatumLeft ≠ some ⊥) ∧
          this.InProperRange (row this.pcr)) ∨ row this.pcr = ⊥ ∧ this.fIncludesNull = true := by
  have hdisj (hnot : this.isNotIn fArrayConstraints = false) (I : Interpretation D) (row : Row D) :
      satisfied I false this.pexprConstructDisjunctionScalar row ↔
        ((this.isNotIn fArrayConstraints = true → ∀ r ∈ this.pdrgprng, r.pdatumLeft ≠ some ⊥) ∧
          this.InProperRange (row this.pcr)) ∨ row this.pcr = ⊥ ∧ this.fIncludesNull = true := by
    simp [satisfied_pexprConstructDisjunctionScalar hwf, hnot]
  unfold pexprScalar
  by_cases hcon : this.fContradiction = true
  · rw [if_pos hcon]
    refine ⟨_, rfl, fun I row => iff_of_false (by simp [satisfied_const]) ?_⟩
    simp only [fContradiction, Bool.and_eq_true, Bool.not_eq_true', decide_eq_true_eq,
      List.length_eq_zero_iff] at hcon
    simp [InProperRange, hcon]
  rw [if_neg hcon]
  cases fArrayConstraints with
  | false => exact ⟨_, rfl, hdisj rfl⟩
  | true =>
    simp only [if_true, pexprConstructArrayScalar]
    by_cases hin : fConvertsToIn this.pdrgprng = true
    · obtain ⟨array, harray, hsat⟩ := satisfied_in hwf hin
      rw [if_pos hin, harray]
      refine ⟨_, rfl, fun I row => ?_⟩
      -- a NOT IN list starts with an infinite end
      have hnotin : this.isNotIn true = false := by
        rw [isNotIn, Bool.true_and, Bool.eq_false_iff]
        intro hnotin
        obtain ⟨hlen, -, hends, hright⟩ := points_of_fConvertsToIn hwf hin
        obtain ⟨r, rs, hrs⟩ := List.exists_cons_of_length_pos (Nat.zero_lt_of_lt hlen)
        simp only [fConvertsToNotIn, hrs, List.head?_cons, Option.bind_some, Bool.and_eq_true,
          Option.isNone_iff_eq_none] at hnotin
        have hr : r ∈ this.pdrgprng := by simp [hrs]
        exact hright r hr ((hends r hr).trans hnotin.1.2)
      rw [satisfied_pexprOrIsNull, hsat, hnotin]
      simp
    · rw [if_neg hin]
      by_cases hnotin : fConvertsToNotIn this.pdrgprng = true
      · obtain ⟨array, harray, hsat⟩ := satisfied_notIn hwf hnotin
        rw [if_pos hnotin, harray]
        refine ⟨_, rfl, fun I row => ?_⟩
        rw [satisfied_pexprOrIsNull, hsat]
        simp [isNotIn, hnotin]
      · rw [if_neg hnotin]
        exact ⟨_, rfl, hdisj (by simpa [isNotIn] using hnotin)⟩

/-- A range that starts at the NULL datum has no values, and in a NOT IN list no range has. -/
def NullEndsHarmless (fArrayConstraints : Bool) (this : CConstraintInterval (Datum D)) : Prop :=
  ∀ r ∈ this.pdrgprng, r.pdatumLeft = some ⊥ → ∀ s ∈ this.pdrgprng,
    s = r ∨ this.isNotIn fArrayConstraints = true → ∀ v : D, (v : Datum D) ∉ s.members

/-- A value is in one range of an ordered array only. -/
theorem Ordered.eq_of_mem (h : Ordered rs) {r s : CRange (Datum D)} (hr : r ∈ rs) (hs : s ∈ rs)
    {v : Datum D} (hvr : v ∈ r.members) (hvs : v ∈ s.members) :
    r = s := by
  have hdisjoint {r s : CRange (Datum D)} (hle : r.hi ≤ s.lo) (hvr : v ∈ r.members)
      (hvs : v ∈ s.members) : False := absurd (hvr.2.trans_le hle) (not_lt.2 hvs.1)
  induction rs with
  | nil => cases hr
  | cons t rs ih =>
    obtain ⟨-, hsep, hrest⟩ := ordered_cons.1 h
    rcases List.mem_cons.1 hr with rfl | hr' <;> rcases List.mem_cons.1 hs with rfl | hs'
    · rfl
    · exact (hdisjoint (hsep s hs') hvr hvs).elim
    · exact (hdisjoint (hsep r hr') hvs hvr).elim
    · exact ih hrest hr' hs'

/-- **The expression of an interval.** For every ordered interval the expression is built, and it
    is true exactly on the members of the interval, for every value and NULL, exactly when no
    range with values starts at the NULL datum. -/
theorem pexprScalar_true_iff (fArrayConstraints : Bool) (pci : CConstraintInterval (Datum D))
    (hwf : pci.WellFormed) (I : Interpretation D) :
    ∃ e, pci.pexprScalar fArrayConstraints = .ok e ∧
      ((∀ row : Row D, e.eval I row = some true ↔ pci.admits (row pci.pcr)) ↔
        pci.NullEndsHarmless fArrayConstraints) := by
  obtain ⟨e, he, hsat⟩ := satisfied_pexprScalar hwf fArrayConstraints
  refine ⟨e, he, ?_⟩
  constructor
  · intro htrue r hr hleft s hs hcase v hv
    have hadmits : pci.admits (v : Datum D) := (admits_coe pci v).2 ⟨s, hs, hv⟩
    rcases (hsat I fun _ => v).1 ((htrue fun _ => v).2 hadmits) with ⟨hnot, -, t, ht, htl, hvt⟩ | h
    · rcases hcase with rfl | hcase
      · exact htl (Ordered.eq_of_mem hwf ht hs hvt hv ▸ hleft)
      · exact hnot hcase r hr hleft
    · exact WithBot.coe_ne_bot h.1
  · intro hharmless row
    refine (hsat I row).trans ?_
    rw [admits_iff]
    refine or_congr_left ?_
    constructor
    · rintro ⟨-, hv, t, ht, -, hin⟩
      exact ⟨hv, t, ht, hin⟩
    · rintro ⟨hv, t, ht, hin⟩
      obtain ⟨v, hcoe⟩ := WithBot.ne_bot_iff_exists.1 hv
      rw [← hcoe] at hin
      refine ⟨fun hnotin r hr hleft => hharmless r hr hleft t ht (.inr hnotin) v hin, hv, t, ht,
        fun hleft => hharmless t ht hleft t ht (.inl rfl) v hin, hcoe ▸ hin⟩

section Examples

/-- A column of a type with ranges. -/
def someColumn : CColRef := ⟨0, true, true, true⟩

/-- `c >= NULL AND c <= 5`, read as an interval. -/
def fromNull : CConstraintInterval (Datum ℤ) :=
  ⟨someColumn, [⟨some ⊥, .included, some (5 : ℤ), .included⟩], false⟩

/-- Everything but 1 and 2, and NULL. -/
def allButTwo : CConstraintInterval (Datum ℤ) :=
  ⟨someColumn, [⟨none, .excluded, some (1 : ℤ), .excluded⟩,
    ⟨some (1 : ℤ), .excluded, some (2 : ℤ), .excluded⟩,
    ⟨some (2 : ℤ), .excluded, none, .excluded⟩], true⟩

/-- No opaque operators. -/
def noOpaque : Interpretation ℤ := ⟨fun _ _ => ⊥, fun _ _ => none, fun _ _ => none⟩

/-- 3 is in the interval from NULL to 5, and its expression is unknown there. -/
theorem pexprScalar_fromNull :
    fromNull.WellFormed ∧ fromNull.admits (3 : ℤ) ∧
      (fromNull.pexprScalar false).map (ScalarExpr.eval noOpaque fun _ => (3 : ℤ)) = .ok none := by
  refine ⟨?_, ?_, by decide⟩
  · simp [CConstraintInterval.WellFormed, ordered_cons, CRange.wellFormed_iff, fromNull]
    decide
  · rw [admits_coe]
    refine ⟨_, List.mem_singleton.2 rfl, (CRange.mem_members _ _).2 ⟨?_, ?_⟩⟩
    · simp
      decide
    · simp
      decide

/-- The NOT IN list of the second interval is true exactly on its members. -/
theorem pexprScalar_true_iff_allButTwo : ∃ e, allButTwo.pexprScalar true = .ok e ∧
    ∀ row : Row ℤ, e.eval noOpaque row = some true ↔ allButTwo.admits (row someColumn) := by
  have hwf : allButTwo.WellFormed := by
    simp [CConstraintInterval.WellFormed, ordered_cons, CRange.wellFormed_iff, allButTwo,
      CRange.hi, CRange.lo]
  obtain ⟨e, he, hiff⟩ := pexprScalar_true_iff true allButTwo hwf noOpaque
  refine ⟨e, he, hiff.2 fun r hr hleft => ?_⟩
  simp only [allButTwo, List.mem_cons, List.not_mem_nil, or_false] at hr
  rcases hr with rfl | rfl | rfl <;> simp at hleft

end Examples

end CConstraintInterval

end BossOptimizer

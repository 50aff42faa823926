import BossOptimizer.Base.ConstraintMeaning

/-!
# The scalar expression of a constraint

`PexprScalar` writes a constraint out as a predicate, and the de-duplication of children and the
conversion to one interval read that predicate back with `PciIntervalFromScalarExpr`. For a
regular constraint on one column the round trip is exact.
-/

namespace BossOptimizer

open CConstraintInterval (admits admits_bot admits_coe Ordered converts reading)

variable {D : Type} [LinearOrder D]

/-! ## Reading an expression back -/

/-- The expression converts to an interval on the column, whose reading is the given set. -/
def Describes (fArrayConstraints : Bool) (colref : CColRef) (pexpr : ScalarExpr D)
    (S : Datum D → Prop) : Prop :=
  converts fArrayConstraints colref pexpr = true ∧
    ∀ v, reading fArrayConstraints colref false pexpr v ↔ S v

variable {fArrayConstraints : Bool} {colref : CColRef}

theorem Describes.congr {pexpr : ScalarExpr D} {S T : Datum D → Prop}
    (h : Describes fArrayConstraints colref pexpr S) (hST : ∀ v, S v ↔ T v) :
    Describes fArrayConstraints colref pexpr T :=
  ⟨h.1, fun v => (h.2 v).trans (hST v)⟩

theorem describes_const (hc : colref.fConstrainable = true) (b : Bool) :
    Describes (D := D) fArrayConstraints colref (.const (some b)) fun _ => b = true := by
  refine ⟨by simp [converts, hc], fun v => by simp [reading]⟩

theorem describes_isNull :
    Describes (D := D) fArrayConstraints colref (pexprIsNull colref) fun v => v = ⊥ :=
  ⟨rfl, fun v => by rw [pexprIsNull, reading]⟩

theorem describes_isNotNull :
    Describes (D := D) fArrayConstraints colref (pexprNegate (pexprIsNull colref))
      fun v => v ≠ ⊥ :=
  ⟨rfl, fun v => by simp [pexprNegate, pexprIsNull, reading, CConstraintInterval.readingHead]⟩

theorem describes_cmp {cmpType : ECmpType} (h : cmpType ≠ .other) (datum : Datum D) :
    Describes fArrayConstraints colref (.cmp cmpType (.ident colref) (.const datum))
      fun v => v ≠ ⊥ ∧ CConstraintInterval.cmpHolds cmpType v datum := by
  refine ⟨by simp [converts, h, ScalarOperand.identOrCast, ScalarOperand.constOrCast],
    fun v => ?_⟩
  by_cases hv : v = ⊥ <;> simp [reading, ScalarOperand.constOrCast, hv]

omit [LinearOrder D] in
theorem fScalarConstBool_iff {b : Bool} {e : ScalarExpr D} :
    fScalarConstBool b e = true ↔ e = .const (some b) := by
  cases e with
  | const value => rcases value with _ | v <;> simp [fScalarConstBool]
  | _ => simp [fScalarConstBool]

section ConjDisj

open CConstraint (joined)

omit [LinearOrder D] in
/-- Skipping the constants that decide nothing keeps a connective. -/
theorem joined_filter_const (fConj : Bool) {P : ScalarExpr D → Prop}
    (hP : ∀ b, P (.const (some b)) ↔ b = true) (es : List (ScalarExpr D)) :
    joined fConj (es.filter (!fScalarConstBool fConj ·)) P ↔ joined fConj es P := by
  have hskip : ∀ e ∈ es, e ∉ es.filter (!fScalarConstBool fConj ·) →
      e = .const (some fConj) := by
    intro e he hne
    rw [← fScalarConstBool_iff]
    by_contra hne'
    exact hne (List.mem_filter.2 ⟨he, by simpa using hne'⟩)
  cases fConj
  · refine ⟨fun ⟨e, he, hr⟩ => ⟨e, List.mem_of_mem_filter he, hr⟩, fun ⟨e, he, hr⟩ => ?_⟩
    by_cases hf : e ∈ es.filter (!fScalarConstBool false ·)
    · exact ⟨e, hf, hr⟩
    · rw [hskip e he hf, hP] at hr
      cases hr
  · refine ⟨fun hall e he => ?_, fun hall e he => hall e (List.mem_of_mem_filter he)⟩
    by_cases hf : e ∈ es.filter (!fScalarConstBool true ·)
    · exact hall e hf
    · rw [hskip e he hf, hP]

omit [LinearOrder D] in
/-- `PexprConjDisj`: a deciding constant, nothing left, one operand, or a connective of what is
    left. -/
theorem pexprConjDisj_cases (fConj : Bool) (es : List (ScalarExpr D)) :
    (.const (some !fConj) ∈ es ∧ pexprConjDisj fConj es = .const (some !fConj)) ∨
    (es.filter (!fScalarConstBool fConj ·) = [] ∧ pexprConjDisj fConj es = .const (some fConj)) ∨
    (∃ e, es.filter (!fScalarConstBool fConj ·) = [e] ∧ pexprConjDisj fConj es = e) ∨
    ∃ final, es.filter (!fScalarConstBool fConj ·) = final ∧ final ≠ [] ∧
      pexprConjDisj fConj es = .boolOp (if fConj then .and else .or) final := by
  unfold pexprConjDisj
  split
  · next hred =>
    obtain ⟨e, he, hconst⟩ := List.any_eq_true.1 hred
    rw [fScalarConstBool_iff] at hconst
    exact .inl ⟨hconst ▸ he, rfl⟩
  · split
    · next hnil => exact .inr (.inl ⟨hnil, rfl⟩)
    · next e hone => exact .inr (.inr (.inl ⟨e, hone, rfl⟩))
    · next final hnil hone => exact .inr (.inr (.inr ⟨_, rfl, hnil, rfl⟩))

omit [LinearOrder D] in
theorem converts_pexprConjDisj (hc : colref.fConstrainable = true) (fConj : Bool)
    {es : List (ScalarExpr D)} (h : ∀ e ∈ es, converts fArrayConstraints colref e = true) :
    converts fArrayConstraints colref (pexprConjDisj fConj es) = true := by
  rcases pexprConjDisj_cases fConj es with ⟨-, heq⟩ | ⟨-, heq⟩ | ⟨e, hone, heq⟩ |
    ⟨final, rfl, hne, heq⟩ <;> rw [heq]
  · simp [converts, hc]
  · simp [converts, hc]
  · exact h e (List.mem_of_mem_filter (hone ▸ List.mem_singleton_self e))
  · have hmem : ∀ e ∈ es.filter (!fScalarConstBool fConj ·),
        converts fArrayConstraints colref e = true := fun e he => h e (List.mem_of_mem_filter he)
    obtain ⟨e, he⟩ := List.exists_mem_of_ne_nil _ hne
    cases fConj
    · simp only [Bool.false_eq_true, if_false, converts, CConstraintInterval.convertsAll_iff]
      exact hmem
    · simp only [if_true, converts, CConstraintInterval.convertsAny_iff]
      exact ⟨e, he, hmem e he⟩

/-- In either null mode a connective reads as the connective of its operands. -/
theorem reading_pexprConjDisj (fConj m : Bool) {es : List (ScalarExpr D)}
    (h : ∀ e ∈ es, converts fArrayConstraints colref e = true) (v : Datum D) :
    reading fArrayConstraints colref m (pexprConjDisj fConj es) v ↔
      joined fConj es (reading fArrayConstraints colref m · v) := by
  have hconst : ∀ b, reading (D := D) fArrayConstraints colref m (.const (some b)) v ↔
      b = true := fun b => by simp [reading]
  rcases pexprConjDisj_cases fConj es with ⟨hin, heq⟩ | ⟨hnil, heq⟩ | ⟨e, hone, heq⟩ |
    ⟨final, rfl, -, heq⟩ <;> rw [heq]
  · rw [hconst]
    cases fConj
    · exact iff_of_true rfl ⟨_, hin, (hconst true).2 rfl⟩
    · exact iff_of_false (by simp) fun hall => by simpa [hconst] using hall _ hin
  · rw [← joined_filter_const fConj hconst, hnil, hconst]
    cases fConj <;> simp [joined]
  · rw [← joined_filter_const fConj hconst, hone]
    cases fConj <;> simp [joined]
  · rw [← joined_filter_const fConj hconst]
    cases fConj
    · simp only [Bool.false_eq_true, if_false, reading, CConstraintInterval.readingAny_iff, joined]
    · simp only [if_true, reading, CConstraintInterval.readingAll_iff, joined]
      exact forall₂_congr fun e he => by simp [h e (List.mem_of_mem_filter he)]

/-- Skipping constants and reducing to one keeps the meaning of the connective. -/
theorem describes_pexprConjDisj (hc : colref.fConstrainable = true) (fConj : Bool)
    {pdrgpexpr : List (ScalarExpr D)}
    (h : ∀ e ∈ pdrgpexpr, converts fArrayConstraints colref e = true) :
    Describes fArrayConstraints colref (pexprConjDisj fConj pdrgpexpr) fun v =>
      joined fConj pdrgpexpr fun e => reading fArrayConstraints colref false e v :=
  ⟨converts_pexprConjDisj hc fConj h, reading_pexprConjDisj fConj false h⟩

end ConjDisj

/-! ## Ranges and intervals -/

namespace CRange

theorem pexprScalar_unbounded {r : CRange (Datum D)} (hl : r.pdatumLeft = none)
    (hr : r.pdatumRight = none) : r.pexprScalar colref = .const (some true) := by
  obtain ⟨_, eL, _, eR⟩ := r
  cases hl
  cases hr
  rfl

/-- One end of a range as a comparison. -/
theorem pexprScalarCompEnd_describes {datum : Datum D} {eri : ERangeInclusion}
    {ecmptIncl ecmptExcl : ECmpType} (hI : ecmptIncl ≠ .other) (hE : ecmptExcl ≠ .other)
    {e : ScalarExpr D}
    (he : e ∈ (pexprScalarCompEnd (some datum) eri ecmptIncl ecmptExcl colref).toList) :
    Describes fArrayConstraints colref e fun v => v ≠ ⊥ ∧
      CConstraintInterval.cmpHolds (if eri = .included then ecmptIncl else ecmptExcl) v datum := by
  simp only [pexprScalarCompEnd, Option.map_some, Option.toList_some, List.mem_singleton] at he
  subst he
  refine describes_cmp ?_ datum
  split
  · exact hI
  · exact hE

theorem pexprScalar_ne_true {r : CRange (Datum D)}
    (hends : r.pdatumLeft = none → r.pdatumRight ≠ none) :
    r.pexprScalar colref ≠ .const (some true) := by
  obtain ⟨left, eL, right, eR⟩ := r
  unfold pexprScalar
  cases heq : (⟨left, eL, right, eR⟩ : CRange (Datum D)).pexprEquality colref with
  | some e =>
    rcases left with _ | a <;> rcases right with _ | b <;> simp [pexprEquality] at heq
    simp [← heq.2]
  | none =>
    rcases left with _ | a <;> rcases right with _ | b <;>
      simp [pexprScalarCompEnd, pexprConjDisj, fScalarConstBool] at hends ⊢

/-- The expression of a range with an end is the range, without NULL. -/
theorem pexprScalar_describes (hc : colref.fConstrainable = true) {r : CRange (Datum D)}
    (hends : r.pdatumLeft = none → r.pdatumRight ≠ none) :
    Describes fArrayConstraints colref (r.pexprScalar colref)
      fun v => v ≠ ⊥ ∧ v ∈ r.members := by
  obtain ⟨left, eL, right, eR⟩ := r
  by_cases heq : (⟨left, eL, right, eR⟩ : CRange (Datum D)).pexprEquality colref = none
  · rw [pexprScalar, heq]
    have hconv : ∀ e ∈ (pexprScalarCompEnd left eL .geq .g colref).toList ++
        (pexprScalarCompEnd right eR .leq .l colref).toList,
        converts fArrayConstraints colref e = true := by
      intro e he
      rcases List.mem_append.1 he with he | he
      · cases left with
        | none => cases he
        | some a => exact (pexprScalarCompEnd_describes (by simp) (by simp) he).1
      · cases right with
        | none => cases he
        | some b => exact (pexprScalarCompEnd_describes (by simp) (by simp) he).1
    refine (describes_pexprConjDisj hc true hconv).congr fun v => ?_
    rcases left with _ | a <;> rcases right with _ | b <;> cases eL <;> cases eR <;>
      simp [pexprScalarCompEnd, CConstraint.joined, mem_members, reading,
        ScalarOperand.constOrCast, CConstraintInterval.cmpHolds] at hends ⊢
    all_goals by_cases hv : v = ⊥ <;> simp [hv] <;> grind
  · obtain ⟨e, he⟩ := Option.ne_none_iff_exists'.1 heq
    rw [pexprScalar, he]
    rcases left with _ | a <;> rcases right with _ | b <;>
      simp [pexprEquality] at he
    obtain ⟨⟨rfl, hL, hR⟩, rfl⟩ := he
    have hL : eL = .included := by cases eL <;> simp_all
    have hR : eR = .included := by cases eR <;> simp_all
    subst hL hR
    refine (describes_cmp (by simp) a).congr fun v => ?_
    simp only [mem_members, CConstraintInterval.cmpHolds]
    grind

end CRange

namespace CConstraintInterval

variable {rs : List (CRange (Datum D))}

/-- In an ordered array a range without ends is alone. -/
theorem Ordered.sole (h : Ordered rs) {r : CRange (Datum D)} (hr : r ∈ rs)
    (hleft : r.pdatumLeft = none) (hright : r.pdatumRight = none) : rs = [r] := by
  have hlo : r.lo = ⊥ := (CRange.lo_eq_bot_iff r).2 hleft
  have hhi : r.hi = ⊤ := (CRange.hi_eq_top_iff r).2 hright
  obtain ⟨pre, post, rfl⟩ := List.append_of_mem hr
  obtain ⟨hpre, hpost, hsep⟩ := ordered_append.1 h
  have hnopre : pre = [] := by
    refine List.eq_nil_iff_forall_not_mem.2 fun s hs => ?_
    have hle : s.hi ≤ ⊥ := hlo ▸ hsep s hs r (by simp)
    exact absurd (hpre.1 s hs) (not_lt.2 (hle.trans bot_le))
  have hnopost : post = [] := by
    refine List.eq_nil_iff_forall_not_mem.2 fun s hs => ?_
    have hle : ⊤ ≤ s.lo := hhi ▸ (ordered_cons.1 hpost).2.1 s hs
    exact absurd (hpost.1 s (by simp [hs])) (not_lt.2 (le_top.trans hle))
  rw [hnopre, hnopost]
  rfl

omit [LinearOrder D] in
theorem fScalarConstArray_arrayDatums {array : List (ScalarOperand D)}
    (h : arrayDatums rs = .ok array) :
    ∃ datums, fScalarConstArray array = some datums ∧ rs.map CRange.pdatumRight = datums.map some := by
  induction rs generalizing array with
  | nil => cases h; exact ⟨[], rfl, rfl⟩
  | cons r rs ih =>
    rw [arrayDatums] at h
    cases hr : r.pdatumRight with
    | none => rw [hr] at h; cases h
    | some datum =>
      rw [hr] at h
      obtain ⟨array', harray, rfl⟩ := map_eq_ok.1 h
      obtain ⟨datums, hds, hmap⟩ := ih harray
      refine ⟨datum :: datums, ?_, by simp [hr, hmap]⟩
      simp only [fScalarConstArray, List.mapM_cons] at hds ⊢
      simp [ScalarOperand.const?, hds]

omit [LinearOrder D] in
/-- An array of constants compared with the column. -/
theorem describes_arrayCmp [LinearOrder D] {arr : EArrCmpType} {cmpType : ECmpType}
    (hcmp : cmpType = .eq ∨ cmpType = .neq) {array : List (ScalarOperand D)}
    {datums : List (Datum D)} (harray : fScalarConstArray array = some datums)
    (hne : datums ≠ []) :
    Describes true colref (.arrayCmp arr cmpType (.ident colref) false array)
      fun v => v ≠ ⊥ ∧ if cmpType = .eq then v ∈ datums else v ∉ datums := by
  have hcompare : compareIdentToConstArray (.ident colref) false array = some datums := harray
  refine ⟨?_, fun v => ?_⟩
  · rcases hcmp with rfl | rfl <;> simp [converts, hcompare, hne]
  · by_cases hv : v = ⊥ <;> simp [reading, hcompare, hv]

/-- The points of an IN. -/
theorem fConvertsToIn_members {datums : List (Datum D)}
    (hpoint : ∀ r ∈ rs, r.fPoint = true) (hds : rs.map CRange.pdatumRight = datums.map some)
    (v : Datum D) : (∃ r ∈ rs, v ∈ r.members) ↔ v ∈ datums := by
  induction rs generalizing datums with
  | nil =>
    obtain rfl : datums = [] := by simpa using hds.symm
    simp
  | cons r rs ih =>
    obtain _ | ⟨d, datums⟩ := datums
    · simp at hds
    simp only [List.map_cons, List.cons.injEq] at hds
    obtain ⟨hd, hds⟩ := hds
    have hr := hpoint r (by simp)
    simp only [CRange.fPoint, Bool.and_eq_true, decide_eq_true_eq] at hr
    obtain ⟨⟨hL, hR⟩, heq⟩ := hr
    have hmem : v ∈ r.members ↔ v = d := by
      rw [CRange.mem_members, ← heq, hd, hL, hR]
      simp only [Option.some.injEq, forall_eq']
      grind
    simp only [List.mem_cons, exists_eq_or_imp, hmem, ih (fun r hr => hpoint r (by simp [hr])) hds]

/-- The gaps of a NOT IN, from a left end on. -/
theorem innerEndsMeet_members {r : CRange (Datum D)} {datums : List (Datum D)}
    (hord : Ordered (r :: rs)) (hmeet : innerEndsMeet (r :: rs) = true)
    (hds : (r :: rs).dropLast.map CRange.pdatumRight = datums.map some) :
    (∀ d ∈ datums, r.lo ≤ Cut.before d) ∧
      ∀ v, (∃ s ∈ r :: rs, v ∈ s.members) ↔ r.lo ≤ Cut.before v ∧ v ∉ datums := by
  induction rs generalizing r datums with
  | nil =>
    obtain rfl : datums = [] := by simpa using hds.symm
    have hhi : r.hi = ⊤ := (CRange.hi_eq_top_iff r).2 (by simpa [innerEndsMeet] using hmeet)
    refine ⟨by simp, fun v => ?_⟩
    simp [CRange.members, hhi, Cut.side_lt_top]
  | cons s rs ih =>
    obtain _ | ⟨d, datums⟩ := datums
    · simp at hds
    simp only [List.dropLast_cons_cons, List.map_cons, List.cons.injEq] at hds
    obtain ⟨hd, hds⟩ := hds
    simp only [innerEndsMeet, Bool.and_eq_true, decide_eq_true_eq,
      CRange.fUpperBoundEqualsLowerBound] at hmeet
    obtain ⟨⟨⟨hR, hL⟩, heq⟩, hrest⟩ := hmeet
    obtain ⟨hwf, -, hord'⟩ := ordered_cons.1 hord
    obtain ⟨hge, hmem⟩ := ih hord' hrest hds
    have hhi : r.hi = Cut.side d false := by simp [CRange.hi, hd, hR]
    have hlo : s.lo = Cut.side d true := by simp [CRange.lo, ← heq, hd, hL]
    have hlt : r.lo < Cut.side d false := hhi ▸ hwf
    rw [hlo] at hge hmem
    refine ⟨fun d' hd' => ?_, fun v => ?_⟩
    · rcases List.mem_cons.1 hd' with rfl | hd'
      · exact hlt.le
      · refine hlt.le.trans (le_trans ?_ (hge d' hd'))
        simp
    · rw [List.exists_mem_cons_iff, hmem v]
      have hhead : v ∈ r.members ↔ r.lo ≤ Cut.before v ∧ v < d := by
        simp [CRange.members, hhi, Cut.before]
      rw [hhead, List.mem_cons, not_or]
      constructor
      · rintro (⟨hlo, hv⟩ | ⟨hlo, hv⟩)
        · refine ⟨hlo, hv.ne, fun hin => ?_⟩
          have := hge v hin
          simp at this
          exact absurd this (not_lt.2 hv.le)
        · have hdv : d < v := by simpa using hlo
          exact ⟨hlt.le.trans (by simp [hdv]), hdv.ne', hv⟩
      · rintro ⟨hlo, hne, hv⟩
        rcases lt_or_gt_of_ne hne with hvd | hvd
        · exact .inl ⟨hlo, hvd⟩
        · exact .inr ⟨by simpa using hvd, hv⟩

/-- The datums of an interval, without NULL. -/
def AdmitsDatum (this : CConstraintInterval (Datum D)) (v : Datum D) : Prop :=
  v ≠ ⊥ ∧ ∃ r ∈ this.pdrgprng, v ∈ r.members

theorem admits_iff (this : CConstraintInterval (Datum D)) (v : Datum D) :
    this.admits v ↔ this.AdmitsDatum v ∨ v = ⊥ ∧ this.fIncludesNull = true := by
  cases v using WithBot.recBotCoe with
  | bot => simp [admits_bot, AdmitsDatum]
  | coe v => simp [admits_coe, AdmitsDatum]

variable {pci : CConstraintInterval (Datum D)}

/-- OR IS NULL completes the datums of an interval. -/
theorem describes_orIsNull (hc : pci.pcr.fConstrainable = true) {e : ScalarExpr D}
    (h : Describes fArrayConstraints pci.pcr e pci.AdmitsDatum) :
    Describes fArrayConstraints pci.pcr (pci.pexprOrIsNull e) pci.admits := by
  have hnull : Describes (D := D) fArrayConstraints pci.pcr _ _ := describes_isNull
  unfold pexprOrIsNull
  split
  · next hn =>
    have hboth : ∀ e' ∈ [e, pexprIsNull pci.pcr],
        converts fArrayConstraints pci.pcr e' = true := by simp [h.1, hnull.1]
    refine (describes_pexprConjDisj hc false hboth).congr fun v => ?_
    simp [CConstraint.joined, h.2, hnull.2, admits_iff, hn]
  · next hn => exact h.congr fun v => by simp [admits_iff, hn]

theorem pexprConstructArrayScalar_describes (hwf : pci.WellFormed)
    (hc : pci.pcr.fConstrainable = true) {e : ScalarExpr D}
    (h : pci.pexprConstructArrayScalar = .ok (some e)) :
    Describes true pci.pcr e pci.admits := by
  unfold pexprConstructArrayScalar at h
  split at h
  · next hin =>
    simp only [bind_eq_ok, pure_eq_ok, Option.some.injEq] at h
    obtain ⟨array, harray, rfl⟩ := h
    obtain ⟨datums, hds, hmap⟩ := fScalarConstArray_arrayDatums harray
    simp only [fConvertsToIn, Bool.and_eq_true, decide_eq_true_eq, List.all_eq_true] at hin
    have hne : datums ≠ [] := by
      rintro rfl
      simp only [List.map_nil, List.map_eq_nil_iff] at hmap
      simp [hmap] at hin
    refine describes_orIsNull hc ((describes_arrayCmp (.inl rfl) hds hne).congr fun v => ?_)
    rw [AdmitsDatum, fConvertsToIn_members hin.2 hmap, if_pos rfl]
  · split at h
    · next hnotin =>
      simp only [bind_eq_ok, pure_eq_ok, Option.some.injEq] at h
      obtain ⟨array, harray, rfl⟩ := h
      obtain ⟨datums, hds, hmap⟩ := fScalarConstArray_arrayDatums harray
      simp only [fConvertsToNotIn, Bool.and_eq_true, decide_eq_true_eq, Option.isNone_iff_eq_none]
        at hnotin
      obtain ⟨⟨hlen, hfirst⟩, hmeet⟩ := hnotin
      obtain ⟨col, rs, n⟩ := pci
      rcases rs with _ | ⟨r, _ | ⟨s, rs⟩⟩
      · simp at hlen
      · simp at hlen
      have hne : datums ≠ [] := by
        rintro rfl
        simp at hmap
      refine describes_orIsNull hc ((describes_arrayCmp (.inr rfl) hds hne).congr fun v => ?_)
      have hlo : r.lo = ⊥ := (CRange.lo_eq_bot_iff r).2 (by simpa using hfirst)
      have hmem := (innerEndsMeet_members hwf hmeet hmap).2 v
      rw [hlo] at hmem
      simp only [AdmitsDatum, hmem]
      simp
    · cases h

/-- The expression of an interval of all values. -/
theorem pexprConstructDisjunctionScalar_unbounded
    {r : CRange (Datum D)} (hsole : pci.pdrgprng = [r]) (hl : r.pdatumLeft = none)
    (hrr : r.pdatumRight = none) : pci.pexprConstructDisjunctionScalar =
      if pci.fIncludesNull then .const (some true) else pexprNegate (pexprIsNull pci.pcr) := by
  simp [pexprConstructDisjunctionScalar, hsole, CRange.pexprScalar_unbounded hl hrr,
    fScalarConstBool]

/-- The expression of an interval whose ranges have ends. -/
theorem pexprConstructDisjunctionScalar_bounded
    (hends : ∀ r ∈ pci.pdrgprng, r.pdatumLeft = none → r.pdatumRight ≠ none) :
    pci.pexprConstructDisjunctionScalar =
      pexprConjDisj false (pci.pdrgprng.map (CRange.pexprScalar · pci.pcr) ++
        if pci.fIncludesNull then [pexprIsNull pci.pcr] else []) := by
  refine if_neg fun ⟨hlen, htrue⟩ => ?_
  rw [List.length_map, List.length_eq_one_iff] at hlen
  obtain ⟨r, hr⟩ := hlen
  have hne : r.pexprScalar pci.pcr ≠ .const (some true) :=
    CRange.pexprScalar_ne_true (hends r (by simp [hr]))
  refine hne ?_
  simpa [hr, fScalarConstBool_iff] using htrue

theorem pexprConstructDisjunctionScalar_describes (hwf : pci.WellFormed)
    (hc : pci.pcr.fConstrainable = true) :
    Describes fArrayConstraints pci.pcr pci.pexprConstructDisjunctionScalar pci.admits := by
  have hnull : Describes (D := D) fArrayConstraints pci.pcr _ _ := describes_isNull
  by_cases hall : ∃ r ∈ pci.pdrgprng, r.pdatumLeft = none ∧ r.pdatumRight = none
  · -- all values but NULL
    obtain ⟨r, hr, hl, hrr⟩ := hall
    have hsole := Ordered.sole hwf hr hl hrr
    have hdatum : ∀ v, pci.AdmitsDatum v ↔ v ≠ ⊥ := by
      intro v
      simp [AdmitsDatum, hsole, CRange.mem_members, hl, hrr]
    rw [pexprConstructDisjunctionScalar_unbounded hsole hl hrr]
    split
    · next hn =>
      refine (describes_const hc true).congr fun v => ?_
      simp only [admits_iff, hdatum, hn]
      tauto
    · next hn =>
      refine describes_isNotNull.congr fun v => ?_
      simp only [admits_iff, hdatum, hn]
      simp
  · have hends : ∀ r ∈ pci.pdrgprng, r.pdatumLeft = none → r.pdatumRight ≠ none :=
      fun r hr hl hrr => hall ⟨r, hr, hl, hrr⟩
    have hrange : ∀ r ∈ pci.pdrgprng, Describes fArrayConstraints pci.pcr (r.pexprScalar pci.pcr)
        fun v => v ≠ ⊥ ∧ v ∈ r.members := fun r hr => CRange.pexprScalar_describes hc (hends r hr)
    rw [pexprConstructDisjunctionScalar_bounded hends]
    refine (describes_pexprConjDisj hc false ?_).congr fun v => ?_
    · intro e he
      rcases List.mem_append.1 he with he | he
      · obtain ⟨r, hr, rfl⟩ := List.mem_map.1 he
        exact (hrange r hr).1
      · split at he
        · rw [List.mem_singleton.1 he]
          exact hnull.1
        · cases he
    · have hreads : (∃ e ∈ pci.pdrgprng.map (CRange.pexprScalar · pci.pcr),
          reading fArrayConstraints pci.pcr false e v) ↔ pci.AdmitsDatum v := by
        simp only [List.mem_map, exists_exists_and_eq_and, AdmitsDatum]
        constructor
        · rintro ⟨r, hr, hv⟩
          obtain ⟨hne, hmem⟩ := ((hrange r hr).2 v).1 hv
          exact ⟨hne, r, hr, hmem⟩
        · rintro ⟨hne, r, hr, hmem⟩
          exact ⟨r, hr, ((hrange r hr).2 v).2 ⟨hne, hmem⟩⟩
      rw [admits_iff, ← hreads]
      simp only [CConstraint.joined, List.mem_append, or_and_right, exists_or, Bool.false_eq_true,
        if_false]
      refine or_congr_right ?_
      split
      · next hn => simp [hn, hnull.2]
      · next hn => simp [hn]

/-- **The expression of an interval reads back as the interval.** -/
theorem pexprScalar_describes (hwf : pci.WellFormed)
    (hc : pci.pcr.fConstrainable = true) {e : ScalarExpr D}
    (h : pci.pexprScalar fArrayConstraints = .ok e) :
    Describes fArrayConstraints pci.pcr e pci.admits := by
  unfold pexprScalar at h
  split at h
  · next hcon =>
    cases h
    refine (describes_const hc false).congr fun v => ?_
    simpa using not_admits_of_fContradiction hcon v
  · split at h
    · next htrace =>
      simp only [bind_eq_ok] at h
      obtain ⟨o, ho, h⟩ := h
      subst htrace
      cases o with
      | none => cases h; exact pexprConstructDisjunctionScalar_describes hwf hc
      | some pexpr => cases h; exact pexprConstructArrayScalar_describes hwf hc ho
    · cases h
      exact pexprConstructDisjunctionScalar_describes hwf hc

end CConstraintInterval

/-! ## Constraints on one column -/

namespace CConstraint

/-- The values a constraint on one column accepts. -/
def satOn (c : CConstraint D) (v : Datum D) : Prop := c.sat fun _ => v

theorem sat_iff_satOn {c : CConstraint D} (hon : c.OnColumn colref) (row : Row D) :
    c.sat row ↔ c.satOn (row colref) :=
  sat_congr c fun x hx => by rw [hon x hx]

theorem satOn_conjunction (l : List (CConstraint D)) (v : Datum D) :
    (conjunction l).satOn v ↔ joined true l (satOn · v) := by
  simp [satOn, sat, joined]

theorem satOn_disjunction (l : List (CConstraint D)) (v : Datum D) :
    (disjunction l).satOn v ↔ joined false l (satOn · v) := by
  simp [satOn, sat, joined]

/-- The expression of a list of constraints that each read back exactly. -/
theorem describes_pexprScalars (hc : colref.fConstrainable = true) (fConj : Bool)
    {l : List (CConstraint D)}
    (ih : ∀ c ∈ l, ∀ e, c.pexprScalar fArrayConstraints = .ok e →
      Describes fArrayConstraints colref e c.satOn)
    {es : List (ScalarExpr D)} (h : pexprScalars fArrayConstraints l = .ok es) :
    Describes fArrayConstraints colref (pexprConjDisj fConj es)
      fun v => joined fConj l (satOn · v) := by
  have key : List.Forall₂ (fun c e => Describes fArrayConstraints colref e c.satOn) l es := by
    induction l generalizing es with
    | nil => cases h; exact .nil
    | cons c l ihl =>
      simp only [pexprScalars, bind_eq_ok, pure_eq_ok] at h
      obtain ⟨e, he, es', hes, rfl⟩ := h
      exact .cons (ih c (by simp) e he) (ihl (fun c hc => ih c (by simp [hc])) hes)
  refine (describes_pexprConjDisj hc fConj (fun e he => ?_)).congr fun v => ?_
  · obtain ⟨c, -, hd⟩ := exists_of_forall₂_right key he
    exact hd.1
  · exact (joined_of_forall₂ key fConj fun c e hd => (hd.2 v).symm).symm

/-- **The expression of a regular constraint on one column reads back as the constraint.** -/
theorem pexprScalar_describes {c : CConstraint D} (hreg : c.Regular) (hwf : c.WellFormed)
    (hon : c.OnColumn colref) {e : ScalarExpr D} (h : c.pexprScalar fArrayConstraints = .ok e) :
    Describes fArrayConstraints colref e c.satOn := by
  have hc : colref.fConstrainable = true := hwf.fConstrainable (hwf.mem_columns hon)
  induction hreg generalizing e with
  | interval pci =>
    obtain rfl : pci.pcr = colref := hon _ (by simp [columns])
    cases hwf with
    | interval hord hcol => exact CConstraintInterval.pexprScalar_describes hord hcol h
  | @conjunction l _ ih =>
    cases hwf with
    | conjunction hne hwf _ =>
      rw [pexprScalar] at h
      split at h
      · next hcon =>
        cases h
        refine (describes_const hc false).congr fun v => ?_
        simpa [satOn] using (sat_of_flags (.conjunction l) _).1 hcon
      · obtain ⟨es, hes, rfl⟩ := map_eq_ok.1 h
        refine (describes_pexprScalars hc true (fun c hcl e he => ?_) hes).congr fun v =>
          (satOn_conjunction l v).symm
        exact ih c hcl (hwf c hcl) (OnColumn.child hon hcl) he
  | @disjunction l _ ih =>
    cases hwf with
    | disjunction hne hwf _ =>
      rw [pexprScalar] at h
      split at h
      · next hcon =>
        cases h
        refine (describes_const hc false).congr fun v => ?_
        simpa [satOn] using (sat_of_flags (.disjunction l) _).1 hcon
      · obtain ⟨es, hes, rfl⟩ := map_eq_ok.1 h
        refine (describes_pexprScalars hc false (fun c hcl e he => ?_) hes).congr fun v =>
          (satOn_disjunction l v).symm
        exact ih c hcl (hwf c hcl) (OnColumn.child hon hcl) he
  | notInterval pci =>
    obtain rfl : pci.pcr = colref := hon _ (by simp [columns])
    cases hwf with
    | negation hwf =>
      cases hwf with
      | interval hord hcol =>
        simp only [pexprScalar, bind_eq_ok] at h
        obtain ⟨K, hK, h⟩ := h
        have hexact : CConstraintInterval.Exact pci.pcr pci.admits pci :=
          ⟨hord, rfl, fun v => Iff.rfl⟩
        obtain ⟨hKwf, hKcol, hKmem⟩ := hexact.compl hK
        have hd := CConstraintInterval.pexprScalar_describes hKwf (hKcol ▸ hcol) h
        rw [hKcol] at hd
        exact hd.congr hKmem
  | @notNot c _ ih =>
    cases hwf with
    | negation hwf =>
      cases hwf with
      | negation hwf =>
        rw [pexprScalar] at h
        exact (ih hwf hon h).congr fun v => by simp [satOn, sat]
  | wide hlen =>
    cases hwf with
    | negation hwf => simp [hwf.pcrsUsed_eq hon] at hlen

end CConstraint

end BossOptimizer

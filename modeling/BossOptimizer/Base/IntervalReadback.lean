import BossOptimizer.Base.ConstraintExpr

/-!
# Reading written intervals back

`PexprScalar` writes an interval out as a predicate, and `PciIntervalFromScalarExpr` reads such
predicates back. Reading returns, unless an array comparison holds nothing but NULL: then
`CDatumSortedSet` looks for a first datum that is not there. What is read does not depend on the
null mode, but for the NULL of a predicate that compares: below a NOT it is taken in.
-/

namespace BossOptimizer

variable {D : Type} [LinearOrder D] {fArrayConstraints : Bool} {colref : CColRef}

namespace CConstraintInterval

/-! ## When reading fails -/

mutual

/-- An array comparison with nothing but NULL occurs. -/
def readsNullList : ScalarExpr D → Bool
  | .arrayCmp _ _ left coerced array =>
    match compareIdentToConstArray left coerced array with
    | some datums => datums ≠ [] && datums.all (· = ⊥)
    | none => false
  | .boolOp _ children => readsNullListAny children
  | _ => false

def readsNullListAny : List (ScalarExpr D) → Bool
  | [] => false
  | e :: es => readsNullList e || readsNullListAny es

end

attribute [local simp] readsNullList readsNullListAny in
@[simp] theorem readsNullListAny_iff (es : List (ScalarExpr D)) :
    readsNullListAny es = true ↔ ∃ e ∈ es, readsNullList e = true := by
  induction es with
  | nil => simp [readsNullListAny]
  | cons e es ih => simp [readsNullListAny, ih]

/-- The predicate converts, and reading it fails exactly on an array of NULLs. -/
structure Readable (fArrayConstraints : Bool) (colref : CColRef) (e : ScalarExpr D) : Prop where
  converts : converts fArrayConstraints colref e = true
  failsWhen : ∀ m, FailsWhen .outOfBounds (readsNullList e)
    (pciIntervalFromScalarExpr fArrayConstraints colref e m)

variable {e : ScalarExpr D}

theorem Readable.eq_some (h : Readable fArrayConstraints colref e) {m : Bool}
    {r : Option (CConstraintInterval (Datum D))}
    (hr : pciIntervalFromScalarExpr fArrayConstraints colref e m = .ok r) : ∃ K, r = some K := by
  have hsome := isSome_pciIntervalFromScalarExpr e m r hr
  rwa [h.converts, Option.isSome_iff_exists] at hsome

theorem readable_const (hc : colref.fConstrainable = true) (b : Bool) :
    Readable (D := D) fArrayConstraints colref (.const (some b)) :=
  ⟨(describes_const hc b).1, fun _ => failsWhen_ok _⟩

theorem readable_isNull : Readable (D := D) fArrayConstraints colref (pexprIsNull colref) :=
  ⟨rfl, fun _ => failsWhen_ok _⟩

theorem readable_cmp {cmpType : ECmpType} (h : cmpType ≠ .other) (datum : Datum D) :
    Readable fArrayConstraints colref (.cmp cmpType (.ident colref) (.const datum)) :=
  ⟨(describes_cmp h datum).1, fun _ => failsWhen_ok _⟩

theorem datumSortedSet_failsWhen (datums : List (Datum D)) :
    FailsWhen .outOfBounds (datums.all (· = ⊥)) (datumSortedSet datums) := by
  have hlen := List.length_insertionSort (· ≤ ·) (datums.filter (· ≠ ⊥))
  have hnil : datums.all (· = ⊥) = true ↔ datums.filter (· ≠ ⊥) = [] := by
    simp [List.filter_eq_nil_iff]
  unfold datumSortedSet
  split
  · next hempty =>
    rw [hempty] at hlen
    rw [hnil.2 (List.length_eq_zero_iff.1 hlen.symm)]
    rfl
  · next prev rest hcons =>
    rw [hcons] at hlen
    have hne : ¬ datums.all (· = ⊥) = true := fun hall => by
      rw [hnil.1 hall] at hlen
      cases hlen
    rw [Bool.not_eq_true] at hne
    rw [hne]
    exact failsWhen_ok _

theorem readable_arrayCmp {arr : EArrCmpType} {cmpType : ECmpType}
    (hcmp : cmpType = .eq ∨ cmpType = .neq) {array : List (ScalarOperand D)}
    {datums : List (Datum D)} (harray : fScalarConstArray array = some datums)
    (hne : datums ≠ []) :
    Readable true colref (.arrayCmp arr cmpType (.ident colref) false array) := by
  have hcompare : compareIdentToConstArray (.ident colref) false array = some datums := harray
  refine ⟨(describes_arrayCmp hcmp harray hne).1, fun m => ?_⟩
  have htest : readsNullList (.arrayCmp arr cmpType (.ident colref) false array) =
      (datums.all (· = ⊥) || false) := by
    simp [readsNullList, hcompare, hne]
  rw [htest, pciIntervalFromScalarExpr, if_pos rfl, pcnstrIntervalFromScalarArrayCmp, hcompare]
  obtain ⟨d, ds, rfl⟩ := List.exists_cons_of_ne_nil hne
  refine (datumSortedSet_failsWhen _).bind fun set _ => ?_
  rcases hcmp with rfl | rfl <;> exact failsWhen_pure _

/-! ## Connectives -/

theorem unionRound_returns (l : List (CConstraintInterval (Datum D))) (hl : AllOn colref l) :
    ∃ r, unionRound l = .ok r := by
  induction l using unionRound.induct with
  | case1 => exact ⟨_, rfl⟩
  | case2 pci => exact ⟨_, rfl⟩
  | case3 pci1 pci2 rest ih =>
    obtain ⟨K, hK, -⟩ := pciUnion_returns (hl pci1 (by simp)).1 (hl pci2 (by simp)).1
    obtain ⟨⟨r, hlen⟩, hr⟩ := ih fun pci hpci => hl pci (by simp [hpci])
    exact ⟨_, by rw [unionRound, hK, hr]; rfl⟩

/-- The rounds end with one interval. -/
theorem unionRounds_returns (l : List (CConstraintInterval (Datum D))) (hl : AllOn colref l)
    (hne : l ≠ []) : ∃ K, unionRounds l = .ok K := by
  induction hn : l.length using Nat.strong_induction_on generalizing l with
  | _ n ih =>
    rcases l with _ | ⟨pci1, _ | ⟨pci2, rest⟩⟩
    · exact absurd rfl hne
    · exact ⟨pci1, by rw [unionRounds]⟩
    · obtain ⟨⟨constraints, hlen⟩, hround⟩ := unionRound_returns _ hl
      have hshort : constraints.length < n ∧ constraints ≠ [] := by
        simp only [List.length_cons] at hlen hn
        exact ⟨by omega, List.ne_nil_of_length_pos (by omega)⟩
      obtain ⟨K, hK⟩ := ih _ hshort.1 constraints (unionRound_spec _ hl hround).1 hshort.2 rfl
      exact ⟨K, by rw [unionRounds, hround, ← hK]; rfl⟩

variable {es : List (ScalarExpr D)}

/-- The AND loop fails when one of the children does. -/
theorem boolAnd_failsWhen (h : ∀ e ∈ es, Readable fArrayConstraints colref e) (m : Bool)
    {acc : Option (CConstraintInterval (Datum D))} (hacc : ∀ K ∈ acc, K.WellFormed) :
    FailsWhen .outOfBounds (readsNullListAny es)
      (pciIntervalFromScalarBoolAnd fArrayConstraints colref es m acc) := by
  induction es generalizing acc with
  | nil => exact failsWhen_ok _
  | cons e es ih =>
    have he := h e (by simp)
    rw [pciIntervalFromScalarBoolAnd, readsNullListAny]
    refine (he.failsWhen m).bind fun child hchild => ?_
    obtain ⟨K, rfl⟩ := he.eq_some hchild
    obtain ⟨hKwf, -⟩ := exact_reading e m K hchild
    have hround : ∃ acc', boolAndRound acc (some K) = .ok acc' ∧ ∀ K' ∈ acc', K'.WellFormed := by
      cases acc with
      | none => exact ⟨some K, rfl, by simpa using hKwf⟩
      | some pci =>
        obtain ⟨K', hK', hwf, -⟩ := pciIntersect_returns (hacc pci rfl) hKwf
        exact ⟨some K', by rw [boolAndRound, hK']; rfl, by simpa using hwf⟩
    obtain ⟨acc', heq, hwf⟩ := hround
    rw [heq, ok_bind]
    exact ih (fun e he => h e (by simp [he])) hwf

theorem boolOrChildren_failsWhen (h : ∀ e ∈ es, Readable fArrayConstraints colref e) (m : Bool) :
    FailsWhen .outOfBounds (readsNullListAny es)
      (boolOrChildren fArrayConstraints colref es m) := by
  induction es with
  | nil => exact failsWhen_ok _
  | cons e es ih =>
    have he := h e (by simp)
    rw [boolOrChildren, readsNullListAny]
    refine (he.failsWhen m).bind fun child hchild => ?_
    obtain ⟨K, rfl⟩ := he.eq_some hchild
    rw [← Bool.or_false (readsNullListAny es)]
    exact (ih fun e he => h e (by simp [he])).bind fun _ _ => failsWhen_pure _

theorem readable_boolOp {fConj : Bool} (hne : es ≠ [])
    (h : ∀ e ∈ es, Readable fArrayConstraints colref e) :
    Readable fArrayConstraints colref (.boolOp (if fConj then .and else .or) es) := by
  obtain ⟨e, he⟩ := List.exists_mem_of_ne_nil es hne
  cases fConj with
  | true =>
    refine ⟨?_, fun m => ?_⟩
    · simp only [if_true, converts, convertsAny_iff]
      exact ⟨e, he, (h e he).converts⟩
    · simp only [if_true, readsNullList, pciIntervalFromScalarExpr]
      rw [if_neg (by simpa using hne)]
      exact boolAnd_failsWhen h m (by simp)
  | false =>
    have hconv : ∀ e ∈ es, converts fArrayConstraints colref e =
        true := fun e he => (h e he).converts
    refine ⟨?_, fun m => ?_⟩
    · simp only [Bool.false_eq_true, if_false, converts,
        convertsAll_iff]
      exact hconv
    · simp only [Bool.false_eq_true, if_false, readsNullList, pciIntervalFromScalarExpr]
      rw [← Bool.or_false (readsNullListAny es)]
      refine (boolOrChildren_failsWhen h m).bind fun pcis hpcis => ?_
      have hsome := isSome_boolOrChildren (fun e _ => isSome_pciIntervalFromScalarExpr e m) hpcis
      rw [(convertsAll_iff _ _ es).2 hconv, Option.isSome_iff_exists] at hsome
      obtain ⟨l, rfl⟩ := hsome
      obtain ⟨hAll, hmem⟩ := boolOrChildren_exact (fun e _ pci => exact_reading e m pci) hpcis
      have hlne : l ≠ [] := by
        rintro rfl
        cases es with
        | nil => exact hne rfl
        | cons e es =>
          simp only [boolOrChildren, bind_eq_ok] at hpcis
          obtain ⟨child, hchild, hrest⟩ := hpcis
          obtain ⟨K, rfl⟩ := (h e (by simp)).eq_some hchild
          simp at hrest
      obtain ⟨K, hK⟩ := unionRounds_returns l hAll hlne
      dsimp only
      rw [hK]
      exact ⟨_, rfl⟩

theorem readable_pexprConjDisj (hc : colref.fConstrainable = true) (fConj : Bool)
    (h : ∀ e ∈ es, Readable fArrayConstraints colref e) :
    Readable fArrayConstraints colref (pexprConjDisj fConj es) := by
  rcases pexprConjDisj_cases fConj es with ⟨-, heq⟩ | ⟨-, heq⟩ | ⟨e, hone, heq⟩ |
    ⟨final, rfl, hne, heq⟩ <;> rw [heq]
  · exact readable_const hc _
  · exact readable_const hc _
  · exact h e (List.mem_of_mem_filter (hone ▸ List.mem_singleton_self e))
  · exact readable_boolOp hne fun e he => h e (List.mem_of_mem_filter he)

theorem readable_pexprNegate (hc : colref.fConstrainable = true)
    (h : Readable fArrayConstraints colref e) :
    Readable fArrayConstraints colref (pexprNegate e) := by
  refine ⟨by simpa [pexprNegate, converts, convertsHead] using
    h.converts, fun m => ?_⟩
  have htest : readsNullList (pexprNegate e) = (readsNullList e || false) := by
    simp [pexprNegate, readsNullList, readsNullListAny]
  rw [htest, pexprNegate, pciIntervalFromScalarExpr, pciIntervalFromScalarBoolNot]
  refine (h.failsWhen (!m)).bind fun child hchild => ?_
  obtain ⟨K, rfl⟩ := h.eq_some hchild
  obtain ⟨hwf, hcol, -⟩ := exact_reading e (!m) K hchild
  obtain ⟨K', hK', -⟩ := pciComplement_returns hwf (hcol ▸ hc)
  dsimp only
  rw [hK']
  exact ⟨_, rfl⟩

/-! ## The null mode -/

/-- The null mode speaks about NULL only. -/
theorem reading_mode {v : Datum D} (hv : v ≠ ⊥) (e : ScalarExpr D) : ∀ m m' : Bool,
    reading fArrayConstraints colref m e v ↔ reading fArrayConstraints colref m' e v := by
  induction e using ScalarExpr.induction with
  | const value | nullTest child | isDistinctFrom left right
  | other id used => exact fun _ _ => by simp only [reading]
  | cmp cmpType left right
  | arrayCmp arr cmpType left coerced array => exact fun _ _ => by simp only [reading, if_neg hv]
  | boolOp op children ih =>
    intro m m'
    cases op with
    | and =>
      simp only [reading, readingAll_iff]
      exact forall₂_congr fun e he => imp_congr_right fun _ => ih e he m m'
    | or =>
      simp only [reading, readingAny_iff]
      exact exists_congr fun e => and_congr_right fun he => ih e he m m'
    | not =>
      cases children with
      | nil => simp only [reading, readingHead]
      | cons e es =>
        simp only [reading, readingHead]
        exact not_congr (ih e (by simp) _ _)

/-- The text of the interval compares the column, and does not say what becomes of NULL. -/
def comparesNull (this : CConstraintInterval (Datum D)) : Bool :=
  !this.fIncludesNull && this.pdrgprng ≠ [] &&
    this.pdrgprng.all fun r => r.pdatumLeft.isSome || r.pdatumRight.isSome

/-- The text of an interval: it is written, it reads back, and it says what the interval says, but
    for the NULL that it compares. -/
def WritesOut (fArrayConstraints : Bool) (pci : CConstraintInterval (Datum D))
    (e : ScalarExpr D) : Prop :=
  Readable fArrayConstraints pci.pcr e ∧ ∀ m v, reading fArrayConstraints pci.pcr m e v ↔
    if v = ⊥ ∧ pci.comparesNull = true then m = true else pci.admits v

/-- Outside NULL the reading in the first mode is enough. -/
theorem writesOut_of_describes {pci : CConstraintInterval (Datum D)}
    (hread : Readable fArrayConstraints pci.pcr e)
    (hd : Describes fArrayConstraints pci.pcr e pci.admits)
    (hnull : ∀ m, reading fArrayConstraints pci.pcr m e ⊥ ↔
      if pci.comparesNull = true then m = true else pci.admits ⊥) :
    pci.WritesOut fArrayConstraints e := by
  refine ⟨hread, fun m v => ?_⟩
  by_cases hv : v = ⊥
  · subst hv
    simpa using hnull m
  · rw [if_neg (fun h => hv h.1), reading_mode hv e m false, hd.2]

theorem readable_range (hc : colref.fConstrainable = true) (r : CRange (Datum D)) :
    Readable fArrayConstraints colref (r.pexprScalar colref) := by
  have hend : ∀ (datum : Option (Datum D)) (eri : ERangeInclusion) (ecmptIncl ecmptExcl : ECmpType),
      ecmptIncl ≠ .other → ecmptExcl ≠ .other →
      ∀ e ∈ (CRange.pexprScalarCompEnd datum eri ecmptIncl ecmptExcl colref).toList,
        Readable fArrayConstraints colref e := by
    intro datum eri ecmptIncl ecmptExcl hI hE e he
    cases datum with
    | none => cases he
    | some d =>
      simp only [CRange.pexprScalarCompEnd, Option.map_some, Option.toList_some,
        List.mem_singleton] at he
      subst he
      refine readable_cmp ?_ d
      split
      · exact hI
      · exact hE
  unfold CRange.pexprScalar
  split
  · next e heq =>
    unfold CRange.pexprEquality at heq
    split at heq
    · split at heq
      · cases heq
      · cases heq
        exact readable_cmp (by simp) _
    · cases heq
  · refine readable_pexprConjDisj hc true fun e he => ?_
    rcases List.mem_append.1 he with he | he
    · exact hend _ _ _ _ (by simp) (by simp) e he
    · exact hend _ _ _ _ (by simp) (by simp) e he

/-- A range with an end compares NULL. -/
theorem reading_range_null {r : CRange (Datum D)}
    (hends : r.pdatumLeft = none → r.pdatumRight ≠ none) (m : Bool) :
    reading fArrayConstraints colref m (r.pexprScalar colref) ⊥ ↔ m = true := by
  obtain ⟨left, eL, right, eR⟩ := r
  rcases left with _ | a <;> rcases right with _ | b
  · exact absurd rfl (hends rfl)
  · simp [CRange.pexprScalar, CRange.pexprEquality, CRange.pexprScalarCompEnd, pexprConjDisj,
      fScalarConstBool, reading]
  · simp [CRange.pexprScalar, CRange.pexprEquality, CRange.pexprScalarCompEnd, pexprConjDisj,
      fScalarConstBool, reading]
  · by_cases heq : a ≠ b ∨ eL = .excluded ∨ eR = .excluded
    · simp only [CRange.pexprScalar, CRange.pexprEquality, if_pos heq,
        CRange.pexprScalarCompEnd, pexprConjDisj, fScalarConstBool]
      cases eL <;> cases eR <;>
        simp [reading, converts, ScalarOperand.identOrCast, ScalarOperand.constOrCast,
          fScalarConstBool]
    · simp [CRange.pexprScalar, CRange.pexprEquality, if_neg heq, reading]

/-! ## Intervals -/

variable {pci : CConstraintInterval (Datum D)}

theorem pexprConstructDisjunctionScalar_writesOut (hwf : pci.WellFormed)
    (hc : pci.pcr.fConstrainable = true) :
    pci.WritesOut fArrayConstraints pci.pexprConstructDisjunctionScalar := by
  have hd : Describes fArrayConstraints pci.pcr _ _ :=
    pexprConstructDisjunctionScalar_describes hwf hc
  by_cases hall : ∃ r ∈ pci.pdrgprng, r.pdatumLeft = none ∧ r.pdatumRight = none
  · obtain ⟨r, hr, hl, hrr⟩ := hall
    have hcompares : pci.comparesNull = false := by
      rw [comparesNull, Bool.and_eq_false_iff]
      exact .inr (List.all_eq_false.2 ⟨r, hr, by simp [hl, hrr]⟩)
    have heq := pexprConstructDisjunctionScalar_unbounded (Ordered.sole hwf hr hl hrr) hl hrr
    cases hn : pci.fIncludesNull with
    | true =>
      rw [hn, if_pos rfl] at heq
      rw [heq] at hd ⊢
      exact writesOut_of_describes (readable_const hc true) hd fun m => by
        simp [hcompares, admits_bot, hn, reading]
    | false =>
      rw [hn, if_neg (by simp)] at heq
      rw [heq] at hd ⊢
      exact writesOut_of_describes (readable_pexprNegate hc readable_isNull) hd fun m => by
        simp [hcompares, admits_bot, hn, pexprNegate, pexprIsNull, reading, readingHead]
  · have hends : ∀ r ∈ pci.pdrgprng, r.pdatumLeft = none → r.pdatumRight ≠ none :=
      fun r hr hl hrr => hall ⟨r, hr, hl, hrr⟩
    rw [pexprConstructDisjunctionScalar_bounded hends] at hd ⊢
    set es := pci.pdrgprng.map (CRange.pexprScalar · pci.pcr) ++
      if pci.fIncludesNull then [pexprIsNull pci.pcr] else [] with hes
    have hread : ∀ e ∈ es, Readable fArrayConstraints pci.pcr e := by
      intro e he
      rcases List.mem_append.1 he with he | he
      · obtain ⟨r, -, rfl⟩ := List.mem_map.1 he
        exact readable_range hc r
      · split at he
        · rw [List.mem_singleton.1 he]
          exact readable_isNull
        · cases he
    refine writesOut_of_describes (readable_pexprConjDisj hc false hread) hd fun m => ?_
    rw [reading_pexprConjDisj false m fun e he => (hread e he).converts, admits_bot]
    have hends' : (pci.pdrgprng.all fun r => r.pdatumLeft.isSome || r.pdatumRight.isSome) = true := by
      refine List.all_eq_true.2 fun r hr => ?_
      have hr := hends r hr
      revert hr
      cases r.pdatumLeft <;> cases r.pdatumRight <;> simp
    have hranges : (∃ e ∈ pci.pdrgprng.map (CRange.pexprScalar · pci.pcr),
        reading fArrayConstraints pci.pcr m e ⊥) ↔ pci.pdrgprng ≠ [] ∧ m = true := by
      constructor
      · rintro ⟨e, he, hr⟩
        obtain ⟨r, hmem, rfl⟩ := List.mem_map.1 he
        exact ⟨List.ne_nil_of_mem hmem, (reading_range_null (hends r hmem) m).1 hr⟩
      · rintro ⟨hne, hm⟩
        obtain ⟨r, hmem⟩ := List.exists_mem_of_ne_nil _ hne
        exact ⟨_, List.mem_map_of_mem hmem, (reading_range_null (hends r hmem) m).2 hm⟩
    simp only [CConstraint.joined, Bool.false_eq_true, if_false, hes, List.mem_append, or_and_right,
      exists_or, hranges, comparesNull, hends', Bool.and_true]
    cases pci.fIncludesNull <;> by_cases hne : pci.pdrgprng = [] <;>
      simp [hne, pexprIsNull, reading]

omit [LinearOrder D] in
theorem arrayDatums_returns {rs : List (CRange (Datum D))} (h : ∀ r ∈ rs, r.pdatumRight ≠ none) :
    ∃ array, arrayDatums rs = .ok array := by
  induction rs with
  | nil => exact ⟨[], rfl⟩
  | cons r rs ih =>
    obtain ⟨array, harray⟩ := ih fun r hr => h r (by simp [hr])
    obtain ⟨datum, hdatum⟩ := Option.ne_none_iff_exists'.1 (h r (by simp))
    exact ⟨_, by rw [arrayDatums, hdatum, harray]; rfl⟩

/-- Only the last of ordered ranges can be without a right end. -/
theorem Ordered.right_ne_none {rs : List (CRange (Datum D))} (h : Ordered rs)
    {r : CRange (Datum D)} (hr : r ∈ rs.dropLast) : r.pdatumRight ≠ none := by
  intro hright
  have hne : rs ≠ [] := by rintro rfl; cases hr
  have hhi : r.hi = ⊤ := (CRange.hi_eq_top_iff r).2 hright
  rw [← List.dropLast_append_getLast hne] at h
  obtain ⟨-, hlast, hsep⟩ := ordered_append.1 h
  have hle : ⊤ ≤ (rs.getLast hne).lo := hhi ▸ hsep r hr _ (by simp)
  exact absurd (hlast.1 _ (by simp)) (not_lt.2 (le_top.trans hle))

/-- The text of an IN or a NOT IN, with OR IS NULL. -/
theorem pexprOrIsNull_writesOut (hc : pci.pcr.fConstrainable = true) {arr : EArrCmpType}
    {cmpType : ECmpType} (hcmp : cmpType = .eq ∨ cmpType = .neq)
    {array : List (ScalarOperand D)} {datums : List (Datum D)}
    (harray : fScalarConstArray array = some datums) (hne : datums ≠ [])
    (hends : pci.pdrgprng ≠ [] ∧ ∀ r ∈ pci.pdrgprng, r.pdatumLeft = none → r.pdatumRight ≠ none)
    (hd : Describes true pci.pcr
      (pci.pexprOrIsNull (.arrayCmp arr cmpType (.ident pci.pcr) false array)) pci.admits) :
    pci.WritesOut true (pci.pexprOrIsNull (.arrayCmp arr cmpType (.ident pci.pcr) false array)) := by
  have hread : Readable true pci.pcr (.arrayCmp arr cmpType (.ident pci.pcr) false array) :=
    readable_arrayCmp hcmp harray hne
  have hends' : (pci.pdrgprng.all fun r => r.pdatumLeft.isSome || r.pdatumRight.isSome) = true := by
    refine List.all_eq_true.2 fun r hr => ?_
    have hr := hends.2 r hr
    revert hr
    cases r.pdatumLeft <;> cases r.pdatumRight <;> simp
  unfold pexprOrIsNull at hd ⊢
  split
  · next hn =>
    rw [if_pos hn] at hd
    have hboth : ∀ e ∈ [.arrayCmp arr cmpType (.ident pci.pcr) false array, pexprIsNull pci.pcr],
        Readable true pci.pcr e := by
      simp [hread, readable_isNull]
    refine writesOut_of_describes (readable_pexprConjDisj hc false hboth) hd fun m => ?_
    rw [reading_pexprConjDisj false m fun e he => (hboth e he).converts, admits_bot]
    simp [CConstraint.joined, comparesNull, hn, pexprIsNull, reading]
  · next hn =>
    rw [if_neg hn] at hd
    refine writesOut_of_describes hread hd fun m => ?_
    simp [comparesNull, hn, hends', hends.1, reading]

theorem pexprConstructArrayScalar_writesOut (hwf : pci.WellFormed)
    (hc : pci.pcr.fConstrainable = true) :
    ∃ o, pci.pexprConstructArrayScalar = .ok o ∧ ∀ e ∈ o, pci.WritesOut true e := by
  unfold pexprConstructArrayScalar
  split
  · next hin =>
    simp only [fConvertsToIn, Bool.and_eq_true, decide_eq_true_eq, List.all_eq_true] at hin
    have hends : ∀ r ∈ pci.pdrgprng, r.pdatumLeft = none → r.pdatumRight ≠ none := by
      intro r hr hl hrr
      rw [Ordered.sole hwf hr hl hrr] at hin
      simp at hin
    have hright : ∀ r ∈ pci.pdrgprng, r.pdatumRight ≠ none := by
      intro r hr hrr
      have hpoint := hin.2 r hr
      simp only [CRange.fPoint, Bool.and_eq_true, decide_eq_true_eq] at hpoint
      exact hends r hr (hpoint.2 ▸ hrr) hrr
    obtain ⟨array, harray⟩ := arrayDatums_returns hright
    obtain ⟨datums, hds, hmap⟩ := fScalarConstArray_arrayDatums harray
    have hne : pci.pdrgprng ≠ [] := by
      intro hnil
      rw [hnil] at hin
      simp at hin
    have hdne : datums ≠ [] := by
      rintro rfl
      exact hne (by simpa using hmap)
    refine ⟨_, by rw [harray]; rfl, ?_⟩
    simp only [Option.mem_some_iff, forall_eq']
    refine pexprOrIsNull_writesOut hc (.inl rfl) hds hdne ⟨hne, hends⟩
      (pexprConstructArrayScalar_describes hwf hc ?_)
    rw [pexprConstructArrayScalar, if_pos (by
      simp only [fConvertsToIn, Bool.and_eq_true, decide_eq_true_eq, List.all_eq_true]
      exact hin), harray]
    rfl
  · next hnin =>
    split
    · next hnotin =>
      obtain ⟨array, harray⟩ := arrayDatums_returns fun r hr => Ordered.right_ne_none hwf hr
      obtain ⟨datums, hds, hmap⟩ := fScalarConstArray_arrayDatums harray
      have hlen : 1 < pci.pdrgprng.length := by
        simp only [fConvertsToNotIn, Bool.and_eq_true, decide_eq_true_eq] at hnotin
        exact hnotin.1.1
      have hends : ∀ r ∈ pci.pdrgprng, r.pdatumLeft = none → r.pdatumRight ≠ none := by
        intro r hr hl hrr
        rw [Ordered.sole hwf hr hl hrr] at hlen
        simp at hlen
      have hdne : datums ≠ [] := by
        rintro rfl
        have hdrop := congrArg List.length hmap
        simp only [List.length_map, List.length_dropLast, List.length_nil] at hdrop
        omega
      refine ⟨_, by rw [harray]; rfl, ?_⟩
      simp only [Option.mem_some_iff, forall_eq']
      refine pexprOrIsNull_writesOut hc (.inr rfl) hds hdne
        ⟨List.ne_nil_of_length_pos (by omega), hends⟩ (pexprConstructArrayScalar_describes hwf hc ?_)
      rw [pexprConstructArrayScalar, if_neg hnin, if_pos hnotin, harray]
      rfl
    · exact ⟨none, rfl, by simp⟩

/-- **An interval is written out**, and what is read back in either null mode. -/
theorem pexprScalar_writesOut (fArrayConstraints : Bool) (hwf : pci.WellFormed)
    (hc : pci.pcr.fConstrainable = true) :
    ∃ e, pci.pexprScalar fArrayConstraints = .ok e ∧ pci.WritesOut fArrayConstraints e := by
  unfold pexprScalar
  split
  · next hcon =>
    refine ⟨_, rfl, readable_const hc false, fun m v => ?_⟩
    have hranges : pci.pdrgprng = [] := by
      simp only [fContradiction, Bool.and_eq_true, decide_eq_true_eq] at hcon
      exact List.length_eq_zero_iff.1 hcon.2
    simp [reading, comparesNull, hranges, not_admits_of_fContradiction hcon v]
  · split
    · next htrace =>
      subst htrace
      obtain ⟨o, ho, hwrites⟩ := pexprConstructArrayScalar_writesOut hwf hc
      rw [ho]
      cases o with
      | none => exact ⟨_, rfl, pexprConstructDisjunctionScalar_writesOut hwf hc⟩
      | some e => exact ⟨e, rfl, hwrites e rfl⟩
    · exact ⟨_, rfl, pexprConstructDisjunctionScalar_writesOut hwf hc⟩

/-! ## Without array comparisons -/

theorem readsNullList_pexprConjDisj (fConj : Bool)
    (h : ∀ e ∈ es, readsNullList e = false) : readsNullList (pexprConjDisj fConj es) = false := by
  rcases pexprConjDisj_cases fConj es with ⟨-, heq⟩ | ⟨-, heq⟩ | ⟨e, hone, heq⟩ |
    ⟨final, rfl, -, heq⟩ <;> rw [heq]
  · rfl
  · rfl
  · exact h e (List.mem_of_mem_filter (hone ▸ List.mem_singleton_self e))
  · rw [readsNullList, ← Bool.not_eq_true, readsNullListAny_iff]
    rintro ⟨e, he, hreads⟩
    rw [h e (List.mem_of_mem_filter he)] at hreads
    cases hreads

theorem readsNullList_range (r : CRange (Datum D)) (colref : CColRef) :
    readsNullList (r.pexprScalar colref) = false := by
  unfold CRange.pexprScalar
  split
  · next e heq =>
    unfold CRange.pexprEquality at heq
    split at heq
    · split at heq
      · cases heq
      · cases heq
        rfl
    · cases heq
  · refine readsNullList_pexprConjDisj true fun e he => ?_
    simp only [CRange.pexprScalarCompEnd, List.mem_append, Option.mem_toList,
      Option.map_eq_some_iff] at he
    rcases he with ⟨d, -, rfl⟩ | ⟨d, -, rfl⟩ <;> rfl

/-- The text of an interval has no array comparison when the trace flag is off. -/
theorem readsNullList_pexprScalar (h : pci.pexprScalar false = .ok e) :
    readsNullList e = false := by
  unfold pexprScalar at h
  split at h
  · cases h; rfl
  · rw [if_neg (by simp)] at h
    cases h
    unfold pexprConstructDisjunctionScalar
    dsimp only
    split
    · split <;> rfl
    · refine readsNullList_pexprConjDisj false fun e he => ?_
      rcases List.mem_append.1 he with he | he
      · obtain ⟨r, -, rfl⟩ := List.mem_map.1 he
        exact readsNullList_range r _
      · split at he
        · rw [List.mem_singleton.1 he]
          rfl
        · cases he

end CConstraintInterval

end BossOptimizer

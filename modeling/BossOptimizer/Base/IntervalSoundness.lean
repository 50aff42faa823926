import BossOptimizer.Base.IntervalReading

/-!
# Soundness of `PciIntervalFromScalarExpr`

The contract of the derivation is in its comment (CConstraintInterval.cpp:120-134): the interval
of `e` holds the values on which `e` is true, or true or unknown when `infer_nulls_as` is set, and
NOT complements the interval of the child in the other mode. Complementing is only right when the
child's interval is not too large, and AND makes it too large when it drops a conjunct.

`noDefect` walks the predicate with the side from which each reading has to be right and the null
mode, both flipped by NOT, and excludes the places where the reading is wrong from that side:
a dropped conjunct below an odd number of NOTs, comparisons with the NULL constant, the unknown
Boolean constant, and array comparisons that are not IN or NOT IN or that hold a NULL. Under it
the derivation is sound.
-/

namespace BossOptimizer

namespace CConstraintInterval

variable {D : Type} [LinearOrder D]

/-- The rows on which a predicate holds in a null mode. -/
def satisfied (I : Interpretation D) (m : Bool) (e : ScalarExpr D) (row : Row D) : Prop :=
  (e.eval I row).holds m

instance (I : Interpretation D) (m : Bool) (e : ScalarExpr D) (row : Row D) :
    Decidable (satisfied I m e row) := inferInstanceAs (Decidable ((e.eval I row).holds m))

/-- `fOver`: the reading has every value it should have. Otherwise: it has no other. -/
def RightFrom (fOver : Bool) (holds reading : Prop) : Prop :=
  if fOver then holds → reading else reading → holds

variable {fOver : Bool}

theorem rightFrom_of_iff {P R : Prop} (h : P ↔ R) : RightFrom fOver P R := by
  cases fOver
  · exact h.2
  · exact h.1

/-- Negation swaps the sides. -/
theorem RightFrom.not {P R : Prop} (h : RightFrom (!fOver) P R) :
    RightFrom fOver (¬ P) (¬ R) := by
  cases fOver
  · exact mt h
  · exact mt h

/-! ## Comparisons with a constant -/

variable {m : Bool} {I : Interpretation D}

theorem evalCmp_coe (cmpType : ECmpType) (v d : D) :
    evalCmp I cmpType (v : Datum D) (d : Datum D) =
      match cmpType with
      | .eq => some (decide (v = d))
      | .neq | .idf => some (decide (v ≠ d))
      | .l => some (decide (v < d))
      | .leq => some (decide (v ≤ d))
      | .g => some (decide (d < v))
      | .geq => some (decide (d ≤ v))
      | .other => I.cmpOther v d := rfl

variable {cmpType : ECmpType}

theorem holds_evalCmp_coe (h : cmpType ≠ .other) (v d : D) :
    (evalCmp I cmpType v d).holds m ↔ cmpHolds cmpType (v : Datum D) d := by
  rw [evalCmp_coe]
  cases cmpType <;> first | exact absurd rfl h | simp [cmpHolds]

@[simp] theorem evalCmp_bot_left (cmpType : ECmpType) (d : Datum D) :
    evalCmp I cmpType ⊥ d = none := rfl

@[simp] theorem evalCmp_bot_right (cmpType : ECmpType) (v : Datum D) :
    evalCmp I cmpType v ⊥ = none := by
  cases v <;> rfl

/-- The comparisons whose ranges against the NULL datum take in every datum. -/
def aboveNull (cmpType : ECmpType) : Bool :=
  match cmpType with
  | .g | .geq | .neq | .idf => true
  | _ => false

theorem cmpHolds_bot_iff (v : D) :
    cmpHolds cmpType (v : Datum D) ⊥ ↔ aboveNull cmpType = true := by
  cases cmpType <;> simp [cmpHolds, aboveNull]

/-- Against the NULL constant the reading is right from the side on which `evalCmp` is unknown
    anyway, or when it happens to hold every datum or none. -/
theorem cmp_rightFrom (hother : cmpType ≠ .other) {datum : Datum D}
    (hnull : datum = ⊥ → m ≠ fOver ∨ aboveNull cmpType = fOver) (v : Datum D) :
    RightFrom fOver ((evalCmp I cmpType v datum).holds m)
      (if v = ⊥ then m = true else cmpHolds cmpType v datum) := by
  cases v using WithBot.recBotCoe with
  | bot => exact rightFrom_of_iff (by simp)
  | coe v =>
    rw [if_neg WithBot.coe_ne_bot]
    cases datum using WithBot.recBotCoe with
    | bot =>
      have := hnull rfl
      simp only [evalCmp_bot_right, Truth.holds_unknown, cmpHolds_bot_iff]
      cases fOver <;> cases m <;> simp_all [RightFrom]
    | coe d => exact rightFrom_of_iff (holds_evalCmp_coe hother v d)

/-! ## Array comparisons -/

variable {datums : List (Datum D)}

omit [LinearOrder D] in
theorem eval_of_fScalarConstArray {array : List (ScalarOperand D)}
    (h : fScalarConstArray array = some datums) (row : Row D) :
    array.map (ScalarOperand.eval I row) = datums := by
  induction array generalizing datums with
  | nil => cases h; rfl
  | cons x rest ih =>
    simp only [fScalarConstArray, List.mapM_cons, Option.bind_eq_bind, Option.pure_def,
      Option.bind_eq_some_iff, Option.some.injEq] at h
    obtain ⟨d, hd, ds, hds, rfl⟩ := h
    rw [List.map_cons, ih hds]
    cases x <;> cases hd
    rfl

/-- A list of array elements that compares like the interval: at most one datum, or the
    quantifier that goes with the comparison. -/
def arrayNatural (arr : EArrCmpType) (cmpType : ECmpType) (datums : List (Datum D)) : Bool :=
  (arr, cmpType) = (.any, .eq) || (arr, cmpType) = (.all, .neq) ||
    decide (∀ x ∈ datums, ∀ y ∈ datums, x ≠ ⊥ → y ≠ ⊥ → x = y)

/-- An array comparison is read as IN or NOT IN of its non-NULL elements. That set is never too
    small for ALL and never too large for ANY; from the other side it is right when the
    comparison is of that kind and no NULL element counts. -/
def arrayNoDefect (fOver m : Bool) (arr : EArrCmpType) (cmpType : ECmpType)
    (datums : List (Datum D)) : Bool :=
  fOver != (arr = .any) ||
    arrayNatural arr cmpType datums && (m != fOver || decide (⊥ ∉ datums))

omit [LinearOrder D] in
theorem eval_of_identOrCast {x : ScalarOperand D} {colref : CColRef}
    (h : x.identOrCast = some colref) (row : Row D) : x.eval I row = row colref := by
  rcases x with c | _ | (c | _ | _ | _) | _ <;> simp [ScalarOperand.identOrCast] at h <;> subst h <;>
    rfl

omit [LinearOrder D] in
theorem eval_of_constOrCast {x : ScalarOperand D} {datum : Datum D}
    (h : x.constOrCast = some datum) (row : Row D) : x.eval I row = datum := by
  rcases x with _ | d | (_ | d | _ | _) | _ <;> simp [ScalarOperand.constOrCast] at h <;> subst h <;>
    rfl

omit [LinearOrder D] in
theorem fScalarConstArray_of_compare {left : ScalarOperand D} {coerced : Bool}
    {array : List (ScalarOperand D)}
    (h : compareIdentToConstArray left coerced array = some datums) :
    fScalarConstArray array = some datums ∧ left.identOrCast.isSome := by
  rcases left with c | _ | (c | _ | _ | _) | _ <;>
    simp [compareIdentToConstArray, ScalarOperand.identOrCast] at h ⊢
  · exact h.2
  · exact h

/-- Against the elements of an array: unknown against a NULL element, the comparison against
    another one. -/
theorem holds_evalCmp_iff (h : cmpType ≠ .other) (v : D) (d : Datum D) :
    (evalCmp I cmpType v d).holds m ↔ if d = ⊥ then m = true else cmpHolds cmpType (v : Datum D) d := by
  cases d using WithBot.recBotCoe with
  | bot => simp
  | coe d => simp [holds_evalCmp_coe h]

/-- ANY quantifies existentially over the elements, ALL universally. -/
def quantify {β : Type} (arr : EArrCmpType) (l : List β) (P : β → Prop) : Prop :=
  match arr with
  | .any => ∃ t ∈ l, P t
  | .all => ∀ t ∈ l, P t

theorem arrayEval_holds (arr : EArrCmpType) (ts : List Truth) :
    (arr.eval ts).holds m ↔ quantify arr ts (Truth.holds m) := by
  cases arr <;> simp [EArrCmpType.eval, quantify]

/-- The value of an array comparison when the column is NULL, and when it is not. -/
theorem arrayEval_bot (arr : EArrCmpType) (cmpType : ECmpType) (hne : datums ≠ []) :
    (arr.eval (datums.map (evalCmp I cmpType ⊥))).holds m ↔ m = true := by
  obtain ⟨d, hd⟩ := List.exists_mem_of_ne_nil datums hne
  rw [arrayEval_holds]
  cases arr
  · simpa [quantify] using fun _ => ⟨d, hd⟩
  · simpa [quantify] using ⟨fun h => h d hd, fun h _ _ => h⟩

theorem arrayEval_coe (arr : EArrCmpType) (h : cmpType ≠ .other) (v : D) (datums : List (Datum D)) :
    (arr.eval (datums.map (evalCmp I cmpType v))).holds m ↔
      quantify arr datums fun d => if d = ⊥ then m = true else cmpHolds cmpType (v : Datum D) d := by
  rw [arrayEval_holds]
  cases arr <;> simp [quantify, holds_evalCmp_iff h]

theorem arrayEq_rightFrom {arr : EArrCmpType} (hdef : arrayNoDefect fOver m arr .eq datums = true)
    {x : Datum D} (hx : x ∈ datums) (hxbot : x ≠ ⊥) (v : D) :
    RightFrom fOver (quantify arr datums fun d =>
      if d = ⊥ then m = true else cmpHolds .eq (v : Datum D) d) ((v : Datum D) ∈ datums) := by
  simp only [arrayNoDefect, arrayNatural] at hdef
  have hv : (v : Datum D) ≠ ⊥ := WithBot.coe_ne_bot
  cases arr <;> cases fOver <;> simp [quantify, cmpHolds, RightFrom] at hdef ⊢
  all_goals grind

theorem arrayNeq_rightFrom {arr : EArrCmpType} (hdef : arrayNoDefect fOver m arr .neq datums = true)
    {x : Datum D} (hx : x ∈ datums) (hxbot : x ≠ ⊥) (v : D) :
    RightFrom fOver (quantify arr datums fun d =>
      if d = ⊥ then m = true else cmpHolds .neq (v : Datum D) d) ((v : Datum D) ∉ datums) := by
  simp only [arrayNoDefect, arrayNatural] at hdef
  have hv : (v : Datum D) ≠ ⊥ := WithBot.coe_ne_bot
  cases arr <;> cases fOver <;> simp [quantify, cmpHolds, RightFrom] at hdef ⊢
  all_goals grind

/-! ## Soundness -/

section NoDefect

variable (fArrayConstraints : Bool) (colref : CColRef)

mutual

/-- No place of the predicate is wrong from the side `fOver` in the null mode. -/
def noDefect (fOver inferNullsAs : Bool) : ScalarExpr D → Bool
  | .const value => value ≠ none || !(fOver && inferNullsAs)
  | .cmp cmpType left right =>
    match left.identOrCast, right.constOrCast with
    | some _, some datum =>
      datum ≠ ⊥ || cmpType = .other || inferNullsAs ≠ fOver || aboveNull cmpType = fOver
    | _, _ => true
  | .arrayCmp arr cmpType left coerced array =>
    match compareIdentToConstArray left coerced array with
    | some datums =>
      !fArrayConstraints || !(cmpType = .eq || cmpType = .neq) ||
        arrayNoDefect fOver inferNullsAs arr cmpType datums
    | none => true
  | .boolOp .and children =>
    noDefectAll fOver inferNullsAs children &&
      (fOver || convertsAll fArrayConstraints colref children ||
        !convertsAny fArrayConstraints colref children)
  | .boolOp .or children =>
    !convertsAll fArrayConstraints colref children || noDefectAll fOver inferNullsAs children
  | .boolOp .not children => noDefectHead (!fOver) (!inferNullsAs) children
  | _ => true

def noDefectAll (fOver inferNullsAs : Bool) : List (ScalarExpr D) → Bool
  | [] => true
  | e :: es => noDefect fOver inferNullsAs e && noDefectAll fOver inferNullsAs es

def noDefectHead (fOver inferNullsAs : Bool) : List (ScalarExpr D) → Bool
  | [] => true
  | e :: _ => noDefect fOver inferNullsAs e

end

attribute [local simp] noDefect noDefectAll noDefectHead in
@[simp] theorem noDefectAll_iff (fOver m : Bool) (es : List (ScalarExpr D)) :
    noDefectAll fArrayConstraints colref fOver m es = true ↔
      ∀ e ∈ es, noDefect fArrayConstraints colref fOver m e = true := by
  induction es with
  | nil => simp [noDefectAll]
  | cons e es ih => simp [noDefectAll, ih]

end NoDefect

variable {fArrayConstraints : Bool} {colref : CColRef}

omit [LinearOrder D] in
theorem mem_usedColumns_of_identOrCast {x : ScalarOperand D} {c : CColRef}
    (h : x.identOrCast = some c) : c ∈ x.usedColumns := by
  rcases x with c' | _ | (c' | _ | _ | _) | _ <;> simp [ScalarOperand.identOrCast] at h <;>
    simp [ScalarOperand.usedColumns, h]

/-- An array that is read as IN or NOT IN has a datum. -/
theorem arrayCmp_rightFrom {arr : EArrCmpType} {left : ScalarOperand D} {coerced : Bool}
    {array : List (ScalarOperand D)} (hleft : left.identOrCast = some colref)
    (harray : compareIdentToConstArray left coerced array = some datums)
    (hcmp : cmpType = .eq ∨ cmpType = .neq) (hdatum : ∃ x ∈ datums, x ≠ ⊥)
    (hdef : arrayNoDefect fOver m arr cmpType datums = true) (row : Row D) :
    RightFrom fOver (satisfied I m (.arrayCmp arr cmpType left coerced array) row)
      (if row colref = ⊥ then m = true
        else if cmpType = .eq then row colref ∈ datums else row colref ∉ datums) := by
  obtain ⟨x, hx, hxbot⟩ := hdatum
  have heval : ScalarExpr.eval I row (.arrayCmp arr cmpType left coerced array) =
      arr.eval (datums.map (evalCmp I cmpType (row colref))) := by
    rw [ScalarExpr.eval, eval_of_identOrCast hleft,
      ← eval_of_fScalarConstArray (fScalarConstArray_of_compare harray).1 row, List.map_map]
    rfl
  rw [satisfied, heval]
  cases row colref using WithBot.recBotCoe with
  | bot =>
    rw [if_pos rfl]
    exact rightFrom_of_iff (arrayEval_bot arr cmpType (List.ne_nil_of_mem hx))
  | coe v =>
    rw [if_neg WithBot.coe_ne_bot]
    rcases hcmp with rfl | rfl
    · rw [arrayEval_coe arr (by simp), if_pos rfl]
      exact arrayEq_rightFrom hdef hx hxbot v
    · rw [arrayEval_coe arr (by simp), if_neg (by simp)]
      exact arrayNeq_rightFrom hdef hx hxbot v

/-- The AND loop derives every conjunct. -/
theorem boolAnd_derives {es : List (ScalarExpr D)} {acc r : Option (CConstraintInterval (Datum D))}
    (h : pciIntervalFromScalarBoolAnd fArrayConstraints colref es m acc = .ok r) :
    ∀ e ∈ es, ∃ r, pciIntervalFromScalarExpr fArrayConstraints colref e m = .ok r := by
  induction es generalizing acc with
  | nil => simp
  | cons e es ih =>
    simp only [pciIntervalFromScalarBoolAnd, bind_eq_ok] at h
    obtain ⟨child, hchild, acc', -, h⟩ := h
    intro e' he'
    rcases List.mem_cons.1 he' with rfl | he'
    · exact ⟨child, hchild⟩
    · exact ih h e' he'

/-- The OR loop derives every disjunct when it comes to an end. -/
theorem boolOrChildren_derives {es : List (ScalarExpr D)}
    {pcis : List (CConstraintInterval (Datum D))}
    (h : boolOrChildren fArrayConstraints colref es m = .ok (some pcis)) :
    ∀ e ∈ es, ∃ r, pciIntervalFromScalarExpr fArrayConstraints colref e m = .ok r := by
  induction es generalizing pcis with
  | nil => simp
  | cons e es ih =>
    simp only [boolOrChildren, bind_eq_ok] at h
    obtain ⟨child, hchild, h⟩ := h
    cases child with
    | none => cases h
    | some pciChild =>
      simp only [bind_eq_ok, pure_eq_ok, Option.map_eq_some_iff] at h
      obtain ⟨rest, hrest, pcis', rfl, rfl⟩ := h
      intro e' he'
      rcases List.mem_cons.1 he' with rfl | he'
      · exact ⟨some pciChild, hchild⟩
      · exact ih hrest e' he'

omit [LinearOrder D] in
theorem mem_usedColumns_child {op : EBoolOperator} {children : List (ScalarExpr D)}
    (hcol : ∀ c ∈ (ScalarExpr.boolOp op children).usedColumns, c = colref)
    {e : ScalarExpr D} (he : e ∈ children) : ∀ c ∈ e.usedColumns, c = colref := by
  intro c hc
  apply hcol
  rw [ScalarExpr.usedColumns, ScalarExpr.mem_usedColumnsAll]
  exact ⟨e, he, hc⟩

/-- **The reading is right from the side it is needed on**, for every predicate over the column
    that converts and has none of the defects. -/
theorem satisfied_rightFrom_reading (e : ScalarExpr D) : ∀ (fOver m : Bool) r,
    (∀ c ∈ e.usedColumns, c = colref) → converts fArrayConstraints colref e = true →
    noDefect fArrayConstraints colref fOver m e = true →
    pciIntervalFromScalarExpr fArrayConstraints colref e m = .ok r →
    ∀ row, RightFrom fOver (satisfied I m e row)
      (reading fArrayConstraints colref m e (row colref)) := by
  induction e using ScalarExpr.induction with
  | const value =>
    intro fOver m r _ _ hdef _ row
    simp only [noDefect] at hdef
    rw [reading, satisfied, ScalarExpr.eval]
    rcases value with _ | _ | _
    · cases fOver <;> cases m <;> simp_all [RightFrom]
    · exact rightFrom_of_iff (by simp)
    · exact rightFrom_of_iff (by simp)
  | nullTest child =>
    intro fOver m r hcol hconv _ _ row
    cases child with
    | ident c =>
      obtain rfl : c = colref := hcol c (by simp [ScalarExpr.usedColumns, ScalarOperand.usedColumns])
      apply rightFrom_of_iff
      rw [satisfied, ScalarExpr.eval, reading, Truth.holds_some, decide_eq_true_iff,
        ScalarOperand.eval]
    | _ => simp [converts] at hconv
  | cmp cmpType left right =>
    intro fOver m r hcol hconv hdef _ row
    simp only [converts, Bool.and_eq_true, decide_eq_true_eq, Option.isSome_iff_exists] at hconv
    obtain ⟨⟨hother, c, hl⟩, datum, hr⟩ := hconv
    obtain rfl : c = colref := hcol c (by
      simp [ScalarExpr.usedColumns, mem_usedColumns_of_identOrCast hl])
    rw [noDefect, hl, hr] at hdef
    rw [satisfied, ScalarExpr.eval, eval_of_identOrCast hl, eval_of_constOrCast hr]
    simp only [reading, hr, Option.mem_some_iff, forall_eq']
    exact cmp_rightFrom hother (fun hd => by simpa [hd, hother] using hdef) _
  | isDistinctFrom left right =>
    intro fOver m r hcol hconv _ _ row
    cases left with
    | ident c =>
      cases right with
      | const datum =>
        obtain rfl : c = colref := hcol c (by
          simp [ScalarExpr.usedColumns, ScalarOperand.usedColumns])
        apply rightFrom_of_iff
        rw [satisfied, ScalarExpr.eval, Truth.holds_some, decide_eq_true_iff]
        simp [ScalarOperand.eval, reading, ScalarOperand.const?]
      | _ => simp [converts] at hconv
    | _ => simp [converts] at hconv
  | arrayCmp arr cmpType left coerced array =>
    intro fOver m r hcol hconv hdef h row
    rw [pciIntervalFromScalarExpr] at h
    simp only [converts, Bool.and_eq_true, Bool.or_eq_true, decide_eq_true_eq] at hconv
    obtain ⟨⟨htrace, hcmp⟩, harray⟩ := hconv
    cases harr : compareIdentToConstArray left coerced array with
    | none => simp [harr] at harray
    | some datums =>
      have hdefArr : arrayNoDefect fOver m arr cmpType datums = true := by
        rw [noDefect, harr, htrace] at hdef
        rcases hcmp with rfl | rfl <;> simpa using hdef
      obtain ⟨c, hc⟩ := Option.isSome_iff_exists.1 (fScalarConstArray_of_compare harr).2
      obtain rfl : c = colref := hcol c (by
        simp [ScalarExpr.usedColumns, mem_usedColumns_of_identOrCast hc])
      have hdatum : ∃ x ∈ datums, x ≠ ⊥ := by
        rw [if_pos htrace, pcnstrIntervalFromScalarArrayCmp, harr] at h
        rcases datums with _ | ⟨d, ds⟩
        · simp [harr] at harray
        simp only [bind_eq_ok] at h
        obtain ⟨set, hset, -⟩ := h
        obtain ⟨hne, -, hmem⟩ := datumSortedSet_spec hset
        obtain ⟨x, hx⟩ := List.exists_mem_of_ne_nil set hne
        exact ⟨x, (hmem x).1 hx⟩
      simp only [reading, harr, Option.mem_some_iff, forall_eq']
      exact arrayCmp_rightFrom hc harr hcmp hdatum hdefArr row
  | boolOp op children ih =>
    intro fOver m r hcol hconv hdef h row
    simp only [pciIntervalFromScalarExpr] at h
    cases op with
    | and =>
      simp only [converts] at hconv
      simp only [noDefect, Bool.and_eq_true, hconv, Bool.not_true, Bool.or_false, Bool.or_eq_true,
        convertsAll_iff, noDefectAll_iff] at hdef
      obtain ⟨hdef, hall⟩ := hdef
      cases children with
      | nil => simp at h
      | cons e es =>
        have key : ∀ e' ∈ e :: es, converts fArrayConstraints colref e' = true →
            RightFrom fOver (satisfied I m e' row)
              (reading fArrayConstraints colref m e' (row colref)) := by
          intro e' he' hc
          obtain ⟨r', hr'⟩ := boolAnd_derives h e' he'
          exact ih e' he' fOver m r' (mem_usedColumns_child hcol he') hc (hdef e' he') hr' row
        simp only [satisfied, ScalarExpr.eval, EBoolOperator.eval, ScalarExpr.evalAll_eq_map,
          Truth.holds_all, List.mem_map, forall_exists_index, and_imp,
          forall_apply_eq_imp_iff₂, reading, readingAll_iff]
        cases fOver with
        | true => exact fun hsat e' he' hc => key e' he' hc (hsat e' he')
        | false =>
          have hall := hall.resolve_left (by simp)
          exact fun hread e' he' => key e' he' (hall e' he') (hread e' he' (hall e' he'))
    | or =>
      rw [converts] at hconv
      have hdef : ∀ e ∈ children, noDefect fArrayConstraints colref fOver m e = true := by
        simpa only [noDefect, hconv, Bool.not_true, Bool.false_or, noDefectAll_iff] using hdef
      simp only [bind_eq_ok] at h
      obtain ⟨pcis, hpcis, -⟩ := h
      cases pcis with
      | none =>
        have := isSome_boolOrChildren (fun e _ => isSome_pciIntervalFromScalarExpr e m) hpcis
        rw [hconv] at this
        cases this
      | some pcis =>
        have key : ∀ e ∈ children, RightFrom fOver (satisfied I m e row)
            (reading fArrayConstraints colref m e (row colref)) := by
          intro e he
          obtain ⟨r', hr'⟩ := boolOrChildren_derives hpcis e he
          exact ih e he fOver m r' (mem_usedColumns_child hcol he)
            ((convertsAll_iff _ _ _).1 hconv e he) (hdef e he) hr' row
        simp only [satisfied, ScalarExpr.eval, EBoolOperator.eval, ScalarExpr.evalAll_eq_map,
          Truth.holds_any, List.mem_map, exists_exists_and_eq_and, reading, readingAny_iff]
        cases fOver with
        | true | false =>
          rintro ⟨e, he, hholds⟩
          exact ⟨e, he, key e he hholds⟩
    | not =>
      cases children with
      | nil => simp [pciIntervalFromScalarBoolNot] at h
      | cons e es =>
        simp only [pciIntervalFromScalarBoolNot, bind_eq_ok] at h
        obtain ⟨child, hchild, -⟩ := h
        simp only [converts, convertsHead] at hconv
        simp only [noDefect, noDefectHead] at hdef
        have := ih e (by simp) (!fOver) (!m) child (mem_usedColumns_child hcol (by simp)) hconv
          hdef hchild row
        simpa [satisfied, ScalarExpr.eval, EBoolOperator.eval, reading, readingHead] using this.not
  | other id used => intro fOver m r _ hconv; simp [converts] at hconv

/-- **`PciIntervalFromScalarExpr` is sound** in both null modes on predicates without a defect:
    the interval accepts the column of every row on which the predicate is true or, with
    `inferNullsAs`, not false. -/
theorem pciIntervalFromScalarExpr_sound (fArrayConstraints : Bool) (colref : CColRef)
    (e : ScalarExpr D) (inferNullsAs : Bool) (hcol : ∀ c ∈ e.usedColumns, c = colref)
    (hdef : noDefect fArrayConstraints colref true inferNullsAs e = true)
    {pci : CConstraintInterval (Datum D)}
    (h : pciIntervalFromScalarExpr fArrayConstraints colref e inferNullsAs = .ok (some pci))
    (I : Interpretation D) (row : Row D) (hrow : (e.eval I row).holds inferNullsAs) :
    pci.admits (row colref) := by
  have hconv := isSome_pciIntervalFromScalarExpr e inferNullsAs _ h
  rw [(exact_reading e inferNullsAs pci h).2.2]
  exact satisfied_rightFrom_reading e true inferNullsAs _ hcol hconv.symm hdef h row hrow

section Examples

/-- A nullable integer column. -/
def colInt : CColRef := ⟨1, true, true, true⟩

/-- Reads the opaque predicate as "the column is not 1". -/
def notOne : Interpretation ℤ where
  operand _ _ := ⊥
  predicate _ row := some (row colInt ≠ (1 : ℤ))
  cmpOther _ _ := none

/-- `c = 1 AND f(c)`: the conjunct without an interval is dropped, harmlessly. -/
theorem pciIntervalFromScalarExpr_sound_and :
    let e : ScalarExpr ℤ :=
      .boolOp .and [.cmp .eq (.ident colInt) (.const (2 : ℤ)), .other 0 [colInt]]
    ∃ pci, pciIntervalFromScalarExpr true colInt e false = .ok (some pci) ∧
      ((e.eval notOne fun _ => (2 : ℤ)).holds false → pci.admits (2 : ℤ)) := by
  refine ⟨⟨colInt, [CRange.ofCmp .eq (2 : ℤ)], false⟩, by decide +kernel, fun h => ?_⟩
  exact pciIntervalFromScalarExpr_sound true colInt
    (.boolOp .and [.cmp .eq (.ident colInt) (.const (2 : ℤ)), .other 0 [colInt]]) false
    (by simp [ScalarExpr.usedColumns, ScalarExpr.usedColumnsAll, ScalarOperand.usedColumns])
    (by decide +kernel) (by decide +kernel) notOne (fun _ => (2 : ℤ)) h

/-- Where the derivation fails. `NOT (c = 1 AND f(c))` is true at `1` when `f(1)` is false, and
    excludes `1`; `c <> ANY (1, 2)` is true at `1` and excludes it; `c IN (1, NULL)`, `c < NULL`
    and the constant NULL are unknown at `2` and exclude it when unknown rows are kept. -/
theorem pciIntervalFromScalarExpr_unsound :
    let fails (e : ScalarExpr ℤ) (m : Bool) (v : ℤ) : Prop :=
      ∃ pci, pciIntervalFromScalarExpr true colInt e m = .ok (some pci) ∧
        (e.eval notOne fun _ => (v : Datum ℤ)).holds m ∧ ¬ pci.admits v
    fails (.boolOp .not [.boolOp .and [.cmp .eq (.ident colInt) (.const (1 : ℤ)),
      .other 0 [colInt]]]) false 1 ∧
    fails (.arrayCmp .any .neq (.ident colInt) false [.const (1 : ℤ), .const (2 : ℤ)]) false 1 ∧
    fails (.arrayCmp .any .eq (.ident colInt) false [.const (1 : ℤ), .const ⊥]) true 2 ∧
    fails (.cmp .l (.ident colInt) (.const ⊥)) true 2 ∧
    fails (.const none) true 2 := by
  refine ⟨⟨⟨colInt, [⟨none, .excluded, some (1 : ℤ), .excluded⟩,
      ⟨some (1 : ℤ), .excluded, none, .excluded⟩], false⟩, by decide +kernel, by decide +kernel, ?_⟩,
    ⟨⟨colInt, notInRanges none [(1 : ℤ), (2 : ℤ)], false⟩, by decide +kernel, by decide +kernel, ?_⟩,
    ⟨⟨colInt, [CRange.ofCmp .eq (1 : ℤ)], true⟩, by decide +kernel, by decide +kernel, ?_⟩,
    ⟨⟨colInt, [CRange.ofCmp .l ⊥], true⟩, by decide +kernel, by decide +kernel, ?_⟩,
    ⟨⟨colInt, [], false⟩, by decide +kernel, by decide +kernel, ?_⟩⟩
  all_goals rw [admits_coe]
  all_goals simp [CRange.mem_members, notInRanges, CRange.ofCmp]

end Examples

end CConstraintInterval

end BossOptimizer

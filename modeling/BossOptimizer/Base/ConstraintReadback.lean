import BossOptimizer.Base.IntervalReadback

/-!
# Reading written constraints back

A constraint on one column is an interval below connectives with one child and negations. Its text
always comes back as an interval on the column, and on every value but NULL it says what the
constraint says. NULL is another matter: the negation of a connective is written as a NOT, and a NOT
is read in the other null mode, where a comparison takes NULL in.
-/

namespace BossOptimizer

open CConstraintInterval (admits_bot reading readingHead Readable readable_const
  readable_pexprConjDisj readable_pexprNegate readsNullList readsNullListAny)

variable {D : Type} [LinearOrder D] {fArrayConstraints : Bool} {colref : CColRef}

namespace CConstraint

/-! ## The NULL that is lost -/

mutual

/-- Read in the given null mode, the text of the constraint answers that mode on NULL, whatever
    the constraint says: a comparison, below an odd number of NOTs in the mode of a predicate.
    The cases are those of `pexprScalar`. -/
def losesNull (inferNullsAs : Bool) : CConstraint D → Bool
  | .interval pci => inferNullsAs && pci.comparesNull
  | .conjunction l => !fContradictionAny l && losesNullAny inferNullsAs l
  | .disjunction l => !fContradictionAll l && losesNullAny inferNullsAs l
  | .negation (.negation c) => losesNull inferNullsAs c
  | .negation (.interval pci) =>
    match pci.pciComplement with
    | .ok pci => inferNullsAs && pci.comparesNull
    | .error _ => false
  | .negation c => losesNull (!inferNullsAs) c

def losesNullAny (inferNullsAs : Bool) : List (CConstraint D) → Bool
  | [] => false
  | c :: l => losesNull inferNullsAs c || losesNullAny inferNullsAs l

end

/-! ## Constraints on one column -/

/-- The constraints on one column, by the cases of `pexprScalar`. -/
inductive SingleColumn (colref : CColRef) : CConstraint D → Prop
  | interval {pci : CConstraintInterval (Datum D)} (hwf : pci.WellFormed) (hcol : pci.pcr = colref) :
    SingleColumn colref (.interval pci)
  | conjunction {c : CConstraint D} (h : SingleColumn colref c) :
    SingleColumn colref (.conjunction [c])
  | disjunction {c : CConstraint D} (h : SingleColumn colref c) :
    SingleColumn colref (.disjunction [c])
  | notInterval {pci : CConstraintInterval (Datum D)} (hwf : pci.WellFormed)
    (hcol : pci.pcr = colref) : SingleColumn colref (.negation (.interval pci))
  | notNot {c : CConstraint D} (h : SingleColumn colref c) :
    SingleColumn colref (.negation (.negation c))
  | notConjunction {c : CConstraint D} (h : SingleColumn colref (.conjunction [c])) :
    SingleColumn colref (.negation (.conjunction [c]))
  | notDisjunction {c : CConstraint D} (h : SingleColumn colref (.disjunction [c])) :
    SingleColumn colref (.negation (.disjunction [c]))

attribute [local simp] losesNull losesNullAny in
/-- A well-formed connective on one column has one child. -/
theorem WellFormed.singleColumn_and_negation {c : CConstraint D} (hwf : c.WellFormed)
    (hon : c.OnColumn colref) : SingleColumn colref c ∧ SingleColumn colref (.negation c) := by
  induction c using CConstraint.induction with
  | interval pci =>
    cases hwf with
    | interval hord _ =>
      have hcol : pci.pcr = colref := hon _ (by simp [columns])
      exact ⟨.interval hord hcol, .notInterval hord hcol⟩
  | conjunction l ih =>
    cases hwf with
    | conjunction _ hwf hone =>
      obtain ⟨child, rfl⟩ := List.length_eq_one_iff.1
        (hone colref fun c hc => OnColumn.child hon hc)
      have hchild := (ih child (by simp) (hwf child (by simp)) (OnColumn.child hon (by simp))).1
      exact ⟨.conjunction hchild, .notConjunction (.conjunction hchild)⟩
  | disjunction l ih =>
    cases hwf with
    | disjunction _ hwf hone =>
      obtain ⟨child, rfl⟩ := List.length_eq_one_iff.1
        (hone colref fun c hc => OnColumn.child hon hc)
      have hchild := (ih child (by simp) (hwf child (by simp)) (OnColumn.child hon (by simp))).1
      exact ⟨.disjunction hchild, .notDisjunction (.disjunction hchild)⟩
  | negation c ih =>
    cases hwf with
    | negation hwf =>
      obtain ⟨hc, hneg⟩ := ih hwf hon
      exact ⟨hneg, .notNot hc⟩

theorem WellFormed.singleColumn {c : CConstraint D} (hwf : c.WellFormed)
    (hon : c.OnColumn colref) : SingleColumn colref c :=
  (hwf.singleColumn_and_negation hon).1

/-- The text reads back in every null mode, and says what the constraint says but for the NULL it
    loses. -/
def ReadsBack (fArrayConstraints : Bool) (colref : CColRef) (c : CConstraint D)
    (e : ScalarExpr D) : Prop :=
  Readable fArrayConstraints colref e ∧ ∀ m v, reading fArrayConstraints colref m e v ↔
    if v = ⊥ ∧ c.losesNull m = true then m = true else c.satOn v

theorem readsBack_interval {pci : CConstraintInterval (Datum D)} {e : ScalarExpr D}
    (h : pci.WritesOut fArrayConstraints e) :
    ReadsBack fArrayConstraints pci.pcr (.interval pci) e := by
  refine ⟨h.1, fun m v => (h.2 m v).trans ?_⟩
  rw [losesNull]
  cases m with
  | true => simp [satOn, sat]
  | false =>
    by_cases hlost : v = ⊥ ∧ pci.comparesNull = true
    · obtain ⟨rfl, hcompares⟩ := hlost
      simp only [CConstraintInterval.comparesNull, Bool.and_eq_true, Bool.not_eq_true'] at hcompares
      simp [satOn, sat, admits_bot, hcompares.1.1]
    · simp [hlost, satOn, sat]

/-- A connective with one child, not written as a contradiction, has the text of the child. -/
theorem readsBack_single (hc : colref.fConstrainable = true) (fConj : Bool) {c c' : CConstraint D}
    {e : ScalarExpr D} (h : ReadsBack fArrayConstraints colref c e)
    (hloses : ∀ m, c'.losesNull m = c.losesNull m) (hsat : ∀ v, c'.satOn v ↔ c.satOn v) :
    ReadsBack fArrayConstraints colref c' (pexprConjDisj fConj [e]) := by
  have hread : ∀ e' ∈ [e], Readable fArrayConstraints colref e' := by simpa using h.1
  refine ⟨readable_pexprConjDisj hc fConj hread, fun m v => ?_⟩
  rw [reading_pexprConjDisj fConj m fun e he => (hread e he).converts, hloses, hsat, ← h.2 m v]
  cases fConj <;> simp [joined]

theorem readsBack_contradiction (hc : colref.fConstrainable = true) {c : CConstraint D}
    (hloses : ∀ m, c.losesNull m = false) (hcon : c.fContradiction = true) :
    ReadsBack fArrayConstraints colref c (.const (some false)) := by
  refine ⟨readable_const hc false, fun m v => ?_⟩
  have hsat : ¬ c.satOn v := (sat_of_flags c _).1 hcon
  simp [reading, hloses, hsat]

theorem readsBack_negation (hc : colref.fConstrainable = true) {c : CConstraint D}
    {e : ScalarExpr D} (h : ReadsBack fArrayConstraints colref c e)
    (hloses : ∀ m, (negation c).losesNull m = c.losesNull (!m)) :
    ReadsBack fArrayConstraints colref (.negation c) (pexprNegate e) := by
  refine ⟨readable_pexprNegate hc h.1, fun m v => ?_⟩
  rw [pexprNegate, reading, readingHead, h.2, hloses]
  split
  · cases m <;> simp
  · simp [satOn, sat]

/-- **A constraint on one column is always written, and its text reads back.** -/
theorem SingleColumn.readsBack (fArrayConstraints : Bool) (hc : colref.fConstrainable = true)
    {c : CConstraint D} (h : SingleColumn colref c) :
    ∃ e, c.pexprScalar fArrayConstraints = .ok e ∧ ReadsBack fArrayConstraints colref c e := by
  induction h with
  | @interval pci hwf hcol =>
    subst hcol
    obtain ⟨e, he, hwrites⟩ := CConstraintInterval.pexprScalar_writesOut fArrayConstraints hwf hc
    exact ⟨e, by rw [pexprScalar, he], readsBack_interval hwrites⟩
  | @conjunction c _ ih =>
    obtain ⟨e, he, hback⟩ := ih
    rw [pexprScalar]
    split
    · next hcon =>
      exact ⟨_, rfl, readsBack_contradiction hc (fun m => by rw [losesNull, hcon]; rfl) hcon⟩
    · next hcon =>
      refine ⟨_, by rw [pexprScalars, he]; rfl, readsBack_single hc true hback (fun m => ?_)
        fun v => by simp [satOn, sat]⟩
      simp [losesNull, losesNullAny, hcon]
  | @disjunction c _ ih =>
    obtain ⟨e, he, hback⟩ := ih
    rw [pexprScalar]
    split
    · next hcon =>
      exact ⟨_, rfl, readsBack_contradiction hc (fun m => by rw [losesNull, hcon]; rfl) hcon⟩
    · next hcon =>
      refine ⟨_, by rw [pexprScalars, he]; rfl, readsBack_single hc false hback (fun m => ?_)
        fun v => by simp [satOn, sat]⟩
      simp [losesNull, losesNullAny, hcon]
  | @notInterval pci hwf hcol =>
    subst hcol
    obtain ⟨K, hK, hKwf, hKcol, hKmem⟩ := CConstraintInterval.pciComplement_returns hwf hc
    obtain ⟨e, he, hwrites⟩ := CConstraintInterval.pexprScalar_writesOut fArrayConstraints hKwf
      (hKcol ▸ hc)
    obtain ⟨hread, hback⟩ := readsBack_interval hwrites
    rw [hKcol] at hread hback
    refine ⟨e, by rw [pexprScalar, hK, ok_bind, he], hread, fun m v => (hback m v).trans ?_⟩
    have hsat : (CConstraint.interval K).satOn v ↔
        (CConstraint.negation (.interval pci)).satOn v := by
      simp [satOn, sat, CConstraintInterval.admits, hKmem]
    rw [hsat, losesNull, losesNull, hK]
  | @notNot c _ ih =>
    obtain ⟨e, he, hread, hback⟩ := ih
    refine ⟨e, by rw [pexprScalar, he], hread, fun m v => (hback m v).trans ?_⟩
    have hsat : (CConstraint.negation (.negation c)).satOn v ↔ c.satOn v := by
      simp [satOn, sat]
    rw [losesNull, hsat]
  | @notConjunction c _ ih =>
    obtain ⟨e, he, hback⟩ := ih
    have hneg : pexprScalar fArrayConstraints (.negation (.conjunction [c])) =
        pexprNegate <$> pexprScalar fArrayConstraints (.conjunction [c]) := by
      simp only [pexprScalar]
    exact ⟨_, by rw [hneg, he]; rfl,
      readsBack_negation hc hback fun m => by simp only [losesNull]⟩
  | @notDisjunction c _ ih =>
    obtain ⟨e, he, hback⟩ := ih
    have hneg : pexprScalar fArrayConstraints (.negation (.disjunction [c])) =
        pexprNegate <$> pexprScalar fArrayConstraints (.disjunction [c]) := by
      simp only [pexprScalar]
    exact ⟨_, by rw [hneg, he]; rfl,
      readsBack_negation hc hback fun m => by simp only [losesNull]⟩

/-- The texts of a list of constraints on one column. -/
theorem pexprScalars_readsBack (fArrayConstraints : Bool) (hc : colref.fConstrainable = true)
    {l : List (CConstraint D)} (h : ∀ c ∈ l, SingleColumn colref c) :
    ∃ es, pexprScalars fArrayConstraints l = .ok es ∧
      List.Forall₂ (ReadsBack fArrayConstraints colref) l es := by
  induction l with
  | nil => exact ⟨[], rfl, .nil⟩
  | cons c l ih =>
    obtain ⟨e, he, hback⟩ := (h c (by simp)).readsBack fArrayConstraints hc
    obtain ⟨es, hes, hrest⟩ := ih fun c hc => h c (by simp [hc])
    exact ⟨e :: es, by rw [pexprScalars, he, ok_bind, hes]; rfl, .cons hback hrest⟩

/-- The text of their connective. -/
theorem pexprConjDisj_readsBack (hc : colref.fConstrainable = true) (fConj : Bool)
    {l : List (CConstraint D)} {es : List (ScalarExpr D)}
    (h : List.Forall₂ (ReadsBack fArrayConstraints colref) l es) :
    Readable fArrayConstraints colref (pexprConjDisj fConj es) ∧
      ∀ v, reading fArrayConstraints colref false (pexprConjDisj fConj es) v ↔
        joined fConj l fun c => c.satOn v ∧ ¬ (v = ⊥ ∧ c.losesNull false = true) := by
  have hread : ∀ e ∈ es, Readable fArrayConstraints colref e := by
    intro e he
    obtain ⟨c, -, hback⟩ := exists_of_forall₂_right h he
    exact hback.1
  refine ⟨readable_pexprConjDisj hc fConj hread, fun v => ?_⟩
  rw [reading_pexprConjDisj fConj false fun e he => (hread e he).converts]
  refine (joined_of_forall₂ h fConj fun c e hback => ?_).symm
  rw [hback.2]
  split
  · next hlost => simp [hlost]
  · next hlost => simp [hlost]

/-! ## Without array comparisons -/

theorem readsNullList_pexprScalars {l : List (CConstraint D)}
    (h : ∀ c ∈ l, ∀ e, c.pexprScalar false = .ok e → readsNullList e = false)
    {es : List (ScalarExpr D)} (hes : pexprScalars false l = .ok es) :
    ∀ e ∈ es, readsNullList e = false := by
  induction l generalizing es with
  | nil => cases hes; simp
  | cons c l ih =>
    simp only [pexprScalars, bind_eq_ok, pure_eq_ok] at hes
    obtain ⟨e, he, es', hes', rfl⟩ := hes
    simp only [List.mem_cons, forall_eq_or_imp]
    exact ⟨h c (by simp) e he, ih (fun c hc => h c (by simp [hc])) hes'⟩

/-- The text of a constraint has no array comparison when the trace flag is off. -/
theorem readsNullList_pexprScalar_and_negation (c : CConstraint D) :
    (∀ e, c.pexprScalar false = .ok e → readsNullList e = false) ∧
      ∀ e, (negation c).pexprScalar false = .ok e → readsNullList e = false := by
  have hnegate : ∀ {x : Except Fault (ScalarExpr D)} {e},
      (∀ e, x = .ok e → readsNullList e = false) → pexprNegate <$> x = .ok e →
      readsNullList e = false := by
    rintro x e hx he
    obtain ⟨e', he', rfl⟩ := map_eq_ok.1 he
    simp [pexprNegate, readsNullList, readsNullListAny, hx e' he']
  induction c using CConstraint.induction with
  | interval pci =>
    refine ⟨fun e he => CConstraintInterval.readsNullList_pexprScalar (by rwa [pexprScalar] at he),
      fun e he => ?_⟩
    simp only [pexprScalar, bind_eq_ok] at he
    obtain ⟨K, -, he⟩ := he
    exact CConstraintInterval.readsNullList_pexprScalar he
  | conjunction l ih =>
    have hc : ∀ e, (conjunction l).pexprScalar false = .ok e → readsNullList e = false := by
      intro e he
      rw [pexprScalar] at he
      split at he
      · cases he; rfl
      · obtain ⟨es, hes, rfl⟩ := map_eq_ok.1 he
        exact CConstraintInterval.readsNullList_pexprConjDisj true
          (readsNullList_pexprScalars (fun c hc => (ih c hc).1) hes)
    exact ⟨hc, fun e he => hnegate hc (by simpa only [pexprScalar] using he)⟩
  | disjunction l ih =>
    have hc : ∀ e, (disjunction l).pexprScalar false = .ok e → readsNullList e = false := by
      intro e he
      rw [pexprScalar] at he
      split at he
      · cases he; rfl
      · obtain ⟨es, hes, rfl⟩ := map_eq_ok.1 he
        exact CConstraintInterval.readsNullList_pexprConjDisj false
          (readsNullList_pexprScalars (fun c hc => (ih c hc).1) hes)
    exact ⟨hc, fun e he => hnegate hc (by simpa only [pexprScalar] using he)⟩
  | negation c ih => exact ⟨ih.2, fun e he => ih.1 e (by rwa [pexprScalar] at he)⟩

end CConstraint

end BossOptimizer

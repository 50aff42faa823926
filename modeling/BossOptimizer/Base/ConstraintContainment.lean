import BossOptimizer.Base.ConstraintColumn

/-!
# Containment: `CConstraint::Contains` and `CConstraint::Equals` (CConstraint.cpp:898-983)

Containment is decided one column at a time: the part of the receiver on the column has to
contain the part of the argument. That is enough when the receiver accepts every row whose
columns are accepted by its parts (`Separable`), and for no other receiver: the point of such a
row, as a conjunction of equalities, is contained according to the code, and not in fact.
-/

namespace BossOptimizer

open CConstraintInterval (admits admits_bot admits_coe cover fContainsInterval_iff_cover)

variable {D : Type} [LinearOrder D] {fArrayConstraints : Bool} {colref : CColRef}

namespace CConstraint

/-- The interval of a constraint on a column. -/
def IntervalOn (fArrayConstraints : Bool) (c : CConstraint D) (colref : CColRef)
    (pci : CConstraintInterval (Datum D)) : Prop :=
  ∃ part, c.pcnstr fArrayConstraints colref = .ok part ∧
    pciIntervalFromConstraint fArrayConstraints part colref = .ok (some pci)

theorem IntervalOn.wellFormed {c : CConstraint D} (hwf : c.WellFormed)
    {pci : CConstraintInterval (Datum D)} (h : IntervalOn fArrayConstraints c colref pci) :
    pci.WellFormed := by
  obtain ⟨part, hpart, h⟩ := h
  unfold pciIntervalFromConstraint at h
  split at h
  · exact (CConstraintInterval.pciUnbounded_wellFormed (Except.ok.inj h)).1
  · cases h
    cases (pcnstr_within hwf hpart).1 with
    | interval hord _ => exact hord
  · simp only [bind_eq_ok] at h
    obtain ⟨e, -, h⟩ := h
    exact (CConstraintInterval.exact_reading _ _ _ h).1

/-- The interval made from a regular constraint on the column. -/
theorem pciIntervalFromConstraint_admits {c : CConstraint D} (hwf : Within {colref} c)
    (hreg : c.Regular) {pci : CConstraintInterval (Datum D)}
    (h : pciIntervalFromConstraint fArrayConstraints (some c) colref = .ok (some pci))
    (row : Row D) : pci.admits (row colref) ↔ c.sat row := by
  obtain ⟨hwf, hon⟩ := hwf
  unfold pciIntervalFromConstraint at h
  split at h
  · next heq => cases heq
  · next pci' heq =>
    cases heq
    cases h
    have hcol : pci.pcr = colref := hon _ (by simp [columns])
    rw [sat, hcol]
  · next heq =>
    cases heq
    simp only [bind_eq_ok] at h
    obtain ⟨e, he, h⟩ := h
    have hd := pexprScalar_describes hreg hwf hon he
    rw [(CConstraintInterval.exact_reading _ _ _ h).2.2, hd.2, sat_iff_satOn hon]

/-- The interval of a constraint on a column accepts the column of every accepted row. -/
theorem IntervalOn.admits {c : CConstraint D} (hwf : c.WellFormed)
    {pci : CConstraintInterval (Datum D)} (h : IntervalOn fArrayConstraints c colref pci)
    {row : Row D} (hrow : c.sat row) : pci.admits (row colref) := by
  obtain ⟨part, hpart, h⟩ := h
  cases part with
  | none =>
    have hsat := pciUnbounded_sat (Except.ok.inj h) row
    rwa [sat, (CConstraintInterval.pciUnbounded_wellFormed (Except.ok.inj h)).2.1] at hsat
  | some c' =>
    rw [pciIntervalFromConstraint_admits (pcnstr_within hwf hpart) (pcnstr_regular hwf hpart) h]
    exact (pcnstr_partOf hwf hpart row).1 hrow c' rfl

/-- A row is accepted as soon as each of its columns is accepted by the part on that column. -/
def Separable (fArrayConstraints : Bool) (c : CConstraint D) : Prop :=
  ∀ row : Row D, (∀ colref ∈ c.pcrsUsed, ∃ part pci,
    c.pcnstr fArrayConstraints colref = .ok (some part) ∧
    pciIntervalFromConstraint fArrayConstraints (some part) colref = .ok (some pci) ∧
    pci.admits (row colref)) → c.sat row

/-- So are conjunctions of constraints on one column each. -/
theorem separable_conjunction {l : List (CConstraint D)} (hwf : (conjunction l).WellFormed)
    (hon : ∀ c ∈ l, ∃ colref, c.OnColumn colref) :
    (conjunction l).Separable fArrayConstraints := by
  intro row hrow
  rw [sat, satAll_iff]
  intro c hc
  have hwf' := hwf
  cases hwf with
  | conjunction _ hwfl _ =>
    obtain ⟨colref, hon⟩ := hon c hc
    have hmem := (hwfl c hc).mem_columns hon
    have hall : colref ∈ columnsAll l := mem_columnsAll.2 ⟨c, hc, hmem⟩
    obtain ⟨part, pci, hpart, hpci, hadm⟩ := hrow colref (mem_pcrsUsed.2 hall)
    have hsat := (pciIntervalFromConstraint_admits (pcnstr_within hwf' hpart)
      (pcnstr_regular hwf' hpart) hpci row).1 hadm
    rw [pcnstr, if_pos hall] at hpart
    simp only [bind_eq_ok] at hpart
    obtain ⟨kept, hkept, hpart⟩ := hpart
    have hk := (pcnstr_conjunction_sat row hwfl hkept hpart).1 (by simpa using hsat)
    exact (conjunctionOn_sat (fun c hc o ho => pcnstr_partOf (hwfl c hc) ho row) hkept).2 hk c hc
      hon hmem

/-! ## Containment is sound for separable receivers -/

theorem containsLoop_eq_true {A B : CConstraint D} {cols : List CColRef}
    (h : containsLoop fArrayConstraints A B cols = .ok true) :
    ∀ colref ∈ cols, ∃ part pciA pciB, A.pcnstr fArrayConstraints colref = .ok (some part) ∧
      pciIntervalFromConstraint fArrayConstraints (some part) colref = .ok (some pciA) ∧
      IntervalOn fArrayConstraints B colref pciB ∧ pciA.fContainsInterval pciB = .ok true := by
  induction cols with
  | nil => simp
  | cons colref rest ih =>
    simp only [containsLoop, bind_eq_ok] at h
    obtain ⟨partA, hpartA, partB, hpartB, pciA, hpciA, pciB, hpciB, h⟩ := h
    split at h
    · simp only [bind_eq_ok] at h
      obtain ⟨b, hb, h⟩ := h
      split at h
      · next htrue =>
        subst htrue
        intro x hx
        rcases List.mem_cons.1 hx with rfl | hx
        · exact ⟨_, _, _, hpartA, hpciA, ⟨partB, hpartB, hpciB⟩, hb⟩
        · exact ih h x hx
      · cases h
    · cases h

/-- An interval that contains another one accepts every value that one accepts. -/
theorem admits_of_fContainsInterval {I J : CConstraintInterval (Datum D)} (hI : I.WellFormed)
    (hJ : J.WellFormed) (h : I.fContainsInterval J = .ok true) {v : Datum D} (hv : J.admits v) :
    I.admits v := by
  obtain ⟨b, hb, hiff⟩ := fContainsInterval_iff_cover hI hJ
  obtain rfl : b = true := Except.ok.inj (hb.symm.trans h)
  obtain ⟨hnull, hcov, -⟩ := hiff.1 rfl
  cases v using WithBot.recBotCoe with
  | bot => exact (admits_bot I).2 (hnull ((admits_bot J).1 hv))
  | coe v => exact (admits_coe I v).2 (hcov ((admits_coe J v).1 hv))

theorem sat_of_contains {A B : CConstraint D} (hA : A.WellFormed)
    (hsep : A.Separable fArrayConstraints) (hB : B.WellFormed)
    (h : A.contains fArrayConstraints (some B) = .ok true) {row : Row D} (hrow : B.sat row) :
    A.sat row := by
  unfold contains at h
  split at h
  · next hunb => exact (sat_of_flags A row).2 hunb
  · simp only at h
    split at h
    · cases h
    · refine hsep row fun colref hcol => ?_
      obtain ⟨part, pciA, pciB, hpart, hpciA, hpciB, hcont⟩ := containsLoop_eq_true h colref hcol
      refine ⟨part, pciA, hpart, hpciA, ?_⟩
      exact admits_of_fContainsInterval (IntervalOn.wellFormed hA ⟨_, hpart, hpciA⟩)
        (hpciB.wellFormed hB) hcont (hpciB.admits hB hrow)

/-! ## And for no other receiver -/

/-- The interval of one value. -/
def pointInterval (colref : CColRef) (v : Datum D) : CConstraintInterval (Datum D) :=
  if v = ⊥ then ⟨colref, [], true⟩ else ⟨colref, [CRange.ofCmp .eq v], false⟩

theorem pointInterval_wellFormed (colref : CColRef) (v : Datum D) :
    (pointInterval colref v).WellFormed := by
  unfold pointInterval
  split
  · exact CConstraintInterval.ordered_nil
  · simp [CConstraintInterval.WellFormed, CConstraintInterval.ordered_cons, CRange.wellFormed_iff,
      CRange.ofCmp]

@[simp] theorem pointInterval_pcr (colref : CColRef) (v : Datum D) :
    (pointInterval colref v).pcr = colref := by
  unfold pointInterval
  split <;> rfl

theorem pointInterval_bounded (colref : CColRef) (v : Datum D) :
    (pointInterval colref v).isConstraintUnbounded = false := by
  unfold pointInterval
  split <;> rfl

theorem pointInterval_admits (colref : CColRef) (v : Datum D) :
    (pointInterval colref v).admits v := by
  cases v using WithBot.recBotCoe with
  | bot => simp [pointInterval, admits_bot]
  | coe v => simp [pointInterval, admits_coe, CRange.mem_members, CRange.ofCmp]

/-- An interval contains the point of a value it accepts. -/
theorem fContainsInterval_point (colref : CColRef) {I : CConstraintInterval (Datum D)} (hI : I.WellFormed)
    {v : Datum D} (hv : I.admits v) :
    I.fContainsInterval (pointInterval colref v) = .ok true := by
  obtain ⟨b, hb, hiff⟩ := fContainsInterval_iff_cover hI (pointInterval_wellFormed colref v)
  rw [hb, hiff.2]
  rw [pointInterval_bounded]
  cases v using WithBot.recBotCoe with
  | bot => simpa [pointInterval] using (admits_bot I).1 hv
  | coe v =>
    have hmem : Cut.before (v : Datum D) ∈ cover I.pdrgprng := (admits_coe I v).1 hv
    refine ⟨by simp [pointInterval], ?_, by simp⟩
    simpa [pointInterval, CRange.ofCmp, CRange.lo, CRange.hi, Cut.Ico_before_after] using hmem

/-- The row as a constraint on the given columns. -/
def pointConstraint (cols : List CColRef) (row : Row D) : CConstraint D :=
  .conjunction (cols.map fun colref => .interval (pointInterval colref (row colref)))

theorem conjunctionOn_point {cols : List CColRef} (hnd : cols.Nodup) (row : Row D) :
    conjunctionOn fArrayConstraints colref
        (cols.map fun colref => .interval (pointInterval colref (row colref))) =
      .ok (if colref ∈ cols then [.interval (pointInterval colref (row colref))] else []) := by
  induction cols with
  | nil => rfl
  | cons c cols ih =>
    obtain ⟨hc, hrest⟩ := List.nodup_cons.1 hnd
    rw [List.map_cons, conjunctionOn]
    by_cases hcol : colref = c
    · subst hcol
      rw [if_pos (by simp [columns])]
      simp [pcnstr, isConstraintUnbounded, pointInterval_bounded, ih hrest, hc]
    · rw [if_neg (by simpa [columns] using hcol), ih hrest]
      simp [hcol]

theorem intervalOn_point (fArrayConstraints : Bool) {cols : List CColRef} (hnd : cols.Nodup) (hcol : colref ∈ cols)
    (row : Row D) : (pointConstraint cols row).pcnstr fArrayConstraints colref =
      .ok (some (.interval (pointInterval colref (row colref)))) := by
  have hmem : colref ∈ columnsAll (cols.map fun colref =>
      CConstraint.interval (pointInterval colref (row colref))) := by
    rw [mem_columnsAll]
    exact ⟨_, List.mem_map.2 ⟨colref, hcol, rfl⟩, by simp [columns]⟩
  rw [pointConstraint, pcnstr, if_pos hmem, conjunctionOn_point hnd, if_pos hcol]
  rfl

theorem pointConstraint_sat (cols : List CColRef) (row : Row D) :
    (pointConstraint cols row).sat row := by
  simp [pointConstraint, sat, pointInterval_admits]

omit [LinearOrder D] in
theorem pcrsUsed_nodup (c : CConstraint D) : c.pcrsUsed.Nodup := by
  rw [pcrsUsed, (List.perm_insertionSort _ _).nodup_iff]
  exact List.nodup_dedup _

theorem pointConstraint_wellFormed {A : CConstraint D} (hA : A.WellFormed) (row : Row D) :
    (pointConstraint A.pcrsUsed row).WellFormed := by
  obtain ⟨x, hx⟩ := hA.exists_column
  have hx := mem_pcrsUsed.2 hx
  refine .conjunction ?_ (fun c hc => ?_) fun colref hon => ?_
  · exact List.ne_nil_of_mem (List.mem_map.2 ⟨x, hx, rfl⟩)
  · obtain ⟨colref, hcol, rfl⟩ := List.mem_map.1 hc
    refine .interval (pointInterval_wellFormed _ _) ?_
    rw [pointInterval_pcr]
    exact hA.fConstrainable (mem_pcrsUsed.1 hcol)
  · -- distinct columns that are all the same
    have hsame : ∀ y ∈ A.pcrsUsed, y = colref := fun y hy =>
      hon _ (List.mem_map.2 ⟨y, hy, rfl⟩) y (by simp [columns])
    obtain rfl := hsame x hx
    rw [List.length_map, eq_singleton_of_nodup A.pcrsUsed_nodup hx hsame]
    rfl

/-- A receiver whose parts accept the columns of a row is said to contain the row. -/
theorem contains_point {A : CConstraint D} (hA : A.WellFormed) {row : Row D}
    (h : ∀ colref ∈ A.pcrsUsed, ∃ part pci, A.pcnstr fArrayConstraints colref = .ok (some part) ∧
      pciIntervalFromConstraint fArrayConstraints (some part) colref = .ok (some pci) ∧
      pci.admits (row colref)) :
    A.contains fArrayConstraints (some (pointConstraint A.pcrsUsed row)) = .ok true := by
  have hloop : ∀ cols, (∀ colref ∈ cols, colref ∈ A.pcrsUsed) →
      containsLoop fArrayConstraints A (pointConstraint A.pcrsUsed row) cols = .ok true := by
    intro cols
    induction cols with
    | nil => intro _; rfl
    | cons colref rest ih =>
      intro hcols
      obtain ⟨part, pci, hpart, hpci, hadm⟩ := h colref (hcols colref (by simp))
      have hwf := IntervalOn.wellFormed hA ⟨_, hpart, hpci⟩
      have hpoint := intervalOn_point fArrayConstraints A.pcrsUsed_nodup
        (hcols colref (by simp)) row
      have hcont := fContainsInterval_point colref hwf hadm
      have hrest := ih fun x hx => hcols x (by simp [hx])
      simp only [containsLoop, bind_eq_ok]
      refine ⟨_, hpart, _, hpoint, _, hpci, _, rfl, ?_⟩
      simp only [bind_eq_ok]
      exact ⟨true, hcont, by simpa using hrest⟩
  unfold contains
  split
  · rfl
  · exact hloop _ fun _ hx => hx

/-- **`Contains` is right for a receiver exactly when the receiver is separable**, whatever
    constraint it is asked about, and `Equals` is right between separable constraints. -/
theorem contains_sound_iff (fArrayConstraints : Bool) (A : CConstraint D) (hA : A.WellFormed) :
    ((∀ B : CConstraint D, B.WellFormed → A.contains fArrayConstraints (some B) = .ok true →
        ∀ row, B.sat row → A.sat row) ↔ A.Separable fArrayConstraints) ∧
    (A.Separable fArrayConstraints → ∀ B : CConstraint D, B.WellFormed →
      B.Separable fArrayConstraints → A.equals fArrayConstraints (some B) = .ok true →
      ∀ row, A.sat row ↔ B.sat row) := by
  refine ⟨⟨fun h row hrow => ?_, fun hsep B hB h row hrow => ?_⟩, ?_⟩
  · exact h (pointConstraint A.pcrsUsed row) (pointConstraint_wellFormed hA row)
      (contains_point hA hrow) row (pointConstraint_sat _ _)
  · exact sat_of_contains hA hsep hB h hrow
  · intro hsepA B hB hsepB h row
    simp only [equals] at h
    split at h
    · next hunb =>
      have hA' : A.isConstraintUnbounded = true := Except.ok.inj h
      exact iff_of_true ((sat_of_flags A row).2 hA') ((sat_of_flags B row).2 hunb)
    · simp only [bind_eq_ok] at h
      obtain ⟨b, hb, h⟩ := h
      split at h
      · next htrue =>
        subst htrue
        exact ⟨fun hs => sat_of_contains hB hsepB hA h hs,
          fun hs => sat_of_contains hA hsepA hB hb hs⟩
      · cases h

section Examples

/-- Two integer columns. -/
def colA : CColRef := ⟨1, true, true, true⟩

def colB : CColRef := ⟨2, true, true, true⟩

/-- `c = d` as a constraint. -/
def equalTo (colref : CColRef) (d : ℤ) : CConstraint ℤ :=
  .interval ⟨colref, [CRange.ofCmp .eq (d : Datum ℤ)], false⟩

/-- `a = d AND b = e`. -/
def point (d e : ℤ) : CConstraint ℤ := .conjunction [equalTo colA d, equalTo colB e]

/-- The row with `a = d` and `b = e`. -/
def rowOf (d e : Datum ℤ) : Row ℤ := fun colref => if colref = colA then d else e

theorem equalTo_sat (colref : CColRef) (d : ℤ) (row : Row ℤ) :
    (equalTo colref d).sat row ↔ row colref = d := by
  rw [equalTo, sat]
  cases row colref using WithBot.recBotCoe with
  | bot => simp [admits_bot]
  | coe v =>
    simp only [admits_coe, List.mem_singleton, exists_eq_left, CRange.mem_members, CRange.ofCmp,
      Option.some.injEq, forall_eq', WithBot.coe_lt_coe, WithBot.coe_inj]
    grind

theorem point_sat (d e d' e' : ℤ) : (point d e).sat (rowOf d' e') ↔ d' = d ∧ e' = e := by
  simp [point, sat, equalTo_sat, rowOf, colA, colB]

theorem equalTo_wellFormed {colref : CColRef} (hc : colref.fConstrainable = true) (d : ℤ) :
    (equalTo colref d).WellFormed := by
  refine .interval ?_ hc
  simp [CConstraintInterval.WellFormed, CConstraintInterval.ordered_cons, CRange.wellFormed_iff,
    CRange.ofCmp]

theorem point_wellFormed (d e : ℤ) : (point d e).WellFormed := by
  refine .conjunction (by simp) (fun c hc => ?_) fun colref hon => ?_
  · rcases List.mem_cons.1 hc with rfl | hc
    · exact equalTo_wellFormed rfl d
    · rw [List.mem_singleton.1 hc]
      exact equalTo_wellFormed rfl e
  · have hA : colA = colref := hon (equalTo colA d) (by simp) _ (by simp [columns, equalTo])
    have hB : colB = colref := hon (equalTo colB e) (by simp) _ (by simp [columns, equalTo])
    exact absurd (hA.trans hB.symm) (by decide)

theorem point_separable (d e : ℤ) : (point d e).Separable true := by
  refine separable_conjunction (point_wellFormed d e) fun c hc => ?_
  rcases List.mem_cons.1 hc with rfl | hc
  · exact ⟨colA, by simp [OnColumn, equalTo, columns]⟩
  · rw [List.mem_singleton.1 hc]
    exact ⟨colB, by simp [OnColumn, equalTo, columns]⟩

/-- `a = 1 AND b = 2` contains itself, built twice. -/
theorem contains_sound_point :
    (point 1 2).contains true (some (point 1 2)) = .ok true ∧
      ∀ row, (point 1 2).sat row → (point 1 2).sat row := by
  have hcont : (point 1 2).contains true (some (point 1 2)) = .ok true := by decide +kernel
  refine ⟨hcont, fun row => ?_⟩
  exact (contains_sound_iff true (point 1 2) (point_wellFormed 1 2)).1.2 (point_separable 1 2)
    (point 1 2) (point_wellFormed 1 2) hcont row

/-- `(a = 1 AND b = 1) OR (a = 2 AND b = 2)` is said to contain `a = 1 AND b = 2`, and to be equal
    to `(a = 1 AND b = 2) OR (a = 2 AND b = 1)`. -/
theorem contains_unsound :
    let diagonal : CConstraint ℤ := .disjunction [point 1 1, point 2 2]
    let antidiagonal : CConstraint ℤ := .disjunction [point 1 2, point 2 1]
    (diagonal.contains true (some (point 1 2)) = .ok true ∧
      (point 1 2).sat (rowOf 1 2) ∧ ¬ diagonal.sat (rowOf 1 2)) ∧
    (diagonal.equals true (some antidiagonal) = .ok true ∧
      antidiagonal.sat (rowOf 1 2) ∧ ¬ diagonal.sat (rowOf 1 2)) := by
  intro diagonal antidiagonal
  have hdiag : ¬ diagonal.sat (rowOf (1 : ℤ) (2 : ℤ)) := by
    simp only [diagonal, sat, satAny_iff, List.mem_cons, List.not_mem_nil, or_false,
      exists_eq_or_imp, exists_eq_left]
    rintro (h | h)
    · exact absurd ((point_sat 1 1 1 2).1 h).2 (by decide)
    · exact absurd ((point_sat 2 2 1 2).1 h).1 (by decide)
  have hpoint : (point 1 2).sat (rowOf (1 : ℤ) (2 : ℤ)) := (point_sat 1 2 1 2).2 ⟨rfl, rfl⟩
  refine ⟨⟨by decide +kernel, hpoint, hdiag⟩, by decide +kernel, ?_, hdiag⟩
  rw [sat, satAny_iff]
  exact ⟨point 1 2, by simp, hpoint⟩

end Examples

end CConstraint

end BossOptimizer

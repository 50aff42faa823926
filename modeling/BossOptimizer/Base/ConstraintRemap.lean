import BossOptimizer.Base.ConstraintColumn

/-!
# Constraints on another column: `PcnstrRemapForColumn`

A set operation restates the part of a child's constraint on an input column for its output column.
The part is an interval below negations and connectives of one child, and so is the restatement.
-/

namespace BossOptimizer

namespace CConstraint

variable {D : Type} [LinearOrder D] (fArrayConstraints : Bool)

mutual

/-- `PcnstrRemapForColumn` of the four classes (`PcnstrConjDisjRemapForColumn`,
    CConstraint.cpp:863). -/
def pcnstrRemapForColumn (colref : CColRef) :
    CConstraint D → Except Fault (Option (CConstraint D))
  | .interval pci => .ok (some (.interval { pci with pcr := colref }))
  | .conjunction l => do pcnstrConjDisj fArrayConstraints true (← remapAll colref l)
  | .disjunction l => do pcnstrConjDisj fArrayConstraints false (← remapAll colref l)
  | .negation c => do
    match ← pcnstrRemapForColumn colref c with
    | some pcnstrChild => return some (.negation pcnstrChild)
    | none => .error .nullDeref

def remapAll (colref : CColRef) : List (CConstraint D) → Except Fault (List (CConstraint D))
  | [] => .ok []
  | c :: l => do
    match ← pcnstrRemapForColumn colref c with
    | some pcnstrChild => return pcnstrChild :: (← remapAll colref l)
    | none => .error .nullDeref

end

variable {fArrayConstraints} {colref colref' : CColRef}

/-- A constraint on one column that accepts the same values as one on another column. -/
def Restates (colref colref' : CColRef) (c c' : CConstraint D) : Prop :=
  Within {colref'} c' ∧ c'.Literal ∧
    ∀ row row' : Row D, row' colref' = row colref → (c'.sat row' ↔ c.sat row)

attribute [local simp] pcnstrRemapForColumn remapAll in
/-- A connective of one constraint. -/
theorem remap_single {fConj : Bool} {l : List (CConstraint D)} (hlen : l.length = 1)
    (ih : ∀ c ∈ l, ∀ c', pcnstrRemapForColumn fArrayConstraints colref' c = .ok (some c') →
      Restates colref colref' c c') {c' : CConstraint D}
    (h : remapAll fArrayConstraints colref' l >>= pcnstrConjDisj fArrayConstraints fConj =
      .ok (some c')) : ∃ c, l = [c] ∧ Restates colref colref' c c' := by
  obtain ⟨c, rfl⟩ := List.length_eq_one_iff.1 hlen
  simp only [remapAll, bind_eq_ok] at h
  obtain ⟨l', ⟨o, ho, hl'⟩, h⟩ := h
  cases o with
  | none => cases hl'
  | some d =>
    simp only [bind_eq_ok, Except.ok.injEq, pure_eq_ok] at hl'
    obtain ⟨_, rfl, rfl⟩ := hl'
    cases h
    exact ⟨c, rfl, ih c (by simp) _ ho⟩

/-- **A restated constraint accepts the same values.** -/
theorem pcnstrRemapForColumn_restates {c c' : CConstraint D} (hwf : c.WellFormed)
    (hon : c.OnColumn colref) (hc : colref'.fConstrainable = true)
    (h : pcnstrRemapForColumn fArrayConstraints colref' c = .ok (some c')) :
    Restates colref colref' c c' := by
  induction c using CConstraint.induction generalizing c' with
  | interval pci =>
    cases h
    cases hwf with
    | interval hpci hcol =>
      refine ⟨⟨.interval hpci hc, by simp [columns]⟩, .interval _, fun row row' hrow => ?_⟩
      have hpcr : pci.pcr = colref := hon _ (by simp [columns])
      rw [sat, sat, hpcr, hrow]
      rfl
  | conjunction l ih =>
    rw [pcnstrRemapForColumn] at h
    cases hwf with
    | conjunction hne hl hone =>
      have hchild : ∀ c ∈ l, c.OnColumn colref := fun _ => OnColumn.child hon
      obtain ⟨c, rfl, hw, hlit, hsat⟩ := remap_single (hone colref hchild)
        (fun c hc c' h => ih c hc (hl c hc) (hchild c hc) h) h
      exact ⟨hw, hlit, fun row row' hrow => by rw [hsat row row' hrow]; simp [sat]⟩
  | disjunction l ih =>
    rw [pcnstrRemapForColumn] at h
    cases hwf with
    | disjunction hne hl hone =>
      have hchild : ∀ c ∈ l, c.OnColumn colref := fun _ => OnColumn.child hon
      obtain ⟨c, rfl, hw, hlit, hsat⟩ := remap_single (hone colref hchild)
        (fun c hc c' h => ih c hc (hl c hc) (hchild c hc) h) h
      exact ⟨hw, hlit, fun row row' hrow => by rw [hsat row row' hrow]; simp [sat]⟩
  | negation c ih =>
    simp only [pcnstrRemapForColumn, bind_eq_ok] at h
    obtain ⟨o, ho, h⟩ := h
    cases o with
    | none => cases h
    | some d =>
      cases h
      cases hwf with
      | negation hwf =>
        obtain ⟨hw, hlit, hsat⟩ := ih hwf hon ho
        refine ⟨⟨.negation hw.1, hw.2⟩, .negation hlit, fun row row' hrow => ?_⟩
        rw [sat, sat, hsat row row' hrow]

end CConstraint

end BossOptimizer

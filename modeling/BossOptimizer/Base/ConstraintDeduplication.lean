import BossOptimizer.Base.ConstraintColumn
import BossOptimizer.Base.ConstraintReadback

/-!
# The children of a connective: `PdrgpcnstrFlatten` (CConstraint.cpp:678)

The array handed to the constructor of a conjunction or a disjunction is flattened, and all children
on one and the same single column are written as one predicate and read back as one interval. Two
things can go wrong on the way. A child may lose the NULL that it accepts (`losesNull`), and an
array comparison with nothing but NULL cannot be read. Otherwise the rows stay the same.
-/

namespace BossOptimizer

open CConstraintInterval (exact_reading readsNullList)

variable {D : Type} [LinearOrder D] {fArrayConstraints fConj : Bool} {colref : CColRef}

namespace CConstraint

/-- `CConstraint::PdrgpcnstrFlatten` (CConstraint.cpp:678), which ends in
    `PdrgpcnstrDeduplicate`. -/
def pdrgpcnstrFlatten (fArrayConstraints fConj : Bool) (pdrgpcnstr : List (CConstraint D)) :
    Except Fault (List (CConstraint D)) :=
  deduplicateLoop fArrayConstraints fConj (flatten fConj pdrgpcnstr) (flatten fConj pdrgpcnstr) []

/-- The constructors keep the children in this form. -/
theorem ofConjDisj_eq (l : List (CConstraint D)) : ofConjDisj fArrayConstraints fConj l =
    (fun out => if fConj then .conjunction out else .disjunction out) <$>
      pdrgpcnstrFlatten fArrayConstraints fConj l := by
  rw [ofConjDisj, pdrgpcnstrFlatten]
  cases deduplicateLoop fArrayConstraints fConj (flatten fConj l) (flatten fConj l) [] <;> rfl

/-! ## Merging one group -/

/-- The children on one and the same single column (`PdrgPcnstrLookup`). -/
def groupOn (L : List (CConstraint D)) (colref : CColRef) : List (CConstraint D) :=
  L.filter (·.pcrsUsed = [colref])

/-- The group of the child is merged, and its text has an array of NULLs. -/
def mergesNullList (fArrayConstraints fConj : Bool) (L : List (CConstraint D))
    (c : CConstraint D) : Bool :=
  match c.pcrsUsed with
  | [colref] => 2 ≤ (groupOn L colref).length &&
    match pexprScalars fArrayConstraints (groupOn L colref) with
    | .ok es => readsNullList (pexprConjDisj fConj es)
    | .error _ => false
  | _ => false

/-- The child is merged, and the NULL of its column in the row is lost on the way. -/
def DropsNull (L : List (CConstraint D)) (row : Row D) (c : CConstraint D) : Prop :=
  ∃ colref, c.pcrsUsed = [colref] ∧ 2 ≤ (groupOn L colref).length ∧ row colref = ⊥ ∧
    c.losesNull false = true

variable {L : List (CConstraint D)}

theorem groupOn_singleColumn (hL : ∀ c ∈ L, c.WellFormed) :
    ∀ c ∈ groupOn L colref, SingleColumn colref c := fun c hc => by
  obtain ⟨hcL, hon, -⟩ := mem_group hL hc
  exact (hL c hcL).singleColumn hon

/-- The interval of a group accepts what the group accepts without the NULLs it loses. -/
theorem mergeGroup_dropsNull (hL : ∀ c ∈ L, c.WellFormed)
    (hlen : 2 ≤ (groupOn L colref).length) {es : List (ScalarExpr D)}
    (hes : pexprScalars fArrayConstraints (groupOn L colref) = .ok es)
    {pci : Option (CConstraintInterval (Datum D))}
    (hpci : CConstraintInterval.pciIntervalFromScalarExpr fArrayConstraints colref
      (pexprConjDisj fConj es) false = .ok pci) (row : Row D) :
    ∃ K, pci = some K ∧ (sat (.interval K) row ↔
      joined fConj (groupOn L colref) fun c => c.sat row ∧ ¬ DropsNull L row c) := by
  obtain ⟨child, hchild⟩ := List.exists_mem_of_length_pos (lt_of_lt_of_le Nat.two_pos hlen)
  have hc := (mem_group hL hchild).2.2
  obtain ⟨es', hes', hback⟩ :=
    pexprScalars_readsBack fArrayConstraints hc (groupOn_singleColumn hL)
  obtain rfl : es' = es := Except.ok.inj (hes'.symm.trans hes)
  obtain ⟨hread, hreading⟩ := pexprConjDisj_readsBack hc fConj hback
  obtain ⟨K, rfl⟩ := hread.eq_some hpci
  obtain ⟨-, hcol, hadm⟩ := exact_reading _ _ _ hpci
  refine ⟨K, rfl, ?_⟩
  rw [sat, hcol, hadm, hreading]
  refine joined_congr fun c hcg => and_congr (sat_iff_satOn (mem_group hL hcg).2.1 row).symm
    (not_congr ⟨?_, ?_⟩)
  · rintro ⟨hnull, hloses⟩
    exact ⟨colref, of_decide_eq_true (List.mem_filter.1 hcg).2, hlen, hnull, hloses⟩
  · rintro ⟨k, hk, -, hnull, hloses⟩
    obtain rfl : colref = k := by
      have hcu : c.pcrsUsed = [colref] := of_decide_eq_true (List.mem_filter.1 hcg).2
      simpa [hcu] using hk
    exact ⟨hnull, hloses⟩

/-- Merging a group fails on an array of NULLs. -/
theorem mergeGroup_failsWhen (fArrayConstraints fConj : Bool) (hL : ∀ c ∈ L, c.WellFormed) {child : CConstraint D}
    (hchild : child ∈ groupOn L colref) (hlen : 2 ≤ (groupOn L colref).length) :
    ∃ es, pexprScalars fArrayConstraints (groupOn L colref) = .ok es ∧
      ∀ m, FailsWhen .outOfBounds (mergesNullList fArrayConstraints fConj L child)
        (CConstraintInterval.pciIntervalFromScalarExpr fArrayConstraints colref
          (pexprConjDisj fConj es) m) := by
  have hc := (mem_group hL hchild).2.2
  obtain ⟨es, hes, hback⟩ :=
    pexprScalars_readsBack fArrayConstraints hc (groupOn_singleColumn hL)
  have htest : mergesNullList fArrayConstraints fConj L child =
      readsNullList (pexprConjDisj fConj es) := by
    have hcu : child.pcrsUsed = [colref] := of_decide_eq_true (List.mem_filter.1 hchild).2
    simp [mergesNullList, hcu, hes, hlen]
  exact ⟨es, hes, htest ▸ (pexprConjDisj_readsBack hc fConj hback).1.failsWhen⟩

/-- Nothing goes wrong when the trace flag is off. -/
theorem mergesNullList_false (fConj : Bool) (L : List (CConstraint D)) (c : CConstraint D) :
    mergesNullList false fConj L c = false := by
  unfold mergesNullList
  split
  · split
    · next es hes =>
      rw [CConstraintInterval.readsNullList_pexprConjDisj fConj (readsNullList_pexprScalars
        (fun c _ => (readsNullList_pexprScalar_and_negation c).1) hes), Bool.and_false]
    · exact Bool.and_false _
  · rfl

/-- The test looks at the column of the child only. -/
theorem mergesNullList_congr {c c' : CConstraint D} (h : c.pcrsUsed = c'.pcrsUsed) :
    mergesNullList fArrayConstraints fConj L c = mergesNullList fArrayConstraints fConj L c' := by
  rw [mergesNullList, mergesNullList, h]

/-! ## The loop -/

/-- The loop fails when one of the groups still to be merged cannot be read. -/
theorem deduplicateLoop_failsWhen (fArrayConstraints fConj : Bool)
    (hL : ∀ c ∈ L, c.WellFormed) {rest : List (CConstraint D)} (hrest : ∀ c ∈ rest, c ∈ L)
    (pcrsDeduped : List CColRef) : FailsWhen .outOfBounds
      ((remaining pcrsDeduped rest).any (mergesNullList fArrayConstraints fConj L))
      (deduplicateLoop fArrayConstraints fConj L rest pcrsDeduped) := by
  induction rest generalizing pcrsDeduped with
  | nil => exact failsWhen_ok _
  | cons child rest ih =>
    have ih := @ih (fun c hc => hrest c (by simp [hc]))
    have hchild : child ∈ L := hrest child (by simp)
    rw [deduplicateLoop]
    split
    · next colref hcol =>
      have hmem : child ∈ groupOn L colref := List.mem_filter.2 ⟨hchild, by simpa using hcol⟩
      split
      · next hin =>
        rw [remaining, List.filter_cons_of_neg]
        · exact ih pcrsDeduped
        · simpa [hcol] using hin
      · next hout =>
        have hfresh : ∀ k ∈ pcrsDeduped, child.pcrsUsed ≠ [k] := by
          rintro k hk hcu
          rw [hcol] at hcu
          cases hcu
          exact hout hk
        rw [remaining_cons hfresh, List.any_cons]
        split
        · next x hx =>
          have halone : mergesNullList fArrayConstraints fConj L child = false := by
            have hlen : (groupOn L colref).length = 1 := by rw [groupOn, hx]; rfl
            simp [mergesNullList, hcol, hlen]
          rw [halone, Bool.false_or]
          exact (ih pcrsDeduped).map
        · next hmany =>
          have hlen : 2 ≤ (groupOn L colref).length := two_le_length hmem hmany
          obtain ⟨es, hes, hread⟩ := mergeGroup_failsWhen fArrayConstraints fConj hL hmem hlen
          -- a later child of the group that is merged now does not fail again
          have hlater : (mergesNullList fArrayConstraints fConj L child ||
              (remaining pcrsDeduped rest).any (mergesNullList fArrayConstraints fConj L)) =
              (mergesNullList fArrayConstraints fConj L child ||
              (remaining (colref :: pcrsDeduped) rest).any
                (mergesNullList fArrayConstraints fConj L)) := by
            cases htest : mergesNullList fArrayConstraints fConj L child with
            | true => rfl
            | false =>
              rw [Bool.false_or, Bool.false_or, Bool.eq_iff_iff, List.any_eq_true,
                List.any_eq_true]
              constructor
              · rintro ⟨c, hc, hfails⟩
                have hcu : c.pcrsUsed ≠ [colref] := by
                  intro hcu
                  rw [mergesNullList_congr (hcu.trans hcol.symm), htest] at hfails
                  cases hfails
                exact ⟨c, mem_remaining_cons.2 ⟨hcu, hc⟩, hfails⟩
              · rintro ⟨c, hc, hfails⟩
                exact ⟨c, (mem_remaining_cons.1 hc).2, hfails⟩
          rw [hlater]
          rw [groupOn] at hes
          rw [hes, ok_bind]
          refine (hread false).bind fun pci _ => ?_
          rw [← Bool.or_false (List.any _ _)]
          exact (ih (colref :: pcrsDeduped)).bind fun _ _ => failsWhen_pure _
    · next hne =>
      have hwide : mergesNullList fArrayConstraints fConj L child = false := by
        unfold mergesNullList
        split
        · next colref hcol => exact absurd hcol (hne colref)
        · rfl
      rw [remaining_cons fun x _ => hne x, List.any_cons, hwide, Bool.false_or]
      exact (ih pcrsDeduped).map

/-! ## Flattening and de-duplication -/

variable {l : List (CConstraint D)}

theorem flatten_wellFormed (fConj : Bool) (hl : ∀ c ∈ l, c.WellFormed) :
    ∀ c ∈ flatten fConj l, c.WellFormed := fun c hc =>
  (flatten_within fConj (fun c hc => (⟨hl c hc, fun _ _ => trivial⟩ : Within Set.univ c)) c hc).1

theorem pdrgpcnstrFlatten_failsWhen (fArrayConstraints fConj : Bool)
    (hl : ∀ c ∈ l, c.WellFormed) :
    FailsWhen .outOfBounds
      ((flatten fConj l).any (mergesNullList fArrayConstraints fConj (flatten fConj l)))
      (pdrgpcnstrFlatten fArrayConstraints fConj l) := by
  have hloop := deduplicateLoop_failsWhen fArrayConstraints fConj (flatten_wellFormed fConj hl)
    (fun c hc => hc) []
  have hall : remaining [] (flatten fConj l) = flatten fConj l := by simp [remaining]
  rwa [hall] at hloop

/-- The children accept what they accepted before, without the NULLs they lose. -/
theorem pdrgpcnstrFlatten_sat (hl : ∀ c ∈ l, c.WellFormed) {out : List (CConstraint D)}
    (h : pdrgpcnstrFlatten fArrayConstraints fConj l = .ok out) (row : Row D) :
    joined fConj out (sat · row) ↔
      joined fConj (flatten fConj l) fun c => c.sat row ∧ ¬ DropsNull (flatten fConj l) row c := by
  have hflat := flatten_wellFormed fConj hl
  refine deduplicateLoop_joined_all (fun c hc halone => ?_) (fun colref hlen es hes pci hpci =>
    mergeGroup_dropsNull hflat hlen hes hpci row) h
  -- a child that is not merged loses nothing
  have hkeeps : ¬ DropsNull (flatten fConj l) row c := by
    rintro ⟨colref, hcol, hlen, -⟩
    rw [groupOn, halone colref hcol] at hlen
    simp at hlen
  simp [hkeeps]

section Examples

/-- A nullable integer column. -/
def colC : CColRef := ⟨3, true, true, true⟩

/-- `NOT (c > 5)`, as the negation of a connective. -/
def notAboveFive : CConstraint ℤ :=
  .negation (.conjunction [.interval ⟨colC, [CRange.ofCmp .g ((5 : ℤ) : Datum ℤ)], false⟩])

/-- `c ≤ 7 OR c IS NULL`. -/
def upToSeven : CConstraint ℤ :=
  .interval ⟨colC, [CRange.ofCmp .leq ((7 : ℤ) : Datum ℤ)], true⟩

theorem notAboveFive_wellFormed : notAboveFive.WellFormed := by
  refine .negation (.conjunction (by simp) (fun c hc => ?_) (by simp))
  rw [List.mem_singleton.1 hc]
  exact .interval (by simp [CConstraintInterval.WellFormed, CConstraintInterval.ordered_cons,
    CRange.wellFormed_iff, CRange.ofCmp]) rfl

theorem upToSeven_wellFormed : upToSeven.WellFormed :=
  .interval (by simp [CConstraintInterval.WellFormed, CConstraintInterval.ordered_cons,
    CRange.wellFormed_iff, CRange.ofCmp]) rfl

end Examples

end CConstraint

end BossOptimizer

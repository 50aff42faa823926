import BossOptimizer.Base.ConstraintExpr

/-!
# De-duplication of children, and the part of a constraint on one column

The constructors of conjunctions and disjunctions replace all children on one and the same single
column by one interval; on regular children this does not change the rows accepted. `Pcnstr(c)`
accepts every row that a regular constraint accepts, and is equivalent to it when `c` is its only
column, which is what makes negating the part sound.
-/

namespace BossOptimizer

open CConstraintInterval (admits)

variable {D : Type} [LinearOrder D] {fArrayConstraints : Bool} {colref : CColRef}

namespace CConstraint

/-! ## De-duplication -/

section Deduplicate

variable {fConj : Bool} {L : List (CConstraint D)}

/-- Whatever the children are, they are replaced by constraints on the same columns. -/
theorem deduplicateLoop_wellFormed {S : Set CColRef}
    (hL : ∀ c ∈ L, c.WellFormed ∧ ∀ x ∈ c.columns, x ∈ S) {rest : List (CConstraint D)}
    (hrest : ∀ c ∈ rest, c ∈ L) {pcrsDeduped : List CColRef} {out : List (CConstraint D)}
    (h : deduplicateLoop fArrayConstraints fConj L rest pcrsDeduped = .ok out) :
    ∀ c ∈ out, c.WellFormed ∧ ∀ x ∈ c.columns, x ∈ S := by
  induction rest generalizing pcrsDeduped out with
  | nil => cases h; simp
  | cons child rest ih =>
    have ih := @ih (fun c hc => hrest c (by simp [hc]))
    have hchild := hL child (hrest child (by simp))
    have hkeep : ∀ {out' : List (CConstraint D)} {ded},
        deduplicateLoop fArrayConstraints fConj L rest ded = .ok out' →
        ∀ c ∈ child :: out', c.WellFormed ∧ ∀ x ∈ c.columns, x ∈ S := by
      intro out' ded hout c hc
      rcases List.mem_cons.1 hc with rfl | hc
      · exact hchild
      · exact ih hout c hc
    rw [deduplicateLoop] at h
    split at h
    · next colref hcol =>
      obtain ⟨hmem, -⟩ := pcrsUsed_eq_singleton.1 hcol
      split at h
      · exact ih h
      · split at h
        · obtain ⟨out', hout, rfl⟩ := map_eq_ok.1 h
          exact hkeep hout
        · simp only [bind_eq_ok, pure_eq_ok] at h
          obtain ⟨es, -, pci, hpci, out', hout, rfl⟩ := h
          cases pci with
          | none => exact hkeep hout
          | some pci =>
            obtain ⟨hwf, hpcr, -⟩ := CConstraintInterval.exact_reading _ _ _ hpci
            intro c hc
            rcases List.mem_cons.1 hc with rfl | hc
            · refine ⟨.interval hwf (hpcr ▸ hchild.1.fConstrainable hmem), fun x hx => ?_⟩
              simp only [Option.elim_some, columns, List.mem_singleton] at hx
              exact hchild.2 x (hx.trans hpcr ▸ hmem)
            · exact ih hout c hc
    · obtain ⟨out', hout, rfl⟩ := map_eq_ok.1 h
      exact hkeep hout

theorem deduplicateLoop_regular (hL : ∀ c ∈ L, c.Regular) {rest : List (CConstraint D)}
    (hrest : ∀ c ∈ rest, c ∈ L) {pcrsDeduped : List CColRef} {out : List (CConstraint D)}
    (h : deduplicateLoop fArrayConstraints fConj L rest pcrsDeduped = .ok out) :
    ∀ c ∈ out, c.Regular := by
  induction rest generalizing pcrsDeduped out with
  | nil => cases h; simp
  | cons child rest ih =>
    have ih := @ih (fun c hc => hrest c (by simp [hc]))
    have hkeep : ∀ {new : CConstraint D} {out' : List (CConstraint D)} {ded}, new.Regular →
        deduplicateLoop fArrayConstraints fConj L rest ded = .ok out' →
        ∀ c ∈ new :: out', c.Regular := by
      intro new out' ded hnew hout c hc
      rcases List.mem_cons.1 hc with rfl | hc
      · exact hnew
      · exact ih hout c hc
    have hchild := hL child (hrest child (by simp))
    rw [deduplicateLoop] at h
    split at h
    · split at h
      · exact ih h
      · split at h
        · obtain ⟨out', hout, rfl⟩ := map_eq_ok.1 h
          exact hkeep hchild hout
        · simp only [bind_eq_ok, pure_eq_ok] at h
          obtain ⟨es, -, pci, -, out', hout, rfl⟩ := h
          refine hkeep ?_ hout
          cases pci with
          | none => exact hchild
          | some pci => exact .interval pci
    · obtain ⟨out', hout, rfl⟩ := map_eq_ok.1 h
      exact hkeep hchild hout

/-- The loop keeps something as long as it has not merged the first child before. -/
theorem deduplicateLoop_ne_nil {child : CConstraint D} {rest out : List (CConstraint D)}
    (h : deduplicateLoop fArrayConstraints fConj L (child :: rest) [] = .ok out) : out ≠ [] := by
  rw [deduplicateLoop] at h
  split at h
  · rw [if_neg (by simp)] at h
    split at h
    · obtain ⟨out', -, rfl⟩ := map_eq_ok.1 h
      simp
    · simp only [bind_eq_ok, pure_eq_ok] at h
      obtain ⟨es, -, pci, -, out', -, rfl⟩ := h
      simp
  · obtain ⟨out', -, rfl⟩ := map_eq_ok.1 h
    simp

/-- At most one child is left on a single column, and none after a merge. -/
theorem deduplicateLoop_length (hL : ∀ c ∈ L, c.WellFormed) {pre rest : List (CConstraint D)}
    (hsuf : L = pre ++ rest) {pcrsDeduped : List CColRef} {out : List (CConstraint D)}
    (h : deduplicateLoop fArrayConstraints fConj L rest pcrsDeduped = .ok out)
    (hon : ∀ c ∈ out, OnColumn colref c) :
    (colref ∈ pcrsDeduped ∨ (∀ c ∈ rest, c.pcrsUsed ≠ [colref]) → out = []) ∧ out.length ≤ 1 := by
  induction rest generalizing pre pcrsDeduped out with
  | nil => cases h; simp
  | cons child rest ih =>
    have ih := @ih (pre ++ [child]) (by simpa using hsuf)
    have hchildL : child ∈ L := by simp [hsuf]
    rw [deduplicateLoop] at h
    split at h
    · next k hk =>
      obtain ⟨hmem, -⟩ := pcrsUsed_eq_singleton.1 hk
      split at h
      · next hin =>
        obtain ⟨hnil, hlen⟩ := ih h hon
        refine ⟨fun hor => hnil (hor.imp_right fun hno c hc => hno c (by simp [hc])), hlen⟩
      · next hout =>
        split at h
        · next x hx =>
          obtain ⟨out', hout', rfl⟩ := map_eq_ok.1 h
          obtain rfl : k = colref := hon child (by simp) k hmem
          -- the child is the only one on its column
          have hrest : ∀ c ∈ rest, c.pcrsUsed ≠ [k] := by
            intro c hc hcu
            have hlen := congrArg List.length hx
            rw [hsuf, List.filter_append, List.filter_cons_of_pos (by simpa using hk)] at hlen
            have hpos : 0 < (rest.filter (·.pcrsUsed = [k])).length :=
              List.length_pos_of_mem (List.mem_filter.2 ⟨hc, by simpa using hcu⟩)
            simp only [List.length_append, List.length_cons, List.length_nil] at hlen
            omega
          have hnil := (ih hout' fun c hc => hon c (by simp [hc])).1 (.inr hrest)
          subst hnil
          refine ⟨fun hor => ?_, by simp⟩
          rcases hor with hin | hno
          · exact absurd hin hout
          · exact absurd hk (hno child (by simp))
        · simp only [bind_eq_ok, pure_eq_ok] at h
          obtain ⟨es, -, pci, hpci, out', hout', rfl⟩ := h
          have hcol : k = colref := by
            cases pci with
            | none => exact hon child (by simp) k hmem
            | some pci =>
              obtain ⟨-, hpcr, -⟩ := CConstraintInterval.exact_reading _ _ _ hpci
              exact hpcr ▸ hon (.interval pci) (by simp) pci.pcr (by simp [columns])
          subst hcol
          have hnil := (ih hout' fun c hc => hon c (by simp [hc])).1 (.inl (by simp))
          subst hnil
          refine ⟨fun hor => ?_, by simp⟩
          rcases hor with hin | hno
          · exact absurd hin hout
          · exact absurd hk (hno child (by simp))
    · next hne =>
      obtain ⟨out', hout', rfl⟩ := map_eq_ok.1 h
      exact absurd ((hL child hchildL).pcrsUsed_eq (hon child (by simp))) (hne colref)

/-- Regular constraints on one column become one interval that accepts what they accept. -/
theorem mergeGroup_sat {group : List (CConstraint D)} (hc : colref.fConstrainable = true)
    (hgroup : ∀ c ∈ group, c.WellFormed ∧ c.Regular ∧ c.OnColumn colref)
    {es : List (ScalarExpr D)} (hes : pexprScalars fArrayConstraints group = .ok es)
    {pci : Option (CConstraintInterval (Datum D))}
    (hpci : CConstraintInterval.pciIntervalFromScalarExpr fArrayConstraints colref
      (pexprConjDisj fConj es) false = .ok pci) :
    ∃ K, pci = some K ∧ ∀ row, sat (.interval K) row ↔ joined fConj group (sat · row) := by
  have hd := describes_pexprScalars hc fConj (fun c hcg e he =>
    pexprScalar_describes (hgroup c hcg).2.1 (hgroup c hcg).1 (hgroup c hcg).2.2 he) hes
  have hsome := CConstraintInterval.isSome_pciIntervalFromScalarExpr _ _ _ hpci
  rw [hd.1, Option.isSome_iff_exists] at hsome
  obtain ⟨K, rfl⟩ := hsome
  obtain ⟨-, hpcr, hadm⟩ := CConstraintInterval.exact_reading _ _ _ hpci
  refine ⟨K, rfl, fun row => ?_⟩
  rw [sat, hpcr, hadm, hd.2]
  exact joined_congr fun c hcg => (sat_iff_satOn (hgroup c hcg).2.2 row).symm

/-- What a child turns into: the connective of its group, if it is on a single column. -/
def merged (fConj : Bool) (L : List (CConstraint D)) (P : CConstraint D → Prop)
    (c : CConstraint D) : Prop :=
  match c.pcrsUsed with
  | [colref] => joined fConj (L.filter (·.pcrsUsed = [colref])) P
  | _ => P c

/-- The children not merged into an earlier one. -/
def remaining (pcrsDeduped : List CColRef) (rest : List (CConstraint D)) : List (CConstraint D) :=
  rest.filter fun c => ∀ colref ∈ pcrsDeduped, c.pcrsUsed ≠ [colref]

omit [LinearOrder D] in
theorem remaining_cons {pcrsDeduped : List CColRef} {child : CConstraint D}
    (h : ∀ colref ∈ pcrsDeduped, child.pcrsUsed ≠ [colref]) (rest : List (CConstraint D)) :
    remaining pcrsDeduped (child :: rest) = child :: remaining pcrsDeduped rest :=
  List.filter_cons_of_pos (by simpa using h)

omit [LinearOrder D] in
/-- Nothing is left of a group that has been merged. -/
theorem mem_remaining_cons {pcrsDeduped : List CColRef} {rest : List (CConstraint D)}
    {c : CConstraint D} : c ∈ remaining (colref :: pcrsDeduped) rest ↔
      c.pcrsUsed ≠ [colref] ∧ c ∈ remaining pcrsDeduped rest := by
  simp only [remaining, List.mem_filter, List.mem_cons, forall_eq_or_imp, decide_eq_true_eq]
  tauto

attribute [local simp] pcnstr conjunctionOn disjunctionOn in
theorem joined_cons {α : Type} (fConj : Bool) (a : α) (l : List α) (P : α → Prop) :
    joined fConj (a :: l) P ↔ if fConj then P a ∧ joined fConj l P else P a ∨ joined fConj l P := by
  cases fConj <;> simp [joined]

/-- A connective says a second time what an element says that implies it. -/
theorem joined_cons_of_subset {α : Type} {fConj : Bool} {a : α} {l l' : List α} {P : α → Prop}
    (hsub : ∀ x ∈ l', x ∈ l) (hrest : ∀ x ∈ l, x ∉ l' → (P x ↔ P a)) :
    joined fConj (a :: l') P ↔ joined fConj (a :: l) P := by
  rw [joined_cons, joined_cons]
  cases fConj
  · simp only [Bool.false_eq_true, if_false]
    constructor
    · rintro (hs | ⟨x, hx, hs⟩)
      · exact .inl hs
      · exact .inr ⟨x, hsub x hx, hs⟩
    · rintro (hs | ⟨x, hx, hs⟩)
      · exact .inl hs
      · by_cases hin : x ∈ l'
        · exact .inr ⟨x, hin, hs⟩
        · exact .inl ((hrest x hx hin).1 hs)
  · simp only [if_true]
    refine and_congr_right fun hs => ⟨fun hall x hx => ?_, fun hall x hx => hall x (hsub x hx)⟩
    by_cases hin : x ∈ l'
    · exact hall x hin
    · exact (hrest x hx hin).2 hs

omit [LinearOrder D] in
/-- A group is part of the list, and every child is in its group. -/
theorem joined_merged (fConj : Bool) (L : List (CConstraint D)) (P : CConstraint D → Prop) :
    joined fConj L (merged fConj L P) ↔ joined fConj L P := by
  have hgroup : ∀ c ∈ L, ∀ colref, c.pcrsUsed = [colref] →
      c ∈ L.filter (·.pcrsUsed = [colref]) := by
    intro c hc colref hcol
    simp [hc, hcol]
  cases fConj
  · constructor
    · rintro ⟨c, hc, hs⟩
      unfold merged at hs
      split at hs
      · obtain ⟨c', hc', hs⟩ := hs
        exact ⟨c', List.mem_of_mem_filter hc', hs⟩
      · exact ⟨c, hc, hs⟩
    · rintro ⟨c, hc, hs⟩
      refine ⟨c, hc, ?_⟩
      unfold merged
      split
      · next colref hcol => exact ⟨c, hgroup c hc colref hcol, hs⟩
      · exact hs
  · constructor
    · intro hs c hc
      have hs := hs c hc
      unfold merged at hs
      split at hs
      · next colref hcol => exact hs c (hgroup c hc colref hcol)
      · exact hs
    · intro hs c hc
      unfold merged
      split
      · exact fun c' hc' => hs c' (List.mem_of_mem_filter hc')
      · exact hs c hc

variable {P : CConstraint D → Prop} {row : Row D}
  (halone : ∀ c ∈ L, (∀ colref, c.pcrsUsed = [colref] →
    L.filter (·.pcrsUsed = [colref]) = [c]) → (P c ↔ c.sat row))
  (hmerge : ∀ colref, 2 ≤ (L.filter (·.pcrsUsed = [colref])).length → ∀ es,
    pexprScalars fArrayConstraints (L.filter (·.pcrsUsed = [colref])) = .ok es → ∀ pci,
    CConstraintInterval.pciIntervalFromScalarExpr fArrayConstraints colref
      (pexprConjDisj fConj es) false = .ok pci →
    ∃ K, pci = some K ∧
      (sat (.interval K) row ↔ joined fConj (L.filter (·.pcrsUsed = [colref])) P))

include halone hmerge in
/-- When a child kept as it is says `P`, and the interval of a group what `P` says of the group,
    the remaining children are de-duplicated to the connective of `P`. -/
theorem deduplicateLoop_joined
    {rest : List (CConstraint D)} (hrest : ∀ c ∈ rest, c ∈ L) {pcrsDeduped : List CColRef}
    {out : List (CConstraint D)}
    (h : deduplicateLoop fArrayConstraints fConj L rest pcrsDeduped = .ok out) :
    joined fConj out (sat · row) ↔
      joined fConj (remaining pcrsDeduped rest) (merged fConj L P) := by
  induction rest generalizing pcrsDeduped out with
  | nil => cases h; cases fConj <;> simp [joined, remaining]
  | cons child rest ih =>
    have ih := @ih (fun c hc => hrest c (by simp [hc]))
    have hchild : child ∈ L := hrest child (by simp)
    rw [deduplicateLoop] at h
    split at h
    · next colref hcol =>
      have hmerged : ∀ c, c.pcrsUsed = [colref] → merged fConj L P c =
          joined fConj (L.filter (·.pcrsUsed = [colref])) P := by
        intro c hc
        rw [merged, hc]
      have hgroup : child ∈ L.filter (·.pcrsUsed = [colref]) := by simp [hchild, hcol]
      split at h
      · next hin =>
        rw [ih h, remaining, remaining, List.filter_cons_of_neg]
        simpa [hcol] using hin
      · next hout =>
        have hfresh : ∀ k ∈ pcrsDeduped, child.pcrsUsed ≠ [k] := by
          rintro k hk hcu
          rw [hcol] at hcu
          cases hcu
          exact hout hk
        rw [remaining_cons hfresh]
        split at h
        · next x hx =>
          obtain ⟨out', hout', rfl⟩ := map_eq_ok.1 h
          obtain rfl : child = x := by rwa [hx, List.mem_singleton] at hgroup
          have hP : P child ↔ child.sat row := by
            refine halone child hchild fun k hk => ?_
            obtain rfl : colref = k := by simpa [hcol] using hk
            exact hx
          rw [joined_cons, joined_cons, ih hout', hmerged child hcol, hx]
          cases fConj <;> simp [joined, hP]
        · next hmany =>
          simp only [bind_eq_ok, pure_eq_ok] at h
          obtain ⟨es, hes, pci, hpci, out', hout', rfl⟩ := h
          obtain ⟨K, rfl, hK⟩ := hmerge colref (two_le_length hgroup hmany) es hes pci hpci
          -- the later children of the group say the same as the new interval
          have hlater : ∀ c ∈ remaining pcrsDeduped rest,
              c ∉ remaining (colref :: pcrsDeduped) rest →
              (merged fConj L P c ↔ merged fConj L P child) := by
            intro c hc hne
            have hcu : c.pcrsUsed = [colref] := by
              by_contra hcu
              exact hne (mem_remaining_cons.2 ⟨hcu, hc⟩)
            rw [hmerged c hcu, hmerged child hcol]
          have hsub : ∀ c ∈ remaining (colref :: pcrsDeduped) rest,
              c ∈ remaining pcrsDeduped rest := fun c hc => (mem_remaining_cons.1 hc).2
          rw [← joined_cons_of_subset hsub hlater, joined_cons, joined_cons, ih hout',
            hmerged child hcol, ← hK, Option.elim_some]
    · next hne =>
      obtain ⟨out', hout', rfl⟩ := map_eq_ok.1 h
      have hmerged : merged fConj L P child = P child := by
        unfold merged
        split
        · next colref hcol => exact absurd hcol (hne colref)
        · rfl
      rw [remaining_cons fun x _ => hne x, joined_cons, joined_cons, ih hout', hmerged,
        halone child hchild fun colref hcol => absurd hcol (hne colref)]

include halone hmerge in
/-- Flattened children as a whole, de-duplicated. -/
theorem deduplicateLoop_joined_all
    {out : List (CConstraint D)}
    (h : deduplicateLoop fArrayConstraints fConj L L [] = .ok out) :
    joined fConj out (sat · row) ↔ joined fConj L P := by
  have hall : remaining [] L = L := by simp [remaining]
  rw [deduplicateLoop_joined halone hmerge (fun c hc => hc) h, hall, joined_merged]

/-- The children on one column, where the group is merged. -/
theorem mem_group {c : CConstraint D} (hwf : ∀ c ∈ L, c.WellFormed)
    (hc : c ∈ L.filter (·.pcrsUsed = [colref])) :
    c ∈ L ∧ c.OnColumn colref ∧ colref.fConstrainable = true := by
  obtain ⟨hcL, hcu⟩ := List.mem_filter.1 hc
  obtain ⟨hmem, hon⟩ := pcrsUsed_eq_singleton.1 (of_decide_eq_true hcu)
  exact ⟨hcL, hon, (hwf c hcL).fConstrainable hmem⟩

/-- De-duplication keeps a connective of regular constraints. -/
theorem deduplicateLoop_sat (hL : ∀ c ∈ L, c.WellFormed ∧ c.Regular) {out : List (CConstraint D)}
    (h : deduplicateLoop fArrayConstraints fConj L L [] = .ok out) (row : Row D) :
    joined fConj out (sat · row) ↔ joined fConj L (sat · row) := by
  refine deduplicateLoop_joined_all (fun _ _ _ => Iff.rfl) (fun colref hlen es hes pci hpci => ?_) h
  have hgroup : ∀ c ∈ L.filter (·.pcrsUsed = [colref]),
      c.WellFormed ∧ c.Regular ∧ c.OnColumn colref := by
    intro c hc
    obtain ⟨hcL, hon, -⟩ := mem_group (fun c hc => (hL c hc).1) hc
    exact ⟨(hL c hcL).1, (hL c hcL).2, hon⟩
  obtain ⟨child, hchild⟩ := List.exists_mem_of_length_pos (lt_of_lt_of_le Nat.two_pos hlen)
  obtain ⟨K, rfl, hK⟩ := mergeGroup_sat (mem_group (fun c hc => (hL c hc).1) hchild).2.2 hgroup
    hes hpci
  exact ⟨K, rfl, hK row⟩

end Deduplicate

/-! ## Constructors -/

section Construct

variable {fConj : Bool} {l : List (CConstraint D)}

/-- Well-formed constraints on columns of a set. -/
def Within (S : Set CColRef) (c : CConstraint D) : Prop :=
  c.WellFormed ∧ ∀ x ∈ c.columns, x ∈ S

omit [LinearOrder D] in
theorem mem_flatten {P : CConstraint D → Prop}
    (hconj : ∀ l, P (.conjunction l) → ∀ c ∈ l, P c)
    (hdisj : ∀ l, P (.disjunction l) → ∀ c ∈ l, P c) (h : ∀ c ∈ l, P c) :
    ∀ c ∈ flatten fConj l, P c := by
  intro c hc
  obtain ⟨child, hchild, hc⟩ := List.mem_flatMap.1 hc
  have hP := h child hchild
  split at hc
  · exact hconj _ hP c hc
  · exact hdisj _ hP c hc
  · rw [List.mem_singleton.1 hc]
    exact hP

theorem flatten_within (fConj : Bool) {S : Set CColRef} (h : ∀ c ∈ l, Within S c) :
    ∀ c ∈ flatten fConj l, Within S c := by
  refine mem_flatten (fun l hl c hc => ?_) (fun l hl c hc => ?_) h
  · obtain ⟨hwf, hcol⟩ := hl
    cases hwf with
    | conjunction _ hwf _ =>
      exact ⟨hwf c hc, fun x hx => hcol x (by rw [columns, mem_columnsAll]; exact ⟨c, hc, hx⟩)⟩
  · obtain ⟨hwf, hcol⟩ := hl
    cases hwf with
    | disjunction _ hwf _ =>
      exact ⟨hwf c hc, fun x hx => hcol x (by rw [columns, mem_columnsAll]; exact ⟨c, hc, hx⟩)⟩

omit [LinearOrder D] in
theorem flatten_regular (fConj : Bool) (h : ∀ c ∈ l, c.Regular) :
    ∀ c ∈ flatten fConj l, c.Regular := by
  refine mem_flatten (fun l hl c hc => ?_) (fun l hl c hc => ?_) h
  · cases hl with
    | conjunction hl => exact hl c hc
  · cases hl with
    | disjunction hl => exact hl c hc

theorem flatten_ne_nil (hl : l ≠ []) (h : ∀ c ∈ l, c.WellFormed) : flatten fConj l ≠ [] := by
  obtain ⟨child, hchild⟩ := List.exists_mem_of_ne_nil l hl
  intro hnil
  have hempty := List.flatMap_eq_nil_iff.1 hnil child hchild
  have hwf := h child hchild
  split at hempty
  · cases hwf with
    | conjunction hne _ _ => exact hne hempty
  · cases hwf with
    | disjunction hne _ _ => exact hne hempty
  · cases hempty

theorem flatten_sat (row : Row D) : joined fConj (flatten fConj l) (sat · row) ↔
    joined fConj l (sat · row) := by
  induction l with
  | nil => exact Iff.rfl
  | cons child l ih =>
    have happ : ∀ ys zs : List (CConstraint D), joined fConj (ys ++ zs) (sat · row) ↔
        if fConj then joined fConj ys (sat · row) ∧ joined fConj zs (sat · row)
        else joined fConj ys (sat · row) ∨ joined fConj zs (sat · row) := by
      intro ys zs
      cases fConj
      · simp [joined, or_and_right, exists_or]
      · simp [joined, or_imp, forall_and]
    have hhead : flatten fConj (child :: l) =
        flatten fConj [child] ++ flatten fConj l := by simp [flatten]
    rw [hhead, happ, joined_cons, ih]
    have hone : joined fConj (flatten fConj [child]) (sat · row) ↔ child.sat row := by
      cases fConj <;> cases child <;> simp [flatten, joined, sat]
    rw [hone]

variable {c : CConstraint D}

/-- A new conjunction or disjunction stays on the columns of its children. -/
theorem ofConjDisj_within {S : Set CColRef} (hl : l ≠ []) (h : ∀ c ∈ l, Within S c)
    (hc : ofConjDisj fArrayConstraints fConj l = .ok c) : Within S c := by
  simp only [ofConjDisj, bind_eq_ok, pure_eq_ok] at hc
  obtain ⟨out, hout, rfl⟩ := hc
  have hflat := flatten_within fConj h
  have hall := deduplicateLoop_wellFormed hflat (fun c hc => hc) hout
  have hne : out ≠ [] := by
    rcases hf : flatten fConj l with _ | ⟨child, rest⟩
    · exact absurd hf (flatten_ne_nil hl fun c hc => (h c hc).1)
    · rw [hf] at hout
      exact deduplicateLoop_ne_nil hout
  have hcols : ∀ x ∈ columnsAll out, x ∈ S := by
    intro x hx
    obtain ⟨c, hc, hx⟩ := mem_columnsAll.1 hx
    exact (hall c hc).2 x hx
  have hone : ∀ colref, (∀ c ∈ out, OnColumn colref c) → out.length = 1 := by
    intro colref hon
    have hlen := (deduplicateLoop_length (fun c hc => (hflat c hc).1) (List.nil_append _).symm hout hon).2
    have hpos := List.length_pos_of_ne_nil hne
    omega
  split
  · exact ⟨.conjunction hne (fun c hc => (hall c hc).1) hone, hcols⟩
  · exact ⟨.disjunction hne (fun c hc => (hall c hc).1) hone, hcols⟩

theorem ofConjDisj_regular (h : ∀ c ∈ l, c.Regular)
    (hc : ofConjDisj fArrayConstraints fConj l = .ok c) : c.Regular := by
  simp only [ofConjDisj, bind_eq_ok, pure_eq_ok] at hc
  obtain ⟨out, hout, rfl⟩ := hc
  have hall := deduplicateLoop_regular (flatten_regular fConj h) (fun c hc => hc) hout
  split
  · exact .conjunction hall
  · exact .disjunction hall

/-- **Flattening and de-duplication do not change the rows** of a connective of regular
    constraints. -/
theorem ofConjDisj_sat (hwf : ∀ c ∈ l, c.WellFormed) (hreg : ∀ c ∈ l, c.Regular)
    (hc : ofConjDisj fArrayConstraints fConj l = .ok c) (row : Row D) :
    c.sat row ↔ joined fConj l (sat · row) := by
  simp only [ofConjDisj, bind_eq_ok, pure_eq_ok] at hc
  obtain ⟨out, hout, rfl⟩ := hc
  have hflat : ∀ c ∈ flatten fConj l, Within Set.univ c :=
    flatten_within fConj fun c hc => ⟨hwf c hc, fun _ _ => trivial⟩
  have hflatReg := flatten_regular fConj hreg
  rw [← flatten_sat, ← deduplicateLoop_sat (fun c hc => ⟨(hflat c hc).1, hflatReg c hc⟩) hout row]
  cases fConj <;> simp [sat, joined]

/-- `PcnstrConjDisj`: no children, one child, or a new connective. -/
theorem pcnstrConjDisj_within {S : Set CColRef} (h : ∀ c ∈ l, Within S c)
    (hc : pcnstrConjDisj fArrayConstraints fConj l = .ok (some c)) :
    Within S c := by
  unfold pcnstrConjDisj at hc
  split at hc
  · cases hc
  · cases hc; exact h c (by simp)
  · next hne _ =>
    obtain ⟨c', hc', hcc⟩ := map_eq_ok.1 hc
    cases hcc
    exact ofConjDisj_within hne h hc'

theorem pcnstrConjDisj_regular (h : ∀ c ∈ l, c.Regular)
    (hc : pcnstrConjDisj fArrayConstraints fConj l = .ok (some c)) : c.Regular := by
  unfold pcnstrConjDisj at hc
  split at hc
  · cases hc
  · cases hc; exact h c (by simp)
  · obtain ⟨c', hc', hcc⟩ := map_eq_ok.1 hc
    cases hcc
    exact ofConjDisj_regular h hc'

theorem pcnstrConjDisj_sat (hwf : ∀ c ∈ l, c.WellFormed) (hreg : ∀ c ∈ l, c.Regular)
    (hc : pcnstrConjDisj fArrayConstraints fConj l = .ok (some c))
    (row : Row D) : c.sat row ↔ joined fConj l (sat · row) := by
  unfold pcnstrConjDisj at hc
  split at hc
  · cases hc
  · cases hc; cases fConj <;> simp [joined]
  · obtain ⟨c', hc', hcc⟩ := map_eq_ok.1 hc
    cases hcc
    exact ofConjDisj_sat hwf hreg hc' row

theorem pcnstrConjDisj_eq_none (hc : pcnstrConjDisj fArrayConstraints fConj l = .ok none) :
    l = [] := by
  unfold pcnstrConjDisj at hc
  split at hc
  · rfl
  · cases hc
  · obtain ⟨c', -, hcc⟩ := map_eq_ok.1 hc
    cases hcc

end Construct

/-! ## The part on one column -/

theorem pciUnbounded_within {K : CConstraintInterval (Datum D)} {n : Bool}
    (h : CConstraintInterval.pciUnbounded colref n = some K) :
    Within {colref} (.interval K) := by
  obtain ⟨hwf, hcol, -, -⟩ := CConstraintInterval.pciUnbounded_wellFormed h
  have hc : colref.fConstrainable = true := by
    by_contra hne
    simp [CConstraintInterval.pciUnbounded, hne] at h
  exact ⟨.interval hwf (hcol ▸ hc), fun x hx => by simpa [columns, hcol] using hx⟩

theorem pciUnbounded_sat {K : CConstraintInterval (Datum D)}
    (h : CConstraintInterval.pciUnbounded colref true = some K) (row : Row D) :
    sat (.interval K) row := by
  obtain ⟨-, -, -, hn⟩ := CConstraintInterval.pciUnbounded_wellFormed h
  rw [sat]
  cases row K.pcr using WithBot.recBotCoe with
  | bot => rw [CConstraintInterval.admits_bot, hn]
  | coe v => simpa [admits] using CConstraintInterval.mem_pciUnbounded h (v : Datum D)

omit [LinearOrder D] in
theorem pciUnboundedDeref_eq_ok {c : CConstraint D} (h : pciUnboundedDeref colref = .ok c) :
    ∃ K, CConstraintInterval.pciUnbounded colref true = some K ∧ c = .interval K := by
  unfold pciUnboundedDeref at h
  split at h
  · next K hK => cases h; exact ⟨K, hK, rfl⟩
  · cases h

section Part

/-- The parts of the children that survive the conjunction loop. -/
theorem conjunctionOn_forall {P : CConstraint D → Prop} {l kept : List (CConstraint D)}
    (ih : ∀ c ∈ l, ∀ c', c.pcnstr fArrayConstraints colref = .ok (some c') → P c')
    (h : conjunctionOn fArrayConstraints colref l = .ok kept) : ∀ c ∈ kept, P c := by
  induction l generalizing kept with
  | nil => cases h; simp
  | cons child l ihl =>
    have key := fun {kept : List (CConstraint D)}
      (h : conjunctionOn fArrayConstraints colref l = .ok kept) =>
        ihl (fun c hc => ih c (by simp [hc])) h
    rw [conjunctionOn] at h
    split at h
    · simp only [bind_eq_ok] at h
      obtain ⟨o, ho, h⟩ := h
      cases o with
      | none => exact key h
      | some c' =>
        simp only at h
        split at h
        · exact key h
        · simp only [bind_eq_ok, pure_eq_ok] at h
          obtain ⟨kept', hkept, rfl⟩ := h
          intro c hc
          rcases List.mem_cons.1 hc with rfl | hc
          · exact ih child (by simp) c ho
          · exact key hkept c hc
    · exact key h

/-- The result of the disjunction loop: the part of an unbounded child, an unbounded interval, or
    the disjunction of all parts. -/
theorem disjunctionOn_cases {l acc : List (CConstraint D)} {o : Option (CConstraint D)}
    (h : disjunctionOn fArrayConstraints colref l acc = .ok o) :
    (∃ c ∈ l, ∃ c', c.pcnstr fArrayConstraints colref = .ok (some c') ∧
      c'.isConstraintUnbounded = true ∧ o = some c') ∨
    (∃ c ∈ l, c.pcnstr fArrayConstraints colref = .ok none ∧
      ∃ K, CConstraintInterval.pciUnbounded colref true = some K ∧ o = some (.interval K)) ∨
    ∃ parts, List.Forall₂ (fun c c' => c.pcnstr fArrayConstraints colref = .ok (some c')) l parts ∧
      pcnstrConjDisj fArrayConstraints false (acc ++ parts) = .ok o := by
  induction l generalizing acc with
  | nil => exact .inr (.inr ⟨[], .nil, by simpa [disjunctionOn] using h⟩)
  | cons child l ih =>
    simp only [disjunctionOn, bind_eq_ok] at h
    obtain ⟨part, hpart, h⟩ := h
    cases part with
    | none =>
      obtain ⟨c, hc, rfl⟩ := map_eq_ok.1 h
      obtain ⟨K, hK, rfl⟩ := pciUnboundedDeref_eq_ok hc
      exact .inr (.inl ⟨child, by simp, hpart, K, hK, rfl⟩)
    | some c' =>
      simp only at h
      split at h
      · next hunb =>
        cases h
        exact .inl ⟨child, by simp, c', hpart, hunb, rfl⟩
      · rcases ih h with ⟨c, hc, rest⟩ | ⟨c, hc, rest⟩ | ⟨parts, hparts, hjoin⟩
        · exact .inl ⟨c, by simp [hc], rest⟩
        · exact .inr (.inl ⟨c, by simp [hc], rest⟩)
        · exact .inr (.inr ⟨c' :: parts, .cons hpart hparts, by simpa using hjoin⟩)

variable {c c' : CConstraint D}

/-- What intervals on the column have, and joining and negating keep, is what the part on the
    column has. -/
theorem pcnstr_induction {P : CConstraint D → Prop}
    (hinterval : ∀ pci, WellFormed (.interval pci) → pci.pcr = colref → P (.interval pci))
    (hjoin : ∀ fConj parts c', (∀ c ∈ parts, P c) →
      pcnstrConjDisj fArrayConstraints fConj parts = .ok (some c') → P c')
    (hnegation : ∀ c c' : CConstraint D, c.WellFormed → c.OnColumn colref →
      c.pcnstr fArrayConstraints colref = .ok (some c') → P c' → P (.negation c'))
    (hwf : c.WellFormed) (h : c.pcnstr fArrayConstraints colref = .ok (some c')) : P c' := by
  have hunbounded : ∀ {K n}, CConstraintInterval.pciUnbounded colref n = some K →
      P (.interval K) := fun hK => hinterval _ (pciUnbounded_within hK).1
    (CConstraintInterval.pciUnbounded_wellFormed hK).2.1
  induction c using CConstraint.induction generalizing c' with
  | interval pci =>
    rw [pcnstr] at h
    split at h
    · next hcol => cases h; exact hinterval pci hwf hcol
    · cases h
  | conjunction l ih =>
    cases hwf with
    | conjunction _ hwf _ =>
      rw [pcnstr] at h
      split at h
      · simp only [bind_eq_ok] at h
        obtain ⟨kept, hkept, h⟩ := h
        exact hjoin true kept c'
          (conjunctionOn_forall (fun c hc c' hc' => ih c hc (hwf c hc) hc') hkept) h
      · cases h
  | disjunction l ih =>
    cases hwf with
    | disjunction _ hwf _ =>
      rw [pcnstr] at h
      split at h
      · cases h
      · split at h
        · rcases disjunctionOn_cases h with ⟨c, hc, c'', hpart, -, heq⟩ | ⟨-, -, -, K, hK, heq⟩ |
            ⟨parts, hparts, hdisj⟩
          · cases heq
            exact ih c hc (hwf c hc) hpart
          · cases heq
            exact hunbounded hK
          · refine hjoin false parts c' (fun c' hc' => ?_) hdisj
            obtain ⟨c, hc, hpart⟩ := exists_of_forall₂_right hparts hc'
            exact ih c hc (hwf c hc) hpart
        · simp only [Except.ok.injEq, Option.map_eq_some_iff] at h
          obtain ⟨K, hK, rfl⟩ := h
          exact hunbounded hK
  | negation c ih =>
    cases hwf with
    | negation hwf =>
      rw [pcnstr] at h
      split at h
      · next hcol =>
        simp only [bind_eq_ok] at h
        obtain ⟨part, hpart, h⟩ := h
        cases part with
        | none => cases h
        | some c'' =>
          cases h
          exact hnegation c c'' hwf (pcrsUsed_eq_singleton.1 hcol).2 hpart (ih hwf hpart)
      · cases h

/-- The part on a column is a constraint on that column. -/
theorem pcnstr_within (hwf : c.WellFormed)
    (h : c.pcnstr fArrayConstraints colref = .ok (some c')) : Within {colref} c' :=
  pcnstr_induction
    (fun _ hwf hcol => ⟨hwf, fun x hx => by simpa [columns, hcol] using hx⟩)
    (fun _ _ _ hparts => pcnstrConjDisj_within hparts)
    (fun _ _ _ _ _ hc => ⟨.negation hc.1, hc.2⟩) hwf h

/-- The part of a constraint without other columns is a literal. -/
theorem pcnstr_literal (hwf : c.WellFormed) (hon : c.OnColumn colref)
    (h : c.pcnstr fArrayConstraints colref = .ok (some c')) : c'.Literal := by
  induction c using CConstraint.induction generalizing c' with
  | interval pci =>
    rw [pcnstr] at h
    split at h
    · cases h; exact .interval pci
    · cases h
  | conjunction l ih =>
    cases hwf with
    | conjunction _ hwf hone =>
      obtain ⟨child, rfl⟩ := List.length_eq_one_iff.1
        (hone colref fun c hc => OnColumn.child hon hc)
      rw [pcnstr] at h
      split at h
      · simp only [bind_eq_ok] at h
        obtain ⟨kept, hkept, h⟩ := h
        have hlit := conjunctionOn_forall (P := Literal)
          (fun c hc c' hc' => ih c hc (hwf c hc) (OnColumn.child hon hc) hc') hkept
        have hlen : kept.length ≤ 1 := by
          rw [conjunctionOn] at hkept
          split at hkept
          · simp only [bind_eq_ok] at hkept
            obtain ⟨o, -, hkept⟩ := hkept
            cases o with
            | none => cases hkept; simp
            | some d =>
              simp only at hkept
              split at hkept
              · cases hkept; simp
              · cases hkept; simp
          · cases hkept; simp
        rcases kept with _ | ⟨d, _ | ⟨d', rest⟩⟩
        · cases h
        · cases h; exact hlit _ (by simp)
        · simp at hlen
      · cases h
  | disjunction l ih =>
    cases hwf with
    | disjunction _ hwf hone =>
      obtain ⟨child, rfl⟩ := List.length_eq_one_iff.1
        (hone colref fun c hc => OnColumn.child hon hc)
      rw [pcnstr] at h
      split at h
      · cases h
      · split at h
        · rcases disjunctionOn_cases h with ⟨c, hc, c'', hpart, -, heq⟩ | ⟨-, -, -, K, hK, heq⟩ |
            ⟨parts, hparts, hjoin⟩
          · cases heq
            exact ih c hc (hwf c hc) (OnColumn.child hon hc) hpart
          · cases heq
            exact .interval K
          · cases hparts with
            | cons hpart hrest =>
              cases hrest
              cases hjoin
              exact ih child (by simp) (hwf child (by simp)) (OnColumn.child hon (by simp)) hpart
        · simp only [Except.ok.injEq, Option.map_eq_some_iff] at h
          obtain ⟨K, hK, rfl⟩ := h
          exact .interval K
  | negation c ih =>
    cases hwf with
    | negation hwf =>
      rw [pcnstr] at h
      split at h
      · simp only [bind_eq_ok] at h
        obtain ⟨part, hpart, h⟩ := h
        cases part with
        | none => cases h
        | some d => cases h; exact .negation (ih hwf hon hpart)
      · cases h

/-- The part of a constraint is regular. -/
theorem pcnstr_regular (hwf : c.WellFormed)
    (h : c.pcnstr fArrayConstraints colref = .ok (some c')) : c'.Regular :=
  pcnstr_induction (fun pci _ _ => .interval pci)
    (fun _ _ _ hparts => pcnstrConjDisj_regular hparts)
    (fun _ _ hwf hon hpart _ => (pcnstr_literal hwf hon hpart).regular.2) hwf h

/-- What the part of a constraint says: it accepts the rows of the constraint and, when there is
    no other column, only those. A missing part accepts everything. -/
def PartOf (row : Row D) (colref : CColRef) (c : CConstraint D) (o : Option (CConstraint D)) :
    Prop :=
  (c.sat row → ∀ c' ∈ o, c'.sat row) ∧ (c.OnColumn colref → (∀ c' ∈ o, c'.sat row) → c.sat row)

/-- The conjunction loop: the kept parts accept what all children accept, and a row that all kept
    parts accept satisfies every child on this column only. -/
theorem conjunctionOn_sat {row : Row D} {l kept : List (CConstraint D)}
    (ih : ∀ c ∈ l, ∀ o, c.pcnstr fArrayConstraints colref = .ok o → PartOf row colref c o)
    (h : conjunctionOn fArrayConstraints colref l = .ok kept) :
    ((∀ c ∈ l, c.sat row) → ∀ c' ∈ kept, c'.sat row) ∧
      ((∀ c' ∈ kept, c'.sat row) → ∀ c ∈ l, c.OnColumn colref → colref ∈ c.columns →
        c.sat row) := by
  induction l generalizing kept with
  | nil => cases h; simp
  | cons child l ihl =>
    have key := fun {kept : List (CConstraint D)}
      (h : conjunctionOn fArrayConstraints colref l = .ok kept) =>
        ihl (fun c hc => ih c (by simp [hc])) h
    simp only [List.mem_cons, forall_eq_or_imp]
    rw [conjunctionOn] at h
    split at h
    · simp only [bind_eq_ok] at h
      obtain ⟨o, ho, h⟩ := h
      obtain ⟨hover, hunder⟩ := ih child (by simp) o ho
      -- a part that is dropped accepts the row
      have hdrop : conjunctionOn fArrayConstraints colref l = .ok kept → (∀ c' ∈ o, c'.sat row) →
          _ := fun h ho' => And.intro (fun hs : child.sat row ∧ ∀ c ∈ l, c.sat row =>
            (key h).1 hs.2)
            (fun hk : ∀ c' ∈ kept, c'.sat row =>
              And.intro (fun hon (_ : colref ∈ child.columns) => hunder hon ho') ((key h).2 hk))
      cases o with
      | none => exact hdrop h (by simp)
      | some c' =>
        simp only at h
        split at h
        · next hunb => exact hdrop h (by simpa using (sat_of_flags c' row).2 hunb)
        · simp only [bind_eq_ok, pure_eq_ok] at h
          obtain ⟨kept', hkept, rfl⟩ := h
          simp only [List.mem_cons, forall_eq_or_imp]
          refine ⟨fun hs => ⟨hover hs.1 c' rfl, (key hkept).1 hs.2⟩, fun hk => ⟨?_, ?_⟩⟩
          · exact fun hon _ => hunder hon (by simpa using hk.1)
          · exact (key hkept).2 hk.2
    · next hne =>
      exact ⟨fun hs => (key h).1 hs.2, fun hk => ⟨fun _ hin => absurd hin hne, (key h).2 hk⟩⟩

/-- The parts kept by a conjunction, and their conjunction. -/
theorem pcnstr_conjunction_sat (row : Row D) {l kept : List (CConstraint D)}
    {o : Option (CConstraint D)} (hwf : ∀ c ∈ l, c.WellFormed)
    (hkept : conjunctionOn fArrayConstraints colref l = .ok kept)
    (h : pcnstrConjDisj fArrayConstraints true kept = .ok o) :
    (∀ c' ∈ o, c'.sat row) ↔ ∀ c' ∈ kept, c'.sat row := by
  have hkWf := conjunctionOn_forall (fun c hc c' hc' => (pcnstr_within (hwf c hc) hc').1) hkept
  have hkReg := conjunctionOn_forall (fun c hc c' hc' => pcnstr_regular (hwf c hc) hc') hkept
  cases o with
  | none => simp [pcnstrConjDisj_eq_none h]
  | some c' => simpa [joined] using pcnstrConjDisj_sat hkWf hkReg h row

/-- **The part of a constraint on a column** accepts what the constraint accepts, and is equivalent
    to a constraint on that column only. -/
theorem pcnstr_partOf {c : CConstraint D} (hwf : c.WellFormed)
    {o : Option (CConstraint D)} (h : c.pcnstr fArrayConstraints colref = .ok o) (row : Row D) :
    PartOf row colref c o := by
  induction c using CConstraint.induction generalizing o with
  | interval pci =>
    rw [pcnstr] at h
    split at h
    · cases h; exact ⟨fun hs => by simpa using hs, fun _ hs => hs _ rfl⟩
    · next hne =>
      cases h
      exact ⟨by simp, fun hon => absurd (hon _ (by simp [columns])) hne⟩
  | conjunction l ih =>
    have hmem : OnColumn colref _ → colref ∈ _ := hwf.mem_columns
    cases hwf with
    | conjunction hne hwf _ =>
      rw [pcnstr] at h
      split at h
      · simp only [bind_eq_ok] at h
        obtain ⟨kept, hkept, h⟩ := h
        obtain ⟨hover, hunder⟩ := conjunctionOn_sat
          (fun c hc o ho => ih c hc (hwf c hc) ho) hkept
        rw [PartOf, sat, satAll_iff, pcnstr_conjunction_sat row hwf hkept h]
        refine ⟨hover, fun hon hk c hc => ?_⟩
        have hon := OnColumn.child hon hc
        exact hunder hk c hc hon ((hwf c hc).mem_columns hon)
      · next hnot =>
        cases h
        exact ⟨by simp, fun hon => absurd (hmem hon) hnot⟩
  | disjunction l ih =>
    have hmem : OnColumn colref _ → colref ∈ _ := hwf.mem_columns
    cases hwf with
    | disjunction hne hwf _ =>
      rw [pcnstr] at h
      split at h
      · next hnot =>
        cases h
        exact ⟨by simp, fun hon => absurd (hmem hon) hnot⟩
      · split at h
        · rcases disjunctionOn_cases h with ⟨c, hc, c', hpart, hunb, rfl⟩ |
            ⟨c, hc, hpart, K, hK, rfl⟩ | ⟨parts, hparts, hjoin⟩
          · have hall := (sat_of_flags c' row).2 hunb
            refine ⟨fun _ => by simpa using hall, fun hon _ => ?_⟩
            rw [sat, satAny_iff]
            exact ⟨c, hc, (ih c hc (hwf c hc) hpart).2 (OnColumn.child hon hc) (by simpa using hall)⟩
          · refine ⟨fun _ => by simpa using pciUnbounded_sat hK row, fun hon _ => ?_⟩
            rw [sat, satAny_iff]
            exact ⟨c, hc, (ih c hc (hwf c hc) hpart).2 (OnColumn.child hon hc) (by simp)⟩
          · rw [List.nil_append] at hjoin
            have hpWf : ∀ c' ∈ parts, c'.WellFormed := by
              intro c' hc'
              obtain ⟨c, hc, hpart⟩ := exists_of_forall₂_right hparts hc'
              exact (pcnstr_within (hwf c hc) hpart).1
            have hpReg : ∀ c' ∈ parts, c'.Regular := by
              intro c' hc'
              obtain ⟨c, hc, hpart⟩ := exists_of_forall₂_right hparts hc'
              exact pcnstr_regular (hwf c hc) hpart
            cases o with
            | none =>
              have hnil := pcnstrConjDisj_eq_none hjoin
              subst hnil
              cases hparts
              exact absurd rfl hne
            | some d =>
              simp only [PartOf, Option.mem_some_iff, forall_eq', sat, satAny_iff,
                pcnstrConjDisj_sat hpWf hpReg hjoin row, joined, Bool.false_eq_true, if_false]
              constructor
              · rintro ⟨c, hc, hs⟩
                obtain ⟨c', hc', hpart⟩ := exists_of_forall₂_left hparts hc
                exact ⟨c', hc', (ih c hc (hwf c hc) hpart).1 hs c' rfl⟩
              · rintro hon ⟨c', hc', hs⟩
                obtain ⟨c, hc, hpart⟩ := exists_of_forall₂_right hparts hc'
                exact ⟨c, hc, (ih c hc (hwf c hc) hpart).2 (OnColumn.child hon hc) (by simpa using hs)⟩
        · next hnotall =>
          simp only [Except.ok.injEq] at h
          subst h
          refine ⟨fun _ c' hc' => ?_, fun hon => ?_⟩
          · obtain ⟨K, hK, rfl⟩ := Option.mem_map.1 hc'
            exact pciUnbounded_sat hK row
          · refine absurd (List.all_eq_true.2 fun c hc => ?_) hnotall
            simpa using (hwf c hc).mem_columns (OnColumn.child hon hc)
  | negation c ih =>
    cases hwf with
    | negation hwf =>
      rw [pcnstr] at h
      split at h
      · next hcol =>
        simp only [bind_eq_ok] at h
        obtain ⟨part, hpart, h⟩ := h
        cases part with
        | none => cases h
        | some d =>
          cases h
          -- the part of the child is equivalent to the child, so it may be negated
          obtain ⟨hover, hunder⟩ := ih hwf hpart
          have hon := (pcrsUsed_eq_singleton.1 hcol).2
          simp only [PartOf, Option.mem_some_iff, forall_eq', sat] at hover hunder ⊢
          exact ⟨mt (hunder hon), fun _ => mt hover⟩
      · next hne =>
        cases h
        exact ⟨by simp, fun hon => absurd (hwf.pcrsUsed_eq hon) hne⟩

end Part

end CConstraint

end BossOptimizer

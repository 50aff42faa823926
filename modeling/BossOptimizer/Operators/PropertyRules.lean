import BossOptimizer.Operators.PropertySoundness

/-!
# The rules of the operators keep properties sound

Base tables, projections and n-ary joins; selections and inner joins are `fromPredicates_sound`,
aggregates `restrict_sound`.
-/

namespace BossOptimizer

open CConstraint CPropConstraint LogicalExpr

variable {D : Type} [LinearOrder D] {ex : Execution D} {env : Row D} {S : Set CColRef}
  {P : Row D → Prop} {acc : CPropConstraint.Collected D} {ppc : CPropConstraint D}
  {fArrayConstraints : Bool} {arrayExpansionThreshold : ℕ}

namespace LogicalExpr

/-- The predicates and check constraints that an operator derives its property from are safe. -/
def constraintsSafe (fArrayConstraints : Bool) (arrayExpansionThreshold : ℕ) :
    LogicalExpr D → Prop
  | .get ptabdesc out _ => ∀ check ∈ ptabdesc.checkConstraints,
      safe fArrayConstraints arrayExpansionThreshold true true
        (check (nonSystemColumns ptabdesc out))
  | .select _ pexprScalar => pexprScalar.fPredicate = true →
      safe fArrayConstraints arrayExpansionThreshold true false pexprScalar
  | .join .inner _ _ pexprScalar => pexprScalar.fPredicate = true →
      safe fArrayConstraints arrayExpansionThreshold true false pexprScalar
  | .naryJoin _ none innerJoinPreds _ => innerJoinPreds.fPredicate = true →
      safe fArrayConstraints arrayExpansionThreshold true false innerJoinPreds
  | .naryJoin children (some idx) innerJoinPreds _ =>
      safe fArrayConstraints arrayExpansionThreshold true false (getTrueInnerJoinPreds
        (childrenOf false (some idx) 0 (children.map deriveOutputColumns)) innerJoinPreds)
  | _ => True

end LogicalExpr

namespace CPropConstraint

/-! ## Base tables -/

attribute [local simp] LogicalExpr.constraintsSafe LogicalExpr.derivePropertyConstraint in
/-- A class of one column and a constraint on that column. -/
theorem CollectedSound.addColumn (h : CollectedSound S P acc) {colref : CColRef} {K : CConstraint D}
    (hcol : colref ∈ S) (hwithin : Within {colref} K) (hreg : K.Regular)
    (hsat : ∀ r, P r → K.sat r) : CollectedSound S P (acc.1 ++ [[colref]], acc.2 ++ [K]) where
  classesWithin := h.classesWithin.append (by simpa [ClassesWithin] using hcol)
  within K' hK' := by
    rcases List.mem_append.1 hK' with hK' | hK'
    · exact h.within K' hK'
    · rw [List.mem_singleton.1 hK']
      exact ⟨hwithin.1, fun x hx => by rw [show x = colref from hwithin.2 x hx]; exact hcol⟩
  regular K' hK' := by
    rcases List.mem_append.1 hK' with hK' | hK'
    · exact h.regular K' hK'
    · rwa [List.mem_singleton.1 hK']
  classes r hr := by
    refine classesHold_append (h.classes r hr) fun pcrs hpcrs x hx y hy => ?_
    obtain rfl := List.mem_singleton.1 hpcrs
    rw [List.mem_singleton.1 hx, List.mem_singleton.1 hy]
  sat r hr K' hK' := by
    rcases List.mem_append.1 hK' with hK' | hK'
    · exact h.sat r hr K' hK'
    · rw [List.mem_singleton.1 hK']
      exact hsat r hr

theorem CollectedSound.addTableColumn (h : CollectedSound S P acc) {unused : List CColRef}
    {col : CColRef × CColumnDescriptor} (hcol : col.1 ∈ S)
    (hnull : col.2.isNullable = false → ∀ r, P r → r col.1 ≠ ⊥) :
    CollectedSound S P (CPropConstraint.addTableColumn unused acc col) := by
  unfold CPropConstraint.addTableColumn
  split
  · exact h
  · next hskip =>
    split
    · exact h
    · next pci hpci =>
      simp only [Bool.or_eq_true, not_or, Bool.not_eq_true] at hskip
      have hmem : CConstraint.interval pci ∈
          ((CConstraintInterval.pciUnbounded col.1 false).map interval).toList := by simp [hpci]
      obtain ⟨hwithin, hreg, hsat⟩ := pciUnbounded_regular_within hmem
      refine h.addColumn hcol hwithin hreg fun r hr => (hsat r).2 fun hbot => ?_
      exact absurd hbot (hnull hskip.1.2 r hr)

theorem CollectedSound.addTableColumns {unused : List CColRef}
    {cols : List (CColRef × CColumnDescriptor)} (h : CollectedSound S P acc)
    (hcols : ∀ col ∈ cols, col.1 ∈ S ∧ (col.2.isNullable = false → ∀ r, P r → r col.1 ≠ ⊥)) :
    CollectedSound S P (cols.foldl (CPropConstraint.addTableColumn unused) acc) := by
  induction cols generalizing acc with
  | nil => exact h
  | cons col cols ih =>
    refine ih (h.addTableColumn (hcols col (by simp)).1 (hcols col (by simp)).2) fun col' h' => ?_
    exact hcols col' (by simp [h'])

theorem CollectedSound.addPredicates {I : Interpretation D} {m : Bool} {es : List (ScalarExpr D)}
    (h : CollectedSound S P acc) {acc' : Collected D}
    (hadd : es.foldlM (CPropConstraint.addPredicate fArrayConstraints arrayExpansionThreshold m)
      acc = .ok acc')
    (hes : ∀ e ∈ es, safe fArrayConstraints arrayExpansionThreshold true m e ∧
      (∀ c ∈ e.usedColumns, c ∈ S) ∧
      ∀ r, P r → NotNullFor m e r ∧ CConstraintInterval.satisfied I m e r) :
    CollectedSound S P acc' := by
  induction es generalizing acc with
  | nil => cases hadd; exact h
  | cons e es ih =>
    rw [List.foldlM_cons] at hadd
    obtain ⟨acc₁, hacc₁, hadd⟩ := bind_eq_ok.1 hadd
    obtain ⟨hsafe, hS, hP⟩ := hes e (by simp)
    exact ih (h.addPredicate hacc₁ hsafe hS (fun r hr => (hP r hr).1) fun r hr => (hP r hr).2)
      hadd fun e' he' => hes e' (by simp [he'])

omit [LinearOrder D] in
/-- The column references of a base table have the nullability of their descriptors. -/
theorem isNullable_of_mem_zip {ptabdesc : CTableDescriptor D} {out unused : List CColRef}
    (hs : WellScoped (.get ptabdesc out unused)) {col : CColRef × CColumnDescriptor}
    (hcol : col ∈ out.zip ptabdesc.pdrgpcoldesc) : col.1.isNullable = col.2.isNullable := by
  obtain ⟨-, -, hnull, -⟩ := hs
  obtain ⟨i, hi, rfl⟩ := List.mem_iff_getElem.1 hcol
  rw [List.length_zip, lt_min_iff] at hi
  have hget := congrArg (·[i]?) hnull
  simp only [List.getElem?_map, List.getElem?_eq_getElem hi.1, List.getElem?_eq_getElem hi.2,
    Option.map_some, Option.some.injEq] at hget
  rw [List.getElem_zip]
  exact hget.symm

/-- **A base table**: not-null columns and check constraints. -/
theorem fromTable_sound {ptabdesc : CTableDescriptor D} {out unused : List CColRef}
    (hs : WellScoped (.get ptabdesc out unused)) (hf : TableFacts ex ptabdesc out)
    (hsafe : ∀ check ∈ ptabdesc.checkConstraints, safe fArrayConstraints arrayExpansionThreshold
      true true (check (nonSystemColumns ptabdesc out)))
    (h : fromTable fArrayConstraints arrayExpansionThreshold ptabdesc out unused = .ok ppc) :
    Sound {c | c ∈ out} (· ∈ (get ptabdesc out unused).rows ex env) ppc := by
  obtain ⟨acc, hacc, h⟩ := bind_eq_ok.1 h
  have hrow : ∀ r ∈ (get ptabdesc out unused).rows ex env, ∀ c ∈ out, c.isNullable = false →
      r c ≠ ⊥ := by
    intro r hr c hc hn
    obtain ⟨vals, hvals, rfl⟩ := List.mem_map.1 hr
    exact assign_notNull hs hf hvals hc hn
  refine ofCollected_sound (CollectedSound.addPredicates (I := ex.scalars)
    (collectedSound_nil.addTableColumns fun col hcol => ⟨?_, ?_⟩) hacc ?_) h
  · exact (List.of_mem_zip hcol).1
  · intro hn r hr
    refine hrow r hr col.1 (List.of_mem_zip hcol).1 ?_
    rw [isNullable_of_mem_zip hs hcol, hn]
  · intro e he
    obtain ⟨check, hcheck, rfl⟩ := List.mem_map.1 he
    have hused := hs.2.2.2.2 check hcheck
    refine ⟨hsafe check hcheck, hused, fun r hr => ⟨?_, ?_⟩⟩
    · exact fun _ c hc _ hn => hrow r hr c (hused c hc) hn
    · obtain ⟨vals, hvals, rfl⟩ := List.mem_map.1 hr
      exact hf.checks vals hvals env check hcheck

/-! ## Projections -/

/-- What a project element says of a row: it is the constant, or the column it projects. -/
theorem CollectedSound.addProjectElement (h : CollectedSound S P acc) {notNullColumns : List CColRef}
    {el : CScalarProjectElement D} (hcol : el.pcr ∈ S) (hcols : ∀ x ∈ notNullColumns, x ∈ S)
    (hconst : ∀ datum, el.scalar = .operand (.const datum) → ∀ r, P r → r el.pcr = datum)
    (hident : ∀ x ∈ notNullColumns, el.scalar = .operand (.ident x) →
      ∀ r, P r → r el.pcr = r x) :
    CollectedSound S P (CPropConstraint.addProjectElement notNullColumns acc el) := by
  unfold CPropConstraint.addProjectElement
  split
  · next datum hel =>
    split
    · exact h
    · next hc =>
      have hpoint : (⟨el.pcr, if datum = ⊥ then [] else [CRange.ofCmp .eq datum],
          decide (datum = ⊥)⟩ : CConstraintInterval (Datum D)) = pointInterval el.pcr datum := by
        unfold pointInterval
        split <;> simp_all
      simp only [hpoint]
      refine h.addColumn hcol ⟨.interval (pointInterval_wellFormed _ _) (by simpa using hc), ?_⟩
        (.interval _) fun r hr => ?_
      · simp [columns]
      · rw [CConstraint.sat, pointInterval_pcr, hconst datum hel r hr]
        exact pointInterval_admits _ _
  · next x hel =>
    split
    · next hx =>
      replace hx : x ∈ notNullColumns := by simp_all
      have hclass : Sound S P (⟨[[el.pcr, x]], none⟩ : CPropConstraint D) := by
        refine ⟨?_, by simp, by simp, fun r hr => ?_, by simp⟩
        · simpa [ClassesWithin] using ⟨hcol, hcols x hx⟩
        · simp [classesHold, hident x hx hel r hr]
      simpa [CPropConstraint.addChild] using h.addChild hclass
    · exact h
  · exact h

theorem CollectedSound.addProjectElements {notNullColumns : List CColRef}
    {l : List (CScalarProjectElement D)} (h : CollectedSound S P acc)
    (hcols : ∀ x ∈ notNullColumns, x ∈ S)
    (hl : ∀ el ∈ l, el.pcr ∈ S ∧
      (∀ datum, el.scalar = .operand (.const datum) → ∀ r, P r → r el.pcr = datum) ∧
      ∀ x ∈ notNullColumns, el.scalar = .operand (.ident x) → ∀ r, P r → r el.pcr = r x) :
    CollectedSound S P (l.foldl (CPropConstraint.addProjectElement notNullColumns) acc) := by
  induction l generalizing acc with
  | nil => exact h
  | cons el l ih =>
    obtain ⟨hcol, hconst, hident⟩ := hl el (by simp)
    exact ih (h.addProjectElement hcol hcols hconst hident) fun el' hel' => hl el' (by simp [hel'])

/-- **A projection**: the property of the child, constants and projected columns. -/
theorem fromProject_sound {child : LogicalExpr D} {l : List (CScalarProjectElement D)}
    (hs : WellScoped (.project child l)) {ppcChild : CPropConstraint D}
    (hchild : Sound child.colrefs (· ∈ child.rows ex env) ppcChild)
    (h : fromProject fArrayConstraints ppcChild child.deriveNotNullColumns l = .ok ppc) :
    Sound (project child l).colrefs (· ∈ (project child l).rows ex env) ppc := by
  have hrow : ∀ r ∈ (project child l).rows ex env, ∃ row ∈ child.rows ex env,
      r ∈ projectRow ex l row ∧ AgreeOn child.colrefs r row := by
    intro r hr
    obtain ⟨row, hrow, hr⟩ := List.mem_flatMap.1 hr
    exact ⟨row, hrow, hr, projectRow_agree hs hr⟩
  have hpass : Sound (project child l).colrefs (· ∈ (project child l).rows ex env) ppcChild := by
    refine hchild.transfer Set.subset_union_left fun r hr => ?_
    obtain ⟨row, hrow, -, hagree⟩ := hrow r hr
    exact ⟨row, hrow, hagree⟩
  simp only [fromProject] at h
  split at h
  · cases h; exact hpass
  refine ofCollected_sound (CollectedSound.addChild (collectedSound_nil.addProjectElements ?_ ?_)
    hpass) h
  · exact fun x hx => .inl (deriveNotNullColumns_subset child x hx)
  · refine fun el hel => ⟨.inr ⟨el, hel, rfl⟩, fun datum hdatum r hr => ?_, fun x hx hident r hr => ?_⟩
    · obtain ⟨row, -, hr, -⟩ := hrow r hr
      obtain ⟨k, hk⟩ := projectRow_el hs hr hel
      rw [hk, hdatum]
      rfl
    · obtain ⟨row, -, hr, hagree⟩ := hrow r hr
      obtain ⟨k, hk⟩ := projectRow_el hs hr hel
      rw [hk, hident, hagree x (deriveNotNullColumns_subset child x hx)]
      rfl

/-! ## Set operations -/

omit [LinearOrder D] in
/-- A column after the replacements: it was there, or it replaces one that was. -/
theorem mem_replaceColumns {pairs : List (CColRef × CColRef)} {pcrs : List CColRef}
    (hpairs : pairs.Pairwise fun p q => p.2 ≠ q.1) {c : CColRef}
    (hc : c ∈ replaceColumns pairs pcrs) :
    (c ∈ pcrs ∧ ∀ p ∈ pairs, p.1 ≠ c) ∨ ∃ p ∈ pairs, p.1 ∈ pcrs ∧ c = p.2 := by
  induction pairs generalizing pcrs with
  | nil => exact .inl ⟨hc, by simp⟩
  | cons pair rest ih =>
    obtain ⟨pcrOut, pcrIn⟩ := pair
    obtain ⟨hhead, hrest⟩ := List.pairwise_cons.1 hpairs
    rw [replaceColumns] at hc
    rcases ih hrest hc with ⟨hmem, hne⟩ | ⟨p, hp, hmem, rfl⟩
    · split at hmem
      · next hout =>
        rcases List.mem_append.1 hmem with hmem | hmem
        · obtain ⟨hmem, hcOut⟩ := List.mem_filter.1 hmem
          refine .inl ⟨hmem, fun p hp => ?_⟩
          rcases List.mem_cons.1 hp with rfl | hp
          · have hne' : c ≠ pcrOut := by simpa using hcOut
            exact hne'.symm
          · exact hne p hp
        · exact .inr ⟨(pcrOut, pcrIn), by simp, hout, List.mem_singleton.1 hmem⟩
      · next hout =>
        refine .inl ⟨hmem, ?_⟩
        rintro p hp rfl
        rcases List.mem_cons.1 hp with rfl | hp
        · exact hout hmem
        · exact hne p hp rfl
    · refine .inr ⟨p, by simp [hp], ?_, rfl⟩
      split at hmem
      · rcases List.mem_append.1 hmem with hmem | hmem
        · exact List.mem_of_mem_filter hmem
        -- a column that was put in is not replaced again
        · exact absurd (List.mem_singleton.1 hmem).symm (hhead p hp)
      · exact hmem

/-- A row that has the values of a row of a child in the places of its columns. -/
def RestatesRow (out cols : List CColRef) (s r : Row D) : Prop :=
  ∀ (j : ℕ) c, out[j]? = some c → ∃ c', cols[j]? = some c' ∧ r c = s c'

/-- A row of a set operation that restates a row of a child. -/
def Restated (out : List CColRef) (Q : CPropConstraint D × List CColRef → Row D → Prop)
    (child : CPropConstraint D × List CColRef) (r : Row D) : Prop :=
  ∃ s, Q child s ∧ RestatesRow out child.2 s r

/-- Input columns that are output columns stand at the same place. -/
def Aligned (out cols : List CColRef) : Prop :=
  ∀ i j (hi : i < out.length) (hj : j < cols.length), out[i] = cols[j] → i = j

/-- A child of a set operation: a sound property, and input columns that fit the output columns. -/
def GoodInput (out : List CColRef) (Q : CPropConstraint D × List CColRef → Row D → Prop)
    (child : CPropConstraint D × List CColRef) : Prop :=
  Sound Set.univ (Q child) child.1 ∧ child.2.length = out.length ∧ Aligned out child.2

omit [LinearOrder D] in
/-- The mapped classes of a child are classes of output columns that hold in the restated rows. -/
theorem pdrgpcrsInputMapped_sound {out : List CColRef} {child : CPropConstraint D × List CColRef}
    (hal : Aligned out child.2) (hlen : child.2.length = out.length) :
    ClassesWithin {c | c ∈ out} (pdrgpcrsInputMapped out child) ∧
      ∀ r s : Row D, classesHold child.1.pdrgpcrs s → RestatesRow out child.2 s r →
        classesHold (pdrgpcrsInputMapped out child) r := by
  obtain ⟨hparts, hsub⟩ := intersectClasses_parts child.1.pdrgpcrs child.2
  have hpairs : (child.2.zip out).Pairwise fun p q => p.2 ≠ q.1 := by
    refine List.pairwise_iff_getElem.2 fun i j hi hj hij heq => ?_
    simp only [List.getElem_zip] at heq
    simp only [List.length_zip, lt_inf_iff] at hi hj
    exact absurd (hal i j hi.2 hj.1 heq) (Nat.ne_of_lt hij)
  -- every column of a mapped class stands at the place of a column of the class
  have hmem : ∀ p ∈ intersectClasses child.1.pdrgpcrs child.2,
      ∀ c ∈ replaceColumns (child.2.zip out) p,
        ∃ j : ℕ, ∃ c' ∈ p, out[j]? = some c ∧ child.2[j]? = some c' := by
    intro p hp c hc
    rcases mem_replaceColumns hpairs hc with ⟨hcp, hne⟩ | ⟨q, hq, hqp, rfl⟩
    · obtain ⟨j, hj, rfl⟩ := List.mem_iff_getElem.1 (hsub p hp hcp)
      have hjzip : j < (child.2.zip out).length := by simp [hj, hlen ▸ hj]
      exact absurd (by simp) (hne _ (List.getElem_mem hjzip))
    · obtain ⟨j, hj, rfl⟩ := List.mem_iff_getElem.1 hq
      simp only [List.length_zip, lt_inf_iff] at hj
      rw [List.getElem_zip] at hqp ⊢
      exact ⟨j, _, hqp, List.getElem?_eq_getElem hj.2, List.getElem?_eq_getElem hj.1⟩
  refine ⟨fun p' hp' c hc => ?_, fun r s hs hr p' hp' x hx y hy => ?_⟩
  · obtain ⟨p, hp, rfl⟩ := List.mem_map.1 hp'
    obtain ⟨j, -, -, hj, -⟩ := hmem p hp c hc
    exact List.mem_of_getElem? hj
  · obtain ⟨p, hp, rfl⟩ := List.mem_map.1 hp'
    have hval : ∀ c ∈ replaceColumns (child.2.zip out) p, ∃ c' ∈ p, r c = s c' := by
      intro c hc
      obtain ⟨j, c', hc', hout, hcols⟩ := hmem p hp c hc
      obtain ⟨c'', hc'', hrc⟩ := hr j c hout
      obtain rfl : c' = c'' := Option.some.inj (hcols.symm.trans hc'')
      exact ⟨c', hc', hrc⟩
    obtain ⟨x', hx', hrx⟩ := hval x hx
    obtain ⟨y', hy', hry⟩ := hval y hy
    rw [hrx, hry]
    exact hparts.holds hs p hp x' hx' y' hy'

/-- The part of a child's constraint on an input column, restated. -/
theorem pcnstrColumn_sound {Q : Row D → Prop} (h : Sound Set.univ Q ppc) {pcrInput colref : CColRef}
    (hc : colref.fConstrainable = true) {K : CConstraint D}
    (hK : pcnstrColumn fArrayConstraints ppc pcrInput colref = .ok (some K)) :
    Within {colref} K ∧ K.Regular ∧ ∀ r s : Row D, Q s → r colref = s pcrInput → K.sat r := by
  unfold pcnstrColumn at hK
  split at hK
  · cases hK
  · next pcnstrChild hchild =>
    obtain ⟨o, ho, hK⟩ := bind_eq_ok.1 hK
    have hmem : pcnstrChild ∈ ppc.pcnstr.toList := by simp [hchild]
    have hwf := (h.within pcnstrChild hmem).1
    cases o with
    | none => cases hK
    | some pcnstrCol =>
      obtain ⟨hcwf, hon⟩ := pcnstr_within hwf ho
      obtain ⟨hw, hlit, hsat⟩ := pcnstrRemapForColumn_restates hcwf hon hc hK
      refine ⟨hw, hlit.regular.1, fun r s hs hrs => (hsat s r hrs).2 ?_⟩
      exact (pcnstr_partOf hwf ho s).1 (h.sat s hs pcnstrChild hmem) _ rfl

variable {out : List CColRef} {children : List (CPropConstraint D × List CColRef)}
  {Q : CPropConstraint D × List CColRef → Row D → Prop}

/-- One constraint for each child, on the output column. -/
theorem pdrgpcnstrColumn_sound (hchildren : ∀ child ∈ children, GoodInput out Q child)
    {j : ℕ} {colref : CColRef} (hj : out[j]? = some colref) (hc : colref.fConstrainable = true)
    {l : List (CConstraint D)} (h : pdrgpcnstrColumn fArrayConstraints j colref children = .ok l) :
    List.Forall₂ (fun child K => (Within {colref} K ∧ K.Regular) ∧
      ∀ r, Restated out Q child r → K.sat r) children l := by
  induction children generalizing l with
  | nil => cases h; exact .nil
  | cons child rest ih =>
    obtain ⟨ppc, pdrgpcrInput⟩ := child
    obtain ⟨o, ho, h⟩ := bind_eq_ok.1 h
    have hsound := (hchildren (ppc, pdrgpcrInput) (by simp)).1
    replace ih := fun l' => @ih (fun child hchild => hchildren child (by simp [hchild])) l'
    cases o with
    | none =>
      obtain ⟨K, hK, h⟩ := bind_eq_ok.1 h
      obtain ⟨l', hl', h⟩ := bind_eq_ok.1 h
      cases h
      obtain ⟨pci, hpci, rfl⟩ := pciUnboundedDeref_eq_ok hK
      refine .cons ⟨⟨pciUnbounded_within hpci, .interval pci⟩, fun r _ => ?_⟩ (ih l' hl')
      exact pciUnbounded_sat hpci r
    | some K =>
      obtain ⟨_, hK, h⟩ := bind_eq_ok.1 h
      cases hK
      obtain ⟨l', hl', h⟩ := bind_eq_ok.1 h
      cases h
      obtain ⟨hw, hreg, hsat⟩ := pcnstrColumn_sound hsound hc ho
      refine .cons ⟨⟨hw, hreg⟩, fun r hr => ?_⟩ (ih l' hl')
      obtain ⟨s, hs, hrs⟩ := hr
      obtain ⟨c', hc', hval⟩ := hrs j colref hj
      refine hsat r s hs ?_
      rw [hval, List.getD_eq_getElem?_getD, hc', Option.getD_some]

theorem joined_of_forall₂ {α β : Type} {fConj : Bool} {R : α → β → Prop} {P : α → Prop}
    {P' : β → Prop} {as : List α} {bs : List β} (h : List.Forall₂ R as bs)
    (hR : ∀ a b, R a b → P a → P' b) (hj : joined fConj as P) : joined fConj bs P' := by
  cases fConj with
  | true =>
    change ∀ b ∈ bs, P' b
    replace hj : ∀ a ∈ as, P a := hj
    induction h with
    | nil => simp
    | cons hab _ ih =>
      simp only [List.forall_mem_cons] at hj ⊢
      exact ⟨hR _ _ hab hj.1, ih hj.2⟩
  | false =>
    change ∃ b ∈ bs, P' b
    replace hj : ∃ a ∈ as, P a := hj
    induction h with
    | nil => simp at hj
    | cons hab _ ih =>
      simp only [List.mem_cons, exists_eq_or_imp] at hj ⊢
      exact hj.imp (hR _ _ hab) ih

/-- The constraints of the output columns. -/
theorem columnConstraints_sound {fIntersect : Bool}
    (hchildren : ∀ child ∈ children, GoodInput out Q child)
    {cols : List (CColRef × ℕ)} (hcols : ∀ col ∈ cols, out[col.2]? = some col.1)
    {l : List (CConstraint D)}
    (h : columnConstraints fArrayConstraints fIntersect children cols = .ok l) :
    ∀ K ∈ l, Within {c | c ∈ out} K ∧ K.Regular ∧
      ∀ r, joined fIntersect children (Restated out Q · r) → K.sat r := by
  induction cols generalizing l with
  | nil => cases h; simp
  | cons col rest ih =>
    obtain ⟨colref, j⟩ := col
    have hj : out[j]? = some colref := hcols (colref, j) (by simp)
    replace ih := fun l' => @ih (fun col hcol => hcols col (by simp [hcol])) l'
    rw [columnConstraints] at h
    split at h
    · next hc =>
      obtain ⟨lcol, hlcol, h⟩ := bind_eq_ok.1 h
      obtain ⟨o, ho, h⟩ := bind_eq_ok.1 h
      obtain ⟨l', hl', h⟩ := bind_eq_ok.1 h
      cases h
      intro K hK
      rcases List.mem_append.1 hK with hK | hK
      · obtain rfl := Option.mem_toList.1 hK
        have hall := pdrgpcnstrColumn_sound hchildren hj hc hlcol
        have hgood : ∀ K ∈ lcol, Within {colref} K ∧ K.Regular := by
          intro K hK
          obtain ⟨i, hi, rfl⟩ := List.mem_iff_getElem.1 hK
          exact (hall.get (hall.length_eq ▸ hi) hi).1
        have hw := pcnstrConjDisj_within (fun K hK => (hgood K hK).1) ho
        refine ⟨⟨hw.1, fun x hx => ?_⟩, ?_, fun r hr => ?_⟩
        · rw [show x = colref from hw.2 x hx]
          exact List.mem_of_getElem? hj
        · exact pcnstrConjDisj_regular (fun K hK => (hgood K hK).2) ho
        · rw [pcnstrConjDisj_sat (fun K hK => (hgood K hK).1.1) (fun K hK => (hgood K hK).2) ho]
          exact joined_of_forall₂ hall (fun child K hK => hK.2 r) hr
      · exact ih l' hl' K hK
    · -- no constraint on a column of another type
      obtain ⟨lcol, hlcol, h⟩ := bind_eq_ok.1 h
      cases hlcol
      obtain ⟨o, ho, h⟩ := bind_eq_ok.1 h
      cases ho
      obtain ⟨l', hl', h⟩ := bind_eq_ok.1 h
      cases h
      exact ih l' hl'

/-- The classes of the output columns. -/
theorem pdrgpcrsOutputEquivClasses_sound {fIntersect : Bool}
    (hchildren : ∀ child ∈ children, GoodInput out Q child) :
    ClassesWithin {c | c ∈ out} (pdrgpcrsOutputEquivClasses fIntersect out children) ∧
      ∀ r, joined fIntersect children (Restated out Q · r) →
        classesHold (pdrgpcrsOutputEquivClasses fIntersect out children) r := by
  cases children with
  | nil => simp [pdrgpcrsOutputEquivClasses, ClassesWithin, classesHold]
  | cons first rest =>
    have hinput : ∀ child ∈ first :: rest,
        ClassesWithin {c | c ∈ out} (pdrgpcrsInputMapped out child) ∧
          ∀ r, Restated out Q child r → classesHold (pdrgpcrsInputMapped out child) r := by
      intro child hchild
      obtain ⟨hsound, hlen, hal⟩ := hchildren child hchild
      obtain ⟨hw, hr⟩ := @pdrgpcrsInputMapped_sound D out child hal hlen
      refine ⟨hw, ?_⟩
      rintro r ⟨s, hs, hrs⟩
      exact hr r s (hsound.classes s hs) hrs
    cases fIntersect with
    | true =>
      -- merged classes hold where those of all children do
      suffices hfold : ∀ (acc : ColRefSets) (l : List (CPropConstraint D × List CColRef)),
          (∀ child ∈ l, child ∈ first :: rest) → ClassesWithin {c | c ∈ out} acc →
          ClassesWithin {c | c ∈ out} (l.foldl (fun pdrgpcrs child =>
            pdrgpcrsMergeEquivClasses pdrgpcrs (pdrgpcrsInputMapped out child)) acc) ∧
          ∀ r, (∀ child ∈ l, Restated out Q child r) → classesHold acc r →
            classesHold (l.foldl (fun pdrgpcrs child =>
              pdrgpcrsMergeEquivClasses pdrgpcrs (pdrgpcrsInputMapped out child)) acc) r by
        obtain ⟨hfw, hf⟩ := hinput first (by simp)
        obtain ⟨hw, hr⟩ := hfold _ rest (fun child h => by simp [h]) hfw
        refine ⟨by simpa [pdrgpcrsOutputEquivClasses] using hw, fun r hj => ?_⟩
        have hall : ∀ child ∈ first :: rest, Restated out Q child r := hj
        simpa [pdrgpcrsOutputEquivClasses] using
          hr r (fun child h => hall child (by simp [h])) (hf r (hall first (by simp)))
      intro acc l
      induction l generalizing acc with
      | nil => exact fun _ hw => ⟨hw, fun r _ h => h⟩
      | cons child l ih =>
        intro hl hw
        obtain ⟨hcw, hc⟩ := hinput child (hl child (by simp))
        obtain ⟨hw', hr'⟩ := ih _ (fun c h => hl c (by simp [h]))
          (pdrgpcrsMergeEquivClasses_within hw hcw)
        exact ⟨hw', fun r hall hacc => hr' r (fun c h => hall c (by simp [h]))
          (pdrgpcrsMergeEquivClasses_holds hacc (hc r (hall child (by simp))))⟩
    | false =>
      -- intersected classes are parts of those of every child
      suffices hparts : ∀ child ∈ first :: rest,
          PartsOf (pdrgpcrsOutputEquivClasses false out (first :: rest))
            (pdrgpcrsInputMapped out child) by
        refine ⟨(hparts first (by simp)).within (hinput first (by simp)).1, fun r hj => ?_⟩
        obtain ⟨child, hchild, hr⟩ : ∃ child ∈ first :: rest, Restated out Q child r := hj
        exact (hparts child hchild).holds ((hinput child hchild).2 r hr)
      have hfold : ∀ (l : List (CPropConstraint D × List CColRef)) (acc : ColRefSets),
          PartsOf (l.foldl (fun pdrgpcrs child =>
            pdrgpcrsIntersectEquivClasses pdrgpcrs (pdrgpcrsInputMapped out child)) acc) acc ∧
          ∀ child ∈ l, PartsOf (l.foldl (fun pdrgpcrs child =>
            pdrgpcrsIntersectEquivClasses pdrgpcrs (pdrgpcrsInputMapped out child)) acc)
              (pdrgpcrsInputMapped out child) := by
        intro l
        induction l with
        | nil => exact fun acc => ⟨fun p hp => ⟨p, hp, List.Subset.refl p⟩, by simp⟩
        | cons child l ih =>
          intro acc
          obtain ⟨hacc, hl⟩ := ih (pdrgpcrsIntersectEquivClasses acc (pdrgpcrsInputMapped out child))
          obtain ⟨hfst, hsnd⟩ :=
            pdrgpcrsIntersectEquivClasses_parts acc (pdrgpcrsInputMapped out child)
          refine ⟨hacc.trans hfst, fun c hc => ?_⟩
          rcases List.mem_cons.1 hc with rfl | hc
          · exact hacc.trans hsnd
          · exact hl c hc
      obtain ⟨hacc, hl⟩ := hfold rest (pdrgpcrsInputMapped out first)
      intro child hchild
      rcases List.mem_cons.1 hchild with rfl | hchild
      · simpa [pdrgpcrsOutputEquivClasses] using hacc
      · simpa [pdrgpcrsOutputEquivClasses] using hl child hchild

/-- **Unions and intersections**: what holds for some, or for all children. -/
theorem intersectUnion_sound {fIntersect : Bool}
    (hchildren : ∀ child ∈ children, GoodInput out Q child)
    (hP : ∀ r, P r → joined fIntersect children (Restated out Q · r))
    (h : intersectUnion fArrayConstraints fIntersect out children = .ok ppc) :
    Sound {c | c ∈ out} P ppc := by
  obtain ⟨l, hl, h⟩ := bind_eq_ok.1 h
  have hcols : ∀ col ∈ out.zipIdx, out[col.2]? = some col.1 := by
    rintro ⟨colref, j⟩ hcol
    exact List.mem_zipIdx_iff_getElem?.1 hcol
  have hsound := columnConstraints_sound hchildren hcols hl
  obtain ⟨hcw, hcls⟩ := @pdrgpcrsOutputEquivClasses_sound D _ out children Q fIntersect hchildren
  exact ofCollected_sound ⟨hcw, fun K hK => (hsound K hK).1, fun K hK => (hsound K hK).2.1,
    fun r hr => hcls r (hP r hr), fun r hr K hK => (hsound K hK).2.2 r (hP r hr)⟩ h

omit [LinearOrder D] in
/-- A child's row in the output columns restates it. -/
theorem restatesRow_assign {out cols : List CColRef} (hnd : out.Nodup)
    (hlen : cols.length = out.length) (row : Row D) :
    RestatesRow out cols row (assign out (cols.map row) row) := by
  intro j c hj
  obtain ⟨hlt, rfl⟩ := List.getElem?_eq_some_iff.1 hj
  have hlt' : j < cols.length := hlen ▸ hlt
  refine ⟨cols[j], List.getElem?_eq_getElem hlt', ?_⟩
  rw [assign_getElem hnd hlt]
  simp [hlt']

omit [LinearOrder D] in
theorem assign_self (out : List CColRef) (row : Row D) : assign out (out.map row) row = row := by
  funext c
  by_cases hc : c ∈ out
  · rw [assign_of_mem hc, List.getD_eq_getElem?_getD, List.getElem?_map]
    simp [List.getElem?_idxOf hc]
  · exact assign_of_notMem hc

section SetOp

variable {op : ESetOp} {input : List (List CColRef)} {es : List (LogicalExpr D)}
  {ppcs : List (CPropConstraint D)}

/-- The rows of a child of a set operation, whose property and input columns are given. -/
def ChildRow (ex : Execution D) (env : Row D) (es : List (LogicalExpr D))
    (ppcs : List (CPropConstraint D)) (input : List (List CColRef))
    (child : CPropConstraint D × List CColRef) (s : Row D) : Prop :=
  ∃ (i : ℕ) (e : LogicalExpr D), es[i]? = some e ∧ (ppcs.zip input)[i]? = some child ∧
    s ∈ e.rows ex env

variable (hs : WellScoped (.setOp op out input es))
  (hall : List.Forall₂ (fun e ppc => Sound e.colrefs (· ∈ e.rows ex env) ppc) es ppcs)

include hs hall

theorem goodInput_child :
    ∀ child ∈ ppcs.zip input, GoodInput out (ChildRow ex env es ppcs input) child := by
  obtain ⟨-, -, hcols, -⟩ := hs
  have hget : ∀ (i : ℕ) e ppc, es[i]? = some e → ppcs[i]? = some ppc →
      Sound e.colrefs (· ∈ e.rows ex env) ppc := by
    intro i e ppc he hppc
    obtain ⟨hi, rfl⟩ := List.getElem?_eq_some_iff.1 he
    obtain ⟨hi', rfl⟩ := List.getElem?_eq_some_iff.1 hppc
    exact hall.get hi hi'
  intro child hchild
  obtain ⟨i, hi⟩ := List.mem_iff_getElem?.1 hchild
  obtain ⟨hppc, hin⟩ := List.getElem?_zip_eq_some.1 hi
  have hie : i < es.length := hall.length_eq ▸ (List.getElem?_eq_some_iff.1 hppc).1
  obtain ⟨hlen, hal⟩ := hcols child.2 (List.mem_of_getElem? hin)
  have hsound := hget i _ _ (List.getElem?_eq_getElem hie) hppc
  refine ⟨⟨fun p hp c hc => trivial, fun K hK => ⟨(hsound.within K hK).1, fun _ _ => trivial⟩,
    hsound.regular, ?_, ?_⟩, hlen, hal⟩
  · rintro s ⟨k, e, he, hk, hmem⟩
    exact (hget k e _ he (List.getElem?_zip_eq_some.1 hk).1).classes s hmem
  · rintro s ⟨k, e, he, hk, hmem⟩
    exact (hget k e _ he (List.getElem?_zip_eq_some.1 hk).1).sat s hmem

/-- The rows of a child, in the output columns, restate rows of it. -/
theorem restated_of_mem {i : ℕ} {rows : List (Row D)}
    (hi : (List.zipWith (fun rows cols => rows.map fun row => assign out (cols.map row) row)
      (rowsAll ex env es) input)[i]? = some rows) {r : Row D} (hr : r ∈ rows) :
    ∃ child, (ppcs.zip input)[i]? = some child ∧
      Restated out (ChildRow ex env es ppcs input) child r := by
  obtain ⟨hnd, -, hcols, -⟩ := hs
  obtain ⟨rows', cols, hrows', hin, rfl⟩ := List.getElem?_zipWith_eq_some.1 hi
  rw [rowsAll_eq_map, List.getElem?_map] at hrows'
  obtain ⟨e, he, rfl⟩ := Option.map_eq_some_iff.1 hrows'
  obtain ⟨row, hrow, rfl⟩ := List.mem_map.1 hr
  have hip : i < ppcs.length := hall.length_eq ▸ (List.getElem?_eq_some_iff.1 he).1
  have hchild : (ppcs.zip input)[i]? = some (ppcs[i], cols) :=
    List.getElem?_zip_eq_some.2 ⟨List.getElem?_eq_getElem hip, hin⟩
  refine ⟨_, hchild, row, ⟨i, e, he, hchild, hrow⟩, ?_⟩
  exact restatesRow_assign hnd (hcols cols (List.mem_of_getElem? hin)).1 row

theorem restated_some {r : Row D} (hr : r ∈ (setOp op out input es).rows ex env) :
    ∃ child ∈ ppcs.zip input, Restated out (ChildRow ex env es ppcs input) child r := by
  obtain ⟨rows, hrows, hr⟩ := mem_setOpRows hr
  obtain ⟨i, hi⟩ := List.mem_iff_getElem?.1 hrows
  obtain ⟨child, hchild, hrest⟩ := restated_of_mem hs hall hi hr
  exact ⟨child, List.mem_of_getElem? hchild, hrest⟩

theorem restated_all (hop : op = .intersect ∨ op = .intersectAll) {r : Row D}
    (hr : r ∈ (setOp op out input es).rows ex env) :
    ∀ child ∈ ppcs.zip input, Restated out (ChildRow ex env es ppcs input) child r := by
  intro child hchild
  obtain ⟨i, hi⟩ := List.mem_iff_getElem?.1 hchild
  obtain ⟨hip, hin⟩ := List.getElem?_zip_eq_some.1 hi
  have hie : i < es.length := hall.length_eq ▸ (List.getElem?_eq_some_iff.1 hip).1
  have hrows : (List.zipWith (fun rows cols => rows.map fun row => assign out (cols.map row) row)
      (rowsAll ex env es) input)[i]? =
      some ((es[i].rows ex env).map fun row => assign out (child.2.map row) row) := by
    simp [List.getElem?_zipWith, hin, hie]
  obtain ⟨s, hsmem, hsame⟩ := exists_sameOn_of_mem_intersect hop hr _ (List.mem_of_getElem? hrows)
  obtain ⟨child', hchild', s', hs', hrest⟩ := restated_of_mem hs hall hrows hsmem
  obtain rfl : child = child' := Option.some.inj (hi.symm.trans hchild')
  refine ⟨s', hs', fun j c hj => ?_⟩
  obtain ⟨c', hc', hval⟩ := hrest j c hj
  exact ⟨c', hc', (sameOn_iff.1 hsame c (List.mem_of_getElem? hj)).trans hval⟩

/-- A difference returns rows of its first child. -/
theorem difference_sound (hop : op = .difference ∨ op = .differenceAll)
    {ppc' : CPropConstraint D} (hhead : ppcs.head? = some ppc') :
    Sound (setOp op out input es).colrefs (· ∈ (setOp op out input es).rows ex env) ppc' := by
  obtain ⟨-, -, -, hdiff⟩ := hs
  cases hall with
  | nil => simp at hhead
  | @cons e ppc es ppcs hsound _ =>
    obtain rfl : ppc = ppc' := by simpa using hhead
    cases input with
    | nil => simpa using hdiff hop
    | cons cols input =>
      obtain rfl : cols = out := by simpa using hdiff hop
      refine hsound.transfer (fun c hc => .inr (mem_colrefsAll.2 ⟨e, by simp, hc⟩)) fun r hr => ?_
      have hfirst := mem_first_of_mem_setOpRows (by rcases hop with rfl | rfl <;> simp) hr
      obtain ⟨row, hrow, rfl⟩ := List.mem_map.1 hfirst
      exact ⟨row, hrow, fun c _ => by rw [assign_self]⟩

/-- **A set operation.** -/
theorem fromSetOp_sound (h : fromSetOp fArrayConstraints op out input ppcs = .ok ppc) :
    Sound (setOp op out input es).colrefs (· ∈ (setOp op out input es).rows ex env) ppc := by
  have hgood := goodInput_child hs hall
  have hout : {c | c ∈ out} ⊆ (setOp op out input es).colrefs := Set.subset_union_left
  have hself : ∀ r ∈ (setOp op out input es).rows ex env,
      ∃ s ∈ (setOp op out input es).rows ex env, AgreeOn {c | c ∈ out} r s :=
    fun r hr => ⟨r, hr, fun _ _ => rfl⟩
  cases op with
  | union => exact (intersectUnion_sound hgood (fun r => restated_some hs hall) h).transfer hout hself
  | unionAll =>
    exact (intersectUnion_sound hgood (fun r => restated_some hs hall) h).transfer hout hself
  | intersect =>
    exact (intersectUnion_sound hgood (fun r => restated_all hs hall (.inl rfl)) h).transfer hout hself
  | intersectAll =>
    exact (intersectUnion_sound hgood (fun r => restated_all hs hall (.inr rfl)) h).transfer hout hself
  | difference =>
    cases ppcs with
    | nil => cases h
    | cons ppc' rest => cases h; exact difference_sound hs hall (.inl rfl) rfl
  | differenceAll =>
    cases ppcs with
    | nil => cases h
    | cons ppc' rest => cases h; exact difference_sound hs hall (.inr rfl) rfl

end SetOp

/-! ## n-ary joins -/

/-- The conjuncts of a true predicate are true. -/
theorem isTrue_conjuncts {I : Interpretation D} {e : ScalarExpr D} {r : Row D}
    (h : CConstraintInterval.satisfied I false e r) :
    ∀ p ∈ e.conjuncts, CConstraintInterval.satisfied I false p r := by
  induction e using ScalarExpr.induction with
  | boolOp op es ih =>
    cases op with
    | and =>
      rw [satisfied_and] at h
      intro p hp
      rw [ScalarExpr.conjuncts, ScalarExpr.conjunctsAll_eq_flatMap] at hp
      obtain ⟨e, he, hp⟩ := List.mem_flatMap.1 hp
      exact ih e he (h e he) p hp
    | or | not => simpa [ScalarExpr.conjuncts] using h
  | _ => simpa [ScalarExpr.conjuncts] using h

omit [LinearOrder D] in
theorem usedColumns_conjuncts {e : ScalarExpr D} :
    ∀ p ∈ e.conjuncts, ∀ c ∈ p.usedColumns, c ∈ e.usedColumns := by
  induction e using ScalarExpr.induction with
  | boolOp op es ih =>
    cases op with
    | and =>
      intro p hp c hc
      rw [ScalarExpr.conjuncts, ScalarExpr.conjunctsAll_eq_flatMap] at hp
      obtain ⟨e, he, hp⟩ := List.mem_flatMap.1 hp
      exact ScalarExpr.mem_usedColumnsAll.2 ⟨e, he, ih e he p hp c hc⟩
    | or | not => simp [ScalarExpr.conjuncts]
  | _ => simp [ScalarExpr.conjuncts]

/-- A conjunction or disjunction of true predicates is true. -/
theorem pexprConjDisj_true {I : Interpretation D} {fConj : Bool} {l : List (ScalarExpr D)}
    {r : Row D} (hne : l ≠ []) (h : ∀ p ∈ l, CConstraintInterval.satisfied I false p r) :
    CConstraintInterval.satisfied I false (pexprConjDisj fConj l) r := by
  have htrue : ∀ p ∈ l, fScalarConstBool false p = false := by
    intro p hp
    rw [← Bool.not_eq_true, fScalarConstBool_iff]
    rintro rfl
    exact absurd (h _ hp) (by simp [CConstraintInterval.satisfied, ScalarExpr.eval, Truth.holds])
  have hfilter : ∀ p ∈ l.filter (!fScalarConstBool fConj ·),
      CConstraintInterval.satisfied I false p r := fun p hp => h p (List.mem_of_mem_filter hp)
  unfold pexprConjDisj
  split
  · next hany =>
    cases fConj with
    | true =>
      obtain ⟨p, hp, hconst⟩ := List.any_eq_true.1 hany
      rw [show (!true) = false from rfl, htrue p hp] at hconst
      cases hconst
    | false => simp [CConstraintInterval.satisfied, ScalarExpr.eval, Truth.holds]
  · split
    · next hnil =>
      cases fConj with
      | true => simp [CConstraintInterval.satisfied, ScalarExpr.eval, Truth.holds]
      | false =>
        obtain ⟨p, hp⟩ := List.exists_mem_of_ne_nil l hne
        have hmem : p ∈ l.filter (!fScalarConstBool false ·) :=
          List.mem_filter.2 ⟨hp, by simp [htrue p hp]⟩
        rw [hnil] at hmem
        cases hmem
    · next p hone => exact hfilter p (by simp [hone])
    · next hnil _ =>
      cases fConj with
      | true => exact satisfied_and.2 hfilter
      | false =>
        obtain ⟨p, hp⟩ := List.exists_mem_of_ne_nil _ hnil
        exact satisfied_or.2 ⟨p, hp, hfilter p hp⟩

omit [LinearOrder D] in
theorem usedColumns_pexprConjDisj {fConj : Bool} {l : List (ScalarExpr D)} {c : CColRef}
    (h : c ∈ (pexprConjDisj fConj l).usedColumns) : ∃ p ∈ l, c ∈ p.usedColumns := by
  unfold pexprConjDisj at h
  split at h
  · simp [ScalarExpr.usedColumns] at h
  · split at h
    · simp [ScalarExpr.usedColumns] at h
    · next p hone => exact ⟨p, List.mem_of_mem_filter (hone ▸ List.mem_singleton_self p), h⟩
    · obtain ⟨p, hp, hc⟩ := ScalarExpr.mem_usedColumnsAll.1 h
      exact ⟨p, List.mem_of_mem_filter hp, hc⟩

/-- The true inner join predicates are true where the inner join predicates are. -/
theorem getTrueInnerJoinPreds_true {I : Interpretation D} {cols : List (List CColRef)}
    {e : ScalarExpr D} {r : Row D} (h : CConstraintInterval.satisfied I false e r) :
    CConstraintInterval.satisfied I false (getTrueInnerJoinPreds cols e) r := by
  unfold getTrueInnerJoinPreds
  split
  · simp [CConstraintInterval.satisfied, ScalarExpr.eval, Truth.holds]
  · next hne =>
    exact pexprConjDisj_true hne fun p hp => isTrue_conjuncts h p (List.mem_of_mem_filter hp)

omit [LinearOrder D] in
theorem usedColumns_getTrueInnerJoinPreds {cols : List (List CColRef)} {e : ScalarExpr D} :
    ∀ c ∈ (getTrueInnerJoinPreds cols e).usedColumns, c ∈ e.usedColumns := by
  unfold getTrueInnerJoinPreds
  split
  · simp [ScalarExpr.usedColumns]
  · intro c hc
    obtain ⟨p, hp, hc⟩ := usedColumns_pexprConjDisj hc
    exact usedColumns_conjuncts p (List.mem_of_mem_filter hp) c hc

omit [LinearOrder D] in
theorem mem_childrenOf {α : Type} {fInner : Bool} {idx : Option (List ℕ)} {x : α} {xs : List α}
    {j : ℕ} (h : x ∈ childrenOf fInner idx j xs) :
    ∃ k, xs[k]? = some x ∧ isInnerJoinChild idx (j + k) = fInner := by
  induction xs generalizing j with
  | nil => cases h
  | cons y xs ih =>
    have hrest : x ∈ childrenOf fInner idx (j + 1) xs →
        ∃ k, (y :: xs)[k]? = some x ∧ isInnerJoinChild idx (j + k) = fInner := by
      intro h
      obtain ⟨k, hk, hinner⟩ := ih h
      exact ⟨k + 1, hk, by rwa [Nat.add_comm k, ← Nat.add_assoc]⟩
    rw [childrenOf] at h
    split at h
    · next hj =>
      rcases List.mem_cons.1 h with rfl | h
      · exact ⟨0, rfl, hj⟩
      · exact hrest h
    · exact hrest h

omit [LinearOrder D] in
theorem childrenOf_none {α : Type} (xs : List α) (j : ℕ) : childrenOf true none j xs = xs := by
  induction xs generalizing j with
  | nil => rfl
  | cons x xs ih => simp [childrenOf, isInnerJoinChild, ih]

/-- **An n-ary join.** -/
theorem fromNAryJoin_sound {es : List (LogicalExpr D)} {idx : Option (List ℕ)}
    {preds : ScalarExpr D} {onPreds : List (ScalarExpr D)}
    (hs : Everywhere WellScoped (.naryJoin es idx preds onPreds))
    {ppcs : List (CPropConstraint D)}
    (hall : List.Forall₂ (fun e ppc => Sound e.colrefs (· ∈ e.rows ex env) ppc) es ppcs)
    (hsafe : constraintsSafe fArrayConstraints arrayExpansionThreshold
      (.naryJoin es idx preds onPreds))
    (h : fromNAryJoin fArrayConstraints arrayExpansionThreshold idx (es.map deriveOutputColumns)
      preds ppcs = .ok ppc) :
    Sound (naryJoin es idx preds onPreds).colrefs
      (· ∈ (naryJoin es idx preds onPreds).rows ex env) ppc := by
  have hchild : ∀ ppc' ∈ childrenOf true idx 0 ppcs, Sound (naryJoin es idx preds onPreds).colrefs
      (· ∈ (naryJoin es idx preds onPreds).rows ex env) ppc' := by
    intro ppc' hppc'
    obtain ⟨k, hk, hinner⟩ := mem_childrenOf hppc'
    rw [Nat.zero_add] at hinner
    obtain ⟨hk', rfl⟩ := List.getElem?_eq_some_iff.1 hk
    have hke : k < es.length := hall.length_eq ▸ hk'
    refine (hall.get hke hk').transfer (fun c hc => ?_) fun r hr => ?_
    · exact .inl (.inl (mem_colrefsAll.2 ⟨_, List.getElem_mem hke, hc⟩))
    · exact agree_naryChild hs hr (List.getElem?_eq_getElem hke) hinner
  have hused : ∀ c ∈ preds.usedColumns, c ∈ (naryJoin es idx preds onPreds).colrefs :=
    fun c hc => .inl (.inr hc)
  have htrue : ∀ r ∈ (naryJoin es idx preds onPreds).rows ex env, isTrue ex.scalars preds r = true :=
    fun r hr => List.of_mem_filter hr
  cases idx with
  | none =>
    rw [childrenOf_none] at hchild
    exact fromPredicates_sound hchild hsafe hused htrue h
  | some idx =>
    obtain ⟨acc, hacc, h⟩ := bind_eq_ok.1 h
    refine ofCollected_sound ((collectedSound_nil.addChildren hchild).addPredicate
      (I := ex.scalars) hacc hsafe ?_ ?_ ?_) h
    · exact fun c hc => hused c (usedColumns_getTrueInnerJoinPreds c hc)
    · exact fun r _ hm => by cases hm
    · exact fun r hr => getTrueInnerJoinPreds_true (isTrue_iff.1 (htrue r hr))

end CPropConstraint

end BossOptimizer

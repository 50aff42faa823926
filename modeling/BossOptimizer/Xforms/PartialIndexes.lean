import BossOptimizer.Metadata.PartConstraintAlgebra
import BossOptimizer.Operators.IndexPredicates

/-!
# Partial indexes: `CXformUtils::PdrgpdrgppartdigCandidates` (CXformUtils.cpp:3837)

Indexes on parts of a partitioned table are taken one after the other. An index is accepted if a
predicate can use it and its parts do not overlap with those covered so far, which are the union of
the parts accepted. What is left of the table is read by a dynamic get. `PpartcnstrRemaining` takes
the covered parts away on the first level only, and nothing asks whether the parts of an index are
parts of the relation.
-/

namespace BossOptimizer

variable {C V : Type}

/-- `PcnstrCombined` is NULL (CPartConstraint.cpp:141): no level has a constraint. -/
def CPartConstraint.PcnstrCombinedIsNull (this : CPartConstraint C) : Bool :=
  (List.range this.m_num_of_part_levels).all fun ul => (this.Pcnstr ul).isNone

/-- `SPartDynamicIndexGetInfo` (CXformUtils.h:48). -/
structure SPartDynamicIndexGetInfo (C : Type) where
  m_pmdindex : Option IMDIndex
  m_part_constraint : CPartConstraint C
  m_pdrgpexprIndex : Option (List IndexScalar)
  m_pdrgpexprResidual : List IndexScalar

/-- What the indexes of a relation are matched with: the predicates and columns of the query. -/
structure PartialIndexQuery where
  pdrgpexprScalar : List IndexScalar
  pcrsReqd : List CColRef
  pcrsScalarExpr : List CColRef
  pcrsAcceptedOuterRefs : Option (List CColRef)
  fAORowOrColTable : Bool

namespace CXformUtils

variable (level : LevelConstraints C V) (md : IndexCatalog) (query : PartialIndexQuery)

/-- `PpartcnstrDisjunction` (CXformUtils.cpp:3982). -/
def PpartcnstrDisjunction (ppartcnstrOld : Option (CPartConstraint C))
    (ppartcnstrNew : CPartConstraint C) : Option (CPartConstraint C) :=
  match ppartcnstrOld with
  | none => some ppartcnstrNew
  | some ppartcnstrOld => ppartcnstrOld.PpartcnstrDisjunction level ppartcnstrNew

/-- Overlap with already considered indexes. -/
def overlapsCovered (ppartcnstrCovered : Option (CPartConstraint C))
    (ppartcnstr : CPartConstraint C) : Except Fault Bool :=
  match ppartcnstrCovered with
  | none => .ok false
  | some ppartcnstrCovered => ppartcnstrCovered.FOverlap level ppartcnstr

/-- `PpartcnstrUpdateCovered` (CXformUtils.cpp:3924): what is newly covered, with the index
    predicates and the residual. Most GiST indexes are lossy: their predicates are checked again. -/
def PpartcnstrUpdateCovered (ppartcnstrCovered : Option (CPartConstraint C))
    (ppartcnstr : CPartConstraint C) (pmdindex : IMDIndex) :
    Except Fault (Option (CPartConstraint C × List IndexScalar × List IndexScalar)) := do
  if ppartcnstr.PcnstrCombinedIsNull then return none
  if ← overlapsCovered level ppartcnstrCovered ppartcnstr then return none
  let pdrgpexpr := IndexScalar.ExtractIndexPredicates md pmdindex query.pcrsAcceptedOuterRefs false
    query.pdrgpexprScalar
  if pdrgpexpr.1.isEmpty then return none
  let pdrgpexprResidual :=
    if pmdindex.IndexType = .EmdindGist then pdrgpexpr.2 ++ pdrgpexpr.1 else pdrgpexpr.2
  return (PpartcnstrDisjunction level ppartcnstrCovered ppartcnstr).map
    (·, pdrgpexpr.1, pdrgpexprResidual)

/-- The first test of the loop: the index is partial and applies. -/
def considered (pmdindex : IMDIndex) : Bool :=
  FIndexApplicable pmdindex query.fAORowOrColTable query.pcrsReqd query.pcrsScalarExpr .EmdindBtree
    none && pmdindex.IsPartialIndex

/-- The loop of `PdrgpdrgppartdigCandidates`: what is covered in the end, and the entries. -/
def candidatesLoop : List (IMDIndex × CPartConstraint C) → Option (CPartConstraint C) →
    Except Fault (Option (CPartConstraint C) × List (SPartDynamicIndexGetInfo C))
  | [], ppartcnstrCovered => return (ppartcnstrCovered, [])
  | (pmdindex, ppartcnstr) :: indexes, ppartcnstrCovered => do
    if !considered query pmdindex then candidatesLoop indexes ppartcnstrCovered
    else
      match ← PpartcnstrUpdateCovered level md query ppartcnstrCovered ppartcnstr pmdindex with
      | none => candidatesLoop indexes ppartcnstrCovered
      | some (ppartcnstrNewlyCovered, pdrgpexprIndex, pdrgpexprResidual) =>
        let rest ← candidatesLoop indexes (some ppartcnstrNewlyCovered)
        return (rest.1,
          ⟨some pmdindex, ppartcnstr, some pdrgpexprIndex, pdrgpexprResidual⟩ :: rest.2)

/-- `PpartdigDynamicGet` (CXformUtils.cpp:4008). -/
def PpartdigDynamicGet (pdrgpexprScalar : List IndexScalar)
    (ppartcnstrCovered ppartcnstrRel : CPartConstraint C) : Option (SPartDynamicIndexGetInfo C) :=
  (ppartcnstrRel.PpartcnstrRemaining level ppartcnstrCovered).map
    (⟨none, ·, none, pdrgpexprScalar⟩)

/-- `PdrgpdrgppartdigCandidates` (CXformUtils.cpp:3837). -/
def PdrgpdrgppartdigCandidates (indexes : List (IMDIndex × CPartConstraint C))
    (ppartcnstrRel : CPartConstraint C) :
    Except Fault (List (List (SPartDynamicIndexGetInfo C))) := do
  let (ppartcnstrCovered, pdrgppartdig) ← candidatesLoop level md query indexes none
  match ppartcnstrCovered with
  | none => return [pdrgppartdig]
  | some ppartcnstrCovered =>
    if ppartcnstrRel.FEquivalent level ppartcnstrCovered then return [pdrgppartdig]
    else
      match PpartdigDynamicGet level query.pdrgpexprScalar ppartcnstrCovered ppartcnstrRel with
      | none => return []
      | some ppartdig => return [pdrgppartdig ++ [ppartdig]]

/-! ## What is covered -/

/-- The part constraints of the indexes that are accepted: those that a predicate can use and that
    do not overlap with the ones before. -/
def acceptedConstraints : List (IMDIndex × CPartConstraint C) → Option (CPartConstraint C) →
    List (CPartConstraint C)
  | [], _ => []
  | (pmdindex, ppartcnstr) :: indexes, ppartcnstrCovered =>
    if !considered query pmdindex then acceptedConstraints indexes ppartcnstrCovered
    else
      match PpartcnstrUpdateCovered level md query ppartcnstrCovered ppartcnstr pmdindex with
      | .ok (some (ppartcnstrNewlyCovered, _)) =>
        ppartcnstr :: acceptedConstraints indexes (some ppartcnstrNewlyCovered)
      | _ => acceptedConstraints indexes ppartcnstrCovered

/-- The parts of one constraint are not parts of the other. -/
def Apart (A B : CPartConstraint C) : Prop :=
  ∀ leaf : ℕ → Option V, A.Denotes level leaf → ¬B.Denotes level leaf

/-- The parts of the entries are those of the relation, each in one entry. -/
structure CoversOnce (ppartcnstrRel : CPartConstraint C)
    (pdrgppartdig : List (SPartDynamicIndexGetInfo C)) : Prop where
  apart : (pdrgppartdig.map (·.m_part_constraint)).Pairwise (Apart level)
  union : ∀ leaf : ℕ → Option V, ppartcnstrRel.Denotes level leaf ↔
    ∃ c ∈ pdrgppartdig.map (·.m_part_constraint), c.Denotes level leaf

/-- The index predicates and the residual of an entry are the predicates. -/
def SamePredicates {X Env : Type} (S : IndexSemantics md X Env)
    (ppartdig : SPartDynamicIndexGetInfo C) : Prop :=
  ∀ env, Predicate.truth S.toSemantics (Predicate.PexprConjDisj true
      (ppartdig.m_pdrgpexprIndex.getD [] ++ ppartdig.m_pdrgpexprResidual)) env =
    Predicate.truth S.toSemantics (Predicate.PexprConjDisj true query.pdrgpexprScalar) env

/-- What is left is exact. On the first level, what the relation has in common with the parts of the
indexes is read by the indexes on all deeper levels: every default partition of the relation on a
deeper level is in the parts of an index, or nothing would be in it anyway. Accordingly if
constraints are flagged unbounded. -/
def RestIsExact (ppartcnstrRel : CPartConstraint C) (accepted : List (CPartConstraint C)) : Prop :=
  if accepted.any (·.IsConstraintUnbounded) then
    ppartcnstrRel.IsConstraintUnbounded = true ∨
    (∀ x : Option V, ppartcnstrRel.Admits level 0 x → ∃ c ∈ accepted, c.Admits level 0 x) ∨
      ∃ ul, 0 < ul ∧ ul < ppartcnstrRel.m_num_of_part_levels ∧
        ∀ x : Option V, ¬ppartcnstrRel.Admits level ul x
  else if ppartcnstrRel.IsConstraintUnbounded then
    ((∀ ul, 0 < ul → ul < ppartcnstrRel.m_num_of_part_levels →
        ∃ c ∈ accepted, c.IsDefaultPartition ul = true) ∨
      ∀ x : Option V, ¬∃ c ∈ accepted, c.Admits level 0 x) ∧
    ((∀ x : Option V, ∃ c ∈ accepted, c.Admits level 0 x) ∨
      (∀ x : Option V, (¬∃ c ∈ accepted, c.Admits level 0 x) → ppartcnstrRel.Admits level 0 x) ∧
        ∀ ul, 0 < ul → ul < ppartcnstrRel.m_num_of_part_levels →
          ∀ x : Option V, ppartcnstrRel.Admits level ul x)
  else
    ∀ ul, 0 < ul → ul < ppartcnstrRel.m_num_of_part_levels →
      ppartcnstrRel.IsDefaultPartition ul = true →
      (¬∃ c ∈ accepted, c.IsDefaultPartition ul = true) →
        (∀ x : Option V, ppartcnstrRel.Admits level 0 x → ¬∃ c ∈ accepted, c.Admits level 0 x) ∨
          ∃ ul', 0 < ul' ∧ ul' < ppartcnstrRel.m_num_of_part_levels ∧ ul' ≠ ul ∧
            ∀ x : Option V, ¬ppartcnstrRel.Admits level ul' x

/-- Each part of an accepted index is a part of the relation, and what is left is exact. -/
structure Coverable (ppartcnstrRel : CPartConstraint C) (accepted : List (CPartConstraint C)) :
    Prop where
  inside : ∀ c ∈ accepted, ∀ leaf : ℕ → Option V,
    c.Denotes level leaf → ppartcnstrRel.Denotes level leaf
  some : accepted = [] → ∀ leaf : ℕ → Option V, ¬ppartcnstrRel.Denotes level leaf
  rest : accepted ≠ [] → RestIsExact level ppartcnstrRel accepted

/-! ## The covered parts -/

/-- The covered parts are the union of those accepted, on every level. -/
structure IsUnion (covered : CPartConstraint C) (accepted : List (CPartConstraint C)) : Prop where
  nonempty : accepted ≠ []
  unbounded : covered.IsConstraintUnbounded = accepted.any (·.IsConstraintUnbounded)
  denotes : ∀ leaf : ℕ → Option V, covered.Denotes level leaf ↔ ∃ c ∈ accepted, c.Denotes level leaf
  admits : ∀ ul < covered.m_num_of_part_levels, ∀ x : Option V,
    covered.Admits level ul x ↔ ∃ c ∈ accepted, c.Admits level ul x

variable {level md query} {covered rel : CPartConstraint C} {accepted : List (CPartConstraint C)}

theorem isUnion_singleton (ppartcnstr : CPartConstraint C) :
    IsUnion level ppartcnstr [ppartcnstr] where
  nonempty := by simp
  unbounded := by simp
  denotes := by simp
  admits := by simp

/-- A union with parts that do not overlap is the union with one more. -/
theorem IsUnion.snoc {ppartcnstr newly : CPartConstraint C} (h : IsUnion level covered accepted)
    (hlevels : covered.m_num_of_part_levels = ppartcnstr.m_num_of_part_levels)
    (hoverlap : covered.FOverlap level ppartcnstr = .ok false)
    (hnewly : covered.PpartcnstrDisjunction level ppartcnstr = some newly) :
    newly.m_num_of_part_levels = covered.m_num_of_part_levels ∧
      IsUnion level newly (accepted ++ [ppartcnstr]) := by
  -- constraints flagged unbounded overlap with everything
  obtain ⟨hcovered, hnew⟩ : covered.IsConstraintUnbounded = false ∧
      ppartcnstr.IsConstraintUnbounded = false := by
    rw [CPartConstraint.FOverlap] at hoverlap
    split at hoverlap
    · cases hoverlap
    · next hflags => simpa using hflags
  obtain ⟨-, hunbounded, hsame, -⟩ := CPartConstraint.ppartcnstrDisjunction_spec hcovered hnew hnewly
  refine ⟨hsame, by simp, ?_, fun leaf => ?_, fun ul hul x => ?_⟩
  · rw [hunbounded, List.any_append, ← h.unbounded, hcovered]
    simp [hnew]
  · rw [CPartConstraint.denotes_ppartcnstrDisjunction hlevels hnewly, h.denotes]
    simp [or_and_right, exists_or]
  · rw [CPartConstraint.admits_ppartcnstrDisjunction hcovered hnew hnewly (hsame ▸ hul),
      h.admits ul (hsame ▸ hul)]
    simp [or_and_right, exists_or]

/-- A default partition of the covered parts is one of an accepted index. -/
theorem IsUnion.isDefaultPartition (h : IsUnion level covered accepted) {ul : ℕ}
    (hul : ul < covered.m_num_of_part_levels) :
    covered.IsDefaultPartition ul = true ↔ ∃ c ∈ accepted, c.IsDefaultPartition ul = true :=
  h.admits ul hul none

/-- Taking away the covered parts, in terms of the parts accepted. -/
theorem IsUnion.takesAway_iff (h : IsUnion level covered accepted)
    (hlevels : rel.m_num_of_part_levels = covered.m_num_of_part_levels)
    (hflags : rel.IsConstraintUnbounded = true → covered.IsConstraintUnbounded = false) :
    CPartConstraint.TakesAway level rel covered ↔ RestIsExact level rel accepted := by
  have hfirst := h.admits 0 covered.levels_pos
  rw [CPartConstraint.TakesAway, RestIsExact, ← h.unbounded]
  split
  · next hunbounded =>
    have hrel : rel.IsConstraintUnbounded ≠ true := fun hrel => by
      rw [hflags hrel] at hunbounded
      cases hunbounded
    rw [or_iff_right hrel]
    simp only [hfirst]
  · have hdefault : ∀ ul < rel.m_num_of_part_levels, covered.IsDefaultPartition ul = true ↔
        ∃ c ∈ accepted, c.IsDefaultPartition ul = true :=
      fun ul hul => h.isDefaultPartition (hlevels ▸ hul)
    simp only [hfirst]
    split
    · refine and_congr_left fun _ => or_congr_left ?_
      exact forall₂_congr fun ul _ => forall_congr' fun hul => hdefault ul hul
    · refine forall₂_congr fun ul _ => forall_congr' fun hul => forall_congr' fun _ => ?_
      rw [← hdefault ul hul, Bool.not_eq_true]

/-- Nothing is left of a relation that is equivalent to the covered parts. -/
theorem IsUnion.restIsExact_of_fEquivalent (h : IsUnion level covered accepted)
    (hlevels : rel.m_num_of_part_levels = covered.m_num_of_part_levels)
    (hequiv : rel.FEquivalent level covered = true) : RestIsExact level rel accepted := by
  rw [CPartConstraint.FEquivalent] at hequiv
  split at hequiv
  · next hrel =>
    rw [RestIsExact, ← h.unbounded, if_pos hequiv]
    exact .inl hrel
  · next hrel =>
    rw [RestIsExact, ← h.unbounded]
    split
    · exact .inr (.inl fun x hx => (h.admits 0 covered.levels_pos x).1
        ((CPartConstraint.admits_of_fSameLevels hequiv rel.levels_pos x).1 hx))
    · intro ul _ hul hdefault hnone
      refine absurd ?_ hnone
      rw [← h.isDefaultPartition (hlevels ▸ hul)]
      exact (CPartConstraint.admits_of_fSameLevels hequiv hul none).1 hdefault

/-! ## The loop -/

variable (level) in
/-- What is covered is the union of what is accepted, nothing at first. -/
def Covered (ulLevels : ℕ) :
    Option (CPartConstraint C) → List (CPartConstraint C) → Prop
  | none, accepted => accepted = []
  | some covered, accepted =>
    covered.m_num_of_part_levels = ulLevels ∧ IsUnion level covered accepted

variable {ppartcnstrCovered : Option (CPartConstraint C)} {ppartcnstr newly : CPartConstraint C}
  {pmdindex : IMDIndex} {pdrgpexprIndex pdrgpexprResidual : List IndexScalar} {ulLevels : ℕ}

/-- An index that is accepted does not overlap with what is covered, and its predicates are those of
the query. -/
theorem ppartcnstrUpdateCovered_spec
    (h : PpartcnstrUpdateCovered level md query ppartcnstrCovered ppartcnstr pmdindex =
      .ok (some (newly, pdrgpexprIndex, pdrgpexprResidual))) :
    (∀ covered ∈ ppartcnstrCovered, covered.FOverlap level ppartcnstr = .ok false) ∧
      PpartcnstrDisjunction level ppartcnstrCovered ppartcnstr = some newly ∧
      ∀ {X Env : Type} (S : IndexSemantics md X Env),
        SamePredicates md query S
          ⟨some pmdindex, ppartcnstr, some pdrgpexprIndex, pdrgpexprResidual⟩ := by
  unfold PpartcnstrUpdateCovered at h
  split at h
  · cases h
  · obtain ⟨fOverlap, hoverlap, h⟩ := bind_eq_ok.1 h
    cases fOverlap with
    | true => cases h
    | false =>
      simp only [Bool.false_eq_true, if_false] at h
      split at h
      · cases h
      · obtain ⟨newly', hnewly, hentry⟩ := Option.map_eq_some_iff.1 (Except.ok.inj h)
        cases hentry
        refine ⟨fun covered hcovered => ?_, hnewly, fun S env => ?_⟩
        · rw [Option.mem_def] at hcovered
          rw [hcovered] at hoverlap
          exact hoverlap
        · refine Truth.eq_of_holds fun m => ?_
          rw [Predicate.holds_conjunction, Predicate.holds_conjunction,
            IndexScalar.holds_extractIndexPredicates S query.pdrgpexprScalar env m]
          simp only [Option.getD_some, List.forall_mem_append]
          split
          · rw [List.forall_mem_append]
            tauto
          · rfl

/-- The step: what is covered after an index is accepted, and that it is apart from all before. -/
theorem covered_step (hcovered : Covered level ulLevels ppartcnstrCovered accepted)
    (hlevels : ppartcnstr.m_num_of_part_levels = ulLevels)
    (hoverlap : ∀ covered ∈ ppartcnstrCovered, covered.FOverlap level ppartcnstr = .ok false)
    (hnewly : PpartcnstrDisjunction level ppartcnstrCovered ppartcnstr = some newly) :
    Covered level ulLevels (some newly) (accepted ++ [ppartcnstr]) ∧
      ∀ c ∈ accepted, Apart level c ppartcnstr := by
  cases ppartcnstrCovered with
  | none =>
    cases hcovered
    cases hnewly
    exact ⟨⟨hlevels, isUnion_singleton ppartcnstr⟩, by simp⟩
  | some covered =>
    obtain ⟨hsame, hunion⟩ := hcovered
    have hlevels' := hsame.trans hlevels.symm
    obtain ⟨hnewlevels, hnewunion⟩ := hunion.snoc hlevels' (hoverlap covered rfl) hnewly
    refine ⟨⟨hnewlevels.trans hsame, hnewunion⟩, fun c hc leaf hleaf => ?_⟩
    exact CPartConstraint.not_denotes_of_fOverlap hlevels' (hoverlap covered rfl) leaf
      ((hunion.denotes leaf).2 ⟨c, hc, hleaf⟩)

/-- **The run: the entries are the accepted indexes, apart from each other, and what is covered in
the end is their union.** -/
theorem candidatesLoop_spec {X Env : Type} (S : IndexSemantics md X Env)
    {indexes : List (IMDIndex × CPartConstraint C)}
    (hlevels : ∀ index ∈ indexes, index.2.m_num_of_part_levels = ulLevels)
    (hcovered : Covered level ulLevels ppartcnstrCovered accepted)
    (hapart : accepted.Pairwise (Apart level)) {result : Option (CPartConstraint C)}
    {pdrgppartdig : List (SPartDynamicIndexGetInfo C)}
    (h : candidatesLoop level md query indexes ppartcnstrCovered = .ok (result, pdrgppartdig)) :
    pdrgppartdig.map (·.m_part_constraint) =
        acceptedConstraints level md query indexes ppartcnstrCovered ∧
      Covered level ulLevels result
        (accepted ++ acceptedConstraints level md query indexes ppartcnstrCovered) ∧
      (accepted ++ acceptedConstraints level md query indexes ppartcnstrCovered).Pairwise
        (Apart level) ∧
      ∀ ppartdig ∈ pdrgppartdig, SamePredicates md query S ppartdig := by
  induction indexes generalizing ppartcnstrCovered accepted pdrgppartdig with
  | nil =>
    cases h
    simpa [acceptedConstraints] using ⟨hcovered, hapart⟩
  | cons index indexes ih =>
    obtain ⟨pmdindex, ppartcnstr⟩ := index
    obtain ⟨hlevel, hlevels⟩ := List.forall_mem_cons.1 hlevels
    rw [candidatesLoop] at h
    rw [acceptedConstraints]
    split at h
    · next hskip =>
      rw [if_pos hskip]
      exact ih hlevels hcovered hapart h
    · next hskip =>
      rw [if_neg hskip]
      obtain ⟨update, hupdate, h⟩ := bind_eq_ok.1 h
      rw [hupdate]
      match update with
      | none => exact ih hlevels hcovered hapart h
      | some (newly, pdrgpexprIndex, pdrgpexprResidual) =>
        obtain ⟨rest, hrest, h⟩ := bind_eq_ok.1 h
        cases h
        obtain ⟨hoverlap, hnewly, hsame⟩ := ppartcnstrUpdateCovered_spec hupdate
        obtain ⟨hstep, hnew⟩ := covered_step hcovered hlevel hoverlap hnewly
        have hpairs : (accepted ++ [ppartcnstr]).Pairwise (Apart level) :=
          List.pairwise_append.2 ⟨hapart, by simp, by simpa using hnew⟩
        obtain ⟨hentries, hfinal, hfinalpairs, hpredicates⟩ := ih hlevels hstep hpairs hrest
        rw [List.append_assoc] at hfinal hfinalpairs
        exact ⟨by simpa using hentries, hfinal, hfinalpairs,
          List.forall_mem_cons.2 ⟨hsame S, hpredicates⟩⟩

/-- The covered parts and what is left are the relation exactly when each accepted part is in the
relation and taking away is exact. -/
theorem IsUnion.union_rest_iff {ppartcnstrRest : CPartConstraint C}
    (h : IsUnion level covered accepted)
    (hlevels : rel.m_num_of_part_levels = covered.m_num_of_part_levels)
    (hrest : rel.PpartcnstrRemaining level covered = some ppartcnstrRest) :
    ((∀ c ∈ accepted, Apart level c ppartcnstrRest) ∧ ∀ leaf : ℕ → Option V,
      rel.Denotes level leaf ↔
        (∃ c ∈ accepted, c.Denotes level leaf) ∨ ppartcnstrRest.Denotes level leaf) ↔
    (∀ c ∈ accepted, ∀ leaf : ℕ → Option V, c.Denotes level leaf → rel.Denotes level leaf) ∧
      CPartConstraint.TakesAway level rel covered := by
  rw [← CPartConstraint.ppartcnstrRemaining_right_iff hlevels hrest]
  simp only [h.denotes]
  constructor
  · rintro ⟨hapart, hunion⟩
    refine ⟨fun c hc leaf hleaf => (hunion leaf).2 (.inl ⟨c, hc, hleaf⟩), fun leaf => ?_⟩
    constructor
    · exact fun hleaf => ⟨(hunion leaf).2 (.inr hleaf), fun ⟨c, hc, hin⟩ => hapart c hc leaf hin hleaf⟩
    · exact fun ⟨hrel, hout⟩ => ((hunion leaf).1 hrel).resolve_left hout
  · rintro ⟨hinside, hdifference⟩
    refine ⟨fun c hc leaf hleaf hin => ((hdifference leaf).1 hin).2 ⟨c, hc, hleaf⟩, fun leaf => ?_⟩
    rw [hdifference]
    constructor
    · intro hrel
      by_cases hin : ∃ c ∈ accepted, c.Denotes level leaf
      · exact .inl hin
      · exact .inr ⟨hrel, hin⟩
    · rintro (⟨c, hc, hleaf⟩ | ⟨hrel, -⟩)
      · exact hinside c hc leaf hleaf
      · exact hrel

/-- **The candidates cover every part of the relation once exactly when the parts of each accepted
index are in the relation and what is left is exact. Their predicates are those of the query.** -/
theorem PdrgpdrgppartdigCandidates_coversOnce_iff {X Env : Type} (S : IndexSemantics md X Env)
    {indexes : List (IMDIndex × CPartConstraint C)} {ppartcnstrRel : CPartConstraint C}
    (hlevels : ∀ index ∈ indexes,
      index.2.m_num_of_part_levels = ppartcnstrRel.m_num_of_part_levels)
    {pdrgpdrgppartdig : List (List (SPartDynamicIndexGetInfo C))}
    (h : PdrgpdrgppartdigCandidates level md query indexes ppartcnstrRel = .ok pdrgpdrgppartdig)
    {pdrgppartdig : List (SPartDynamicIndexGetInfo C)} (hmem : pdrgppartdig ∈ pdrgpdrgppartdig) :
    (CoversOnce level ppartcnstrRel pdrgppartdig ∧
      ∀ ppartdig ∈ pdrgppartdig, SamePredicates md query S ppartdig) ↔
    Coverable level ppartcnstrRel (acceptedConstraints level md query indexes none) := by
  unfold PdrgpdrgppartdigCandidates at h
  obtain ⟨⟨result, entries⟩, hrun, h⟩ := bind_eq_ok.1 h
  have hstart : Covered level ppartcnstrRel.m_num_of_part_levels none [] := rfl
  obtain ⟨hentries, hcovered, hapart, hsame⟩ :=
    candidatesLoop_spec S hlevels hstart List.Pairwise.nil hrun
  rw [List.nil_append] at hcovered hapart
  generalize acceptedConstraints level md query indexes none = accepted at *
  cases result with
  | none =>
    -- no index is accepted, and the array is empty
    cases h
    cases List.mem_singleton.1 hmem
    cases hcovered
    constructor
    · rintro ⟨hcovers, -⟩
      exact ⟨by simp, fun _ leaf hleaf => by simpa [hentries] using (hcovers.union leaf).1 hleaf,
        fun hne => absurd rfl hne⟩
    · intro hcoverable
      exact ⟨⟨hentries ▸ hapart, fun leaf => by
        rw [hentries]
        exact iff_of_false (hcoverable.some rfl leaf) (by simp)⟩, hsame⟩
  | some covered =>
    obtain ⟨hsamelevels, hunion⟩ := hcovered
    dsimp only at h
    split at h
    · -- everything is covered
      next hequiv =>
      cases h
      cases List.mem_singleton.1 hmem
      constructor
      · rintro ⟨hcovers, -⟩
        exact ⟨fun c hc leaf hleaf => (hcovers.union leaf).2 ⟨c, hentries ▸ hc, hleaf⟩,
          fun hnil => absurd hnil hunion.nonempty,
          fun _ => hunion.restIsExact_of_fEquivalent hsamelevels.symm hequiv⟩
      · intro hcoverable
        refine ⟨⟨hentries ▸ hapart, fun leaf => ?_⟩, hsame⟩
        rw [hentries, ← hunion.denotes]
        constructor
        · exact CPartConstraint.denotes_of_fEquivalent hequiv
        · intro hleaf
          obtain ⟨c, hc, hin⟩ := (hunion.denotes leaf).1 hleaf
          exact hcoverable.inside c hc leaf hin
    · next hequiv =>
      split at h
      · cases h
        cases hmem
      · next ppartdig hget =>
        cases h
        cases List.mem_singleton.1 hmem
        obtain ⟨ppartcnstrRest, hrest, rfl⟩ := Option.map_eq_some_iff.1 hget
        have hflags : ppartcnstrRel.IsConstraintUnbounded = true →
            covered.IsConstraintUnbounded = false := by
          intro hrel
          rw [CPartConstraint.FEquivalent, if_pos hrel] at hequiv
          simpa using hequiv
        have hiff := hunion.union_rest_iff hsamelevels.symm hrest
        rw [hunion.takesAway_iff hsamelevels.symm hflags] at hiff
        have hall : SamePredicates md query S
            ⟨none, ppartcnstrRest, none, query.pdrgpexprScalar⟩ := fun env => rfl
        constructor
        · rintro ⟨⟨hcoversApart, hcoversUnion⟩, -⟩
          rw [List.map_append, hentries, List.map_singleton] at hcoversApart hcoversUnion
          obtain ⟨-, -, hlast⟩ := List.pairwise_append.1 hcoversApart
          obtain ⟨hinside, hexact⟩ := hiff.1 ⟨fun c hc => hlast c hc _ (by simp), fun leaf => by
            rw [hcoversUnion leaf]
            simp [or_and_right, exists_or]⟩
          exact ⟨hinside, fun hnil => absurd hnil hunion.nonempty, fun _ => hexact⟩
        · intro hcoverable
          obtain ⟨hlast, hcoversUnion⟩ :=
            hiff.2 ⟨hcoverable.inside, hcoverable.rest hunion.nonempty⟩
          refine ⟨⟨?_, fun leaf => ?_⟩, ?_⟩
          · rw [List.map_append, hentries, List.map_singleton]
            exact List.pairwise_append.2 ⟨hapart, by simp, by simpa using hlast⟩
          · rw [hcoversUnion leaf, List.map_append, hentries]
            simp [or_and_right, exists_or]
          · exact List.forall_mem_append.2 ⟨hsame, by simpa using hall⟩

/-! ## Two levels -/

def columnA : CColRef := ⟨0, true, true, true⟩

/-- The column equals 5. -/
def aIs5 : IndexScalar :=
  .node (.other (.other (.cmp 0))) [.node (.other (.other (.ident columnA 23))) [],
    .node (.other (.other (.const 23 5))) []]

/-- A partial B-tree on the column. -/
def indexOnA : IMDIndex :=
  ⟨.EmdindBtree, [columnA], [columnA], true, fun _ _ => true⟩

def queryA : PartialIndexQuery := ⟨[aIs5], [columnA], [columnA], none, false⟩

/-- A leaf partition on the key value 0, the default of the second level. -/
def defaultOf0 (ul : ℕ) : Option (Fin 4) := if ul = 0 then some 0 else none

open CPartConstraint in
/-- An index on the key value 0 of the first level, with the default partition of the second. -/
theorem PdrgpdrgppartdigCandidates_coversOnce_default :
    ∃ pdrgppartdig, PdrgpdrgppartdigCandidates fourKeys intCatalog queryA
        [(indexOnA, onFirstLevel {0} {1} false)] (onFirstLevel {0, 1} {1} false) =
          .ok [pdrgppartdig] ∧
      CoversOnce fourKeys (onFirstLevel {0, 1} {1} false) pdrgppartdig ∧
      ∀ ppartdig ∈ pdrgppartdig, SamePredicates intCatalog queryA intSemantics ppartdig := by
  have hlevels : ∀ index ∈ [(indexOnA, onFirstLevel {0} {1} false)],
      index.2.m_num_of_part_levels = (onFirstLevel {0, 1} {1} false).m_num_of_part_levels := by
    simp [onFirstLevel]
  refine ⟨_, rfl, (PdrgpdrgppartdigCandidates_coversOnce_iff intSemantics hlevels rfl
    (List.mem_singleton_self _)).2 ?_⟩
  have haccepted : acceptedConstraints fourKeys intCatalog queryA
      [(indexOnA, onFirstLevel {0} {1} false)] none = [onFirstLevel {0} {1} false] := rfl
  rw [haccepted]
  refine ⟨fun c hc leaf hleaf => ?_, fun hnil => by simp at hnil, fun _ => ?_⟩
  · cases List.mem_singleton.1 hc
    have hsubsume : (onFirstLevel {0, 1} {1} false).FSubsume fourKeys
        (onFirstLevel {0} {1} false) = .ok true := rfl
    have hsame : (onFirstLevel {0, 1} {1} false).m_num_of_part_levels =
        (onFirstLevel {0} {1} false).m_num_of_part_levels := rfl
    exact denotes_of_fSubsume hsame hsubsume leaf hleaf
  · rw [RestIsExact, if_neg (by decide), if_neg (by decide)]
    intro ul hpos hlt _ hnone
    have hul : ul = 1 := by
      have hlt : ul < 2 := hlt
      omega
    subst hul
    exact absurd ⟨_, List.mem_singleton_self _, by decide⟩ hnone

open CPartConstraint in
/-- Without the default partition of the second level in the index, that partition of the key value
0 is in the relation and in no entry. -/
theorem not_coversOnce_default :
    ∃ pdrgppartdig, PdrgpdrgppartdigCandidates fourKeys intCatalog queryA
        [(indexOnA, onFirstLevel {0} ∅ false)] (onFirstLevel {0, 1} {1} false) =
          .ok [pdrgppartdig] ∧
      (onFirstLevel {0, 1} {1} false).Denotes fourKeys defaultOf0 ∧
      (∀ ppartdig ∈ pdrgppartdig, ¬ppartdig.m_part_constraint.Denotes fourKeys defaultOf0) ∧
      ¬CoversOnce fourKeys (onFirstLevel {0, 1} {1} false) pdrgppartdig := by
  have hrel : (onFirstLevel {0, 1} {1} false).Denotes fourKeys defaultOf0 := by
    refine .inr fun ul hul => ?_
    have hul : ul < 2 := hul
    interval_cases ul
    · rintro pcnstr ⟨⟩
      exact (by decide : (0 : Fin 4) ∈ ({0, 1} : Finset (Fin 4)))
    · exact (by decide : (onFirstLevel {0, 1} {1} false).IsDefaultPartition 1 = true)
  have hindex : ¬(onFirstLevel {0} ∅ false).Denotes fourKeys defaultOf0 := by
    rw [denotes_iff rfl]
    intro h
    have hdefault : (onFirstLevel {0} ∅ false).IsDefaultPartition 1 = true := h 1 Nat.one_lt_two
    exact absurd hdefault (by decide)
  -- the rest excludes the key value 0
  have hrest : ∀ R, (onFirstLevel {0, 1} {1} false).PpartcnstrRemaining fourKeys
      (onFirstLevel {0} ∅ false) = some R → ¬R.Denotes fourKeys defaultOf0 := by
    rintro R hR
    obtain ⟨-, hbounded, hsame, hfirst, -⟩ := ppartcnstrRemaining_spec hR
    rw [denotes_iff hbounded]
    intro h
    refine ((hfirst _).1 (h 0 R.levels_pos)).2 ?_
    rintro pcnstr ⟨⟩
    exact (by decide : (0 : Fin 4) ∈ ({0} : Finset (Fin 4)))
  have hnone : ∀ ppartdig ∈ ([⟨some indexOnA, onFirstLevel {0} ∅ false, some [aIs5], []⟩] ++
      ((PpartdigDynamicGet fourKeys [aIs5] (onFirstLevel {0} ∅ false)
        (onFirstLevel {0, 1} {1} false)).toList) : List (SPartDynamicIndexGetInfo _)),
      ¬ppartdig.m_part_constraint.Denotes fourKeys defaultOf0 := by
    intro ppartdig hmem
    rcases List.mem_append.1 hmem with hmem | hmem
    · cases List.mem_singleton.1 hmem
      exact hindex
    · obtain ⟨R, hR, rfl⟩ := Option.map_eq_some_iff.1 (Option.mem_toList.1 hmem)
      exact hrest R hR
  refine ⟨_, rfl, hrel, hnone, fun hcovers => ?_⟩
  obtain ⟨c, hc, hleaf⟩ := (hcovers.union defaultOf0).1 hrel
  obtain ⟨ppartdig, hmem, rfl⟩ := List.mem_map.1 hc
  exact hnone ppartdig hmem hleaf

end CXformUtils

end BossOptimizer

import BossOptimizer.Operators.KeySoundness
import BossOptimizer.Operators.PropertyRules

/-!
# Soundness of the derived properties

Constraints, equivalence classes, not-null columns and keys of a logical expression hold of its
rows in every database that satisfies the declared facts of the base tables. Two rules of the code
are too optimistic: the defects of the constraint derivation, which `safe` excludes, and a
projection that passes keys on although it repeats rows.
-/

namespace BossOptimizer

open CConstraint CPropConstraint

namespace LogicalExpr

variable {D : Type} [LinearOrder D] {ex : Execution D} {env : Row D} {fArrayConstraints : Bool}
  {arrayExpansionThreshold : ℕ}

theorem derivePropertyConstraintAll_eq_ok {es : List (LogicalExpr D)}
    {ppcs : List (CPropConstraint D)}
    (h : derivePropertyConstraintAll fArrayConstraints arrayExpansionThreshold es = .ok ppcs) :
    List.Forall₂ (fun e ppc =>
      e.derivePropertyConstraint fArrayConstraints arrayExpansionThreshold = .ok ppc) es ppcs := by
  induction es generalizing ppcs with
  | nil => cases h; exact .nil
  | cons e es ih =>
    obtain ⟨ppc, hppc, h⟩ := bind_eq_ok.1 h
    obtain ⟨rest, hrest, h⟩ := bind_eq_ok.1 h
    cases h
    exact .cons hppc (ih hrest)

/-- **Derived constraints and classes hold of the rows**: the property of an expression is sound
    over its rows. -/
theorem derivePropertyConstraint_sound {e : LogicalExpr D} (hs : Everywhere WellScoped e)
    (hf : Everywhere (baseFacts ex) e)
    (hsafe : Everywhere (constraintsSafe fArrayConstraints arrayExpansionThreshold) e)
    {ppc : CPropConstraint D}
    (h : e.derivePropertyConstraint fArrayConstraints arrayExpansionThreshold = .ok ppc) :
    Sound e.colrefs (· ∈ e.rows ex env) ppc := by
  induction e using LogicalExpr.induction generalizing ppc with
  | get ptabdesc out unused => exact fromTable_sound hs.here hf.here hsafe.here h
  | constTableGet out data => cases h; exact sound_none
  | select child p ih =>
    obtain ⟨ppcChild, hchild, h⟩ := bind_eq_ok.1 h
    have hsound := ih (hs.child (by simp [children])) (hf.child (by simp [children]))
      (hsafe.child (by simp [children])) hchild
    refine fromPredicates_sound (I := ex.scalars) ?_ hsafe.here (fun c hc => .inr hc)
      (fun r hr => List.of_mem_filter hr) h
    simp only [List.mem_singleton, forall_eq]
    exact hsound.transfer Set.subset_union_left fun r hr =>
      ⟨r, List.mem_of_mem_filter hr, fun _ _ => rfl⟩
  | project child l ih =>
    obtain ⟨ppcChild, hchild, h⟩ := bind_eq_ok.1 h
    exact fromProject_sound hs.here (ih (hs.child (by simp [children]))
      (hf.child (by simp [children])) (hsafe.child (by simp [children])) hchild) h
  | gbAgg cols child l ih =>
    obtain ⟨ppcChild, hchild, h⟩ := bind_eq_ok.1 h
    have hsound := ih (hs.child (by simp [children])) (hf.child (by simp [children]))
      (hsafe.child (by simp [children])) hchild
    by_cases hcols : cols = []
    · -- no column is left, so the property says nothing
      subst hcols
      rw [restrict_nil] at h
      cases h
      exact sound_none
    · refine (restrict_sound hsound h).transfer (fun c hc => .inl (.inr hc)) fun r hr => ?_
      rw [rows, gbAggRows, if_neg hcols] at hr
      obtain ⟨row, hrow, rfl⟩ := List.mem_map.1 hr
      refine ⟨row, (dedupOn_sublist _ _).subset hrow, fun c hc => ?_⟩
      have hnew : c ∉ l.map (·.pcr) := by
        intro hmem
        obtain ⟨el, hel, rfl⟩ := List.mem_map.1 hmem
        exact hs.here.2 el hel (deriveOutputColumns_subset_colrefs child _ (hs.here.1 _ hc))
      rw [assign_of_notMem hnew, merge_of_mem hc]
  | limit id child offset count ih =>
    refine (ih (hs.child (by simp [children])) (hf.child (by simp [children]))
      (hsafe.child (by simp [children])) h).transfer Set.Subset.rfl fun r hr => ?_
    exact ⟨r, mem_limit hr, fun _ _ => rfl⟩
  | setOp op out input es ih =>
    obtain ⟨ppcs, hppcs, h⟩ := bind_eq_ok.1 h
    have hall := derivePropertyConstraintAll_eq_ok hppcs
    refine fromSetOp_sound hs.here (List.forall₂_iff_get.2 ⟨hall.length_eq, fun i hi hi' => ?_⟩) h
    have hmem : es[i] ∈ es := List.getElem_mem hi
    exact ih _ hmem (hs.child hmem) (hf.child hmem) (hsafe.child hmem) (hall.get hi hi')
  | join op left right p ihl ihr =>
    have hleft := fun ppc => @ihl (hs.child (by simp [children])) (hf.child (by simp [children]))
      (hsafe.child (by simp [children])) ppc
    have hright := fun ppc => @ihr (hs.child (by simp [children])) (hf.child (by simp [children]))
      (hsafe.child (by simp [children])) ppc
    cases op with
    | inner =>
      obtain ⟨ppcl, hl, h⟩ := bind_eq_ok.1 h
      obtain ⟨ppcr, hr, h⟩ := bind_eq_ok.1 h
      have hrow : ∀ r ∈ (join .inner left right p).rows ex env, ∃ l ∈ left.rows ex env,
          ∃ s ∈ right.rows ex env, isTrue ex.scalars p r = true ∧ r = merge right.rowColumns l s := by
        intro r hr
        obtain h | ⟨hop, -⟩ | ⟨hop, -⟩ := mem_joinRows hr
        · exact h
        · exact absurd rfl hop
        · cases hop
      refine fromPredicates_sound (I := ex.scalars) ?_ hsafe.here (fun c hc => .inr hc) ?_ h
      · simp only [List.forall_mem_cons, List.not_mem_nil, false_imp_iff, implies_true, and_true]
        refine ⟨(hleft ppcl hl).transfer (fun c hc => .inl (.inl hc)) fun r hr => ?_,
          (hright ppcr hr).transfer (fun c hc => .inl (.inr hc)) fun r hr => ?_⟩
        · obtain ⟨l, hl, s, -, -, rfl⟩ := hrow r hr
          exact ⟨l, hl, agree_left hs.here l s⟩
        · obtain ⟨l, hl, s, hsmem, -, rfl⟩ := hrow r hr
          exact ⟨s, hsmem, agree_right hs.here (hs.child (by simp [children]))
            (hs.child (by simp [children])) hl hsmem⟩
      · intro r hr
        obtain ⟨-, -, -, -, hp, -⟩ := hrow r hr
        exact hp
    | leftOuter =>
      -- the preserved side only
      refine (hleft ppc h).transfer (fun c hc => .inl (.inl hc)) fun r hr => ?_
      obtain ⟨l, hl, s, -, -, rfl⟩ | ⟨-, l, hl, rfl⟩ | ⟨hop, -⟩ := mem_joinRows hr
      · exact ⟨l, hl, agree_left hs.here l s⟩
      · exact ⟨l, hl, agree_left hs.here l nullRow⟩
      · cases hop
    | fullOuter => cases h; exact sound_none
  | naryJoin es idx preds on ih =>
    obtain ⟨ppcs, hppcs, h⟩ := bind_eq_ok.1 h
    have hall := derivePropertyConstraintAll_eq_ok hppcs
    refine fromNAryJoin_sound hs (List.forall₂_iff_get.2 ⟨hall.length_eq, fun i hi hi' => ?_⟩)
      hsafe.here h
    have hmem : es[i] ∈ es := List.getElem_mem hi
    exact ih _ hmem (hs.child hmem) (hf.child hmem) (hsafe.child hmem) (hall.get hi hi')

/-- What is derived of an expression holds of its rows: they satisfy the constraint, the columns of
    a class are equal, not-null columns are not NULL, and keys are keys. -/
def derivedFactsHold (fArrayConstraints : Bool) (arrayExpansionThreshold : ℕ) (ex : Execution D)
    (env : Row D) (e : LogicalExpr D) : Prop :=
  (∀ ppc, e.derivePropertyConstraint fArrayConstraints arrayExpansionThreshold = .ok ppc →
    ∀ r ∈ e.rows ex env, (∀ K ∈ ppc.pcnstr, K.sat r) ∧ classesHold ppc.pdrgpcrs r) ∧
  (∀ r ∈ e.rows ex env, ∀ c ∈ e.deriveNotNullColumns, r c ≠ ⊥) ∧ keysHold ex env e

section Examples

def colKey : CColRef := ⟨1, true, true, false⟩

def colValue : CColRef := ⟨2, true, false, true⟩

/-- A table with a key of one column. -/
def keyedTable : CTableDescriptor ℤ := ⟨0, [⟨false, false⟩], [[0]], []⟩

/-- The table has the row 1, and the function returns 7 and 8. -/
def oneRow : Execution ℤ where
  scalars := CConstraintInterval.notOne
  table _ := [[(1 : ℤ)]]
  setReturning _ _ := [(7 : ℤ), (8 : ℤ)]
  aggregate _ _ := ⊥
  limitScalar _ _ := none
  arrange _ rows := rows
  arrange_perm _ rows := List.Perm.refl rows

def keyedGet : LogicalExpr ℤ := .get keyedTable [colKey] []

theorem keyedGet_wellScoped : WellScoped keyedGet := by
  refine ⟨by decide, by decide, by decide, by decide, ?_⟩
  simp [keyedTable]

theorem keyedTable_facts : TableFacts oneRow keyedTable [colKey] where
  keys key _ := by simp [oneRow]
  notNull vals hvals i hi := by
    obtain rfl : vals = [(1 : ℤ)] := by simpa [oneRow] using hvals
    have hlt := (List.getElem?_eq_some_iff.1 hi).1
    obtain rfl : i = 0 := by simpa [keyedTable] using hlt
    simp
  checks vals _ env check hcheck := by simp [keyedTable] at hcheck

end Examples

end LogicalExpr

end BossOptimizer

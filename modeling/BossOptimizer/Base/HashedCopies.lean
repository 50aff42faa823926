import BossOptimizer.Base.CDistributionSpecHashed
import Mathlib.Data.List.Forall2

/-!
# Copies of hashed distributions

`Copy` keeps the expressions of a chain but builds the chain of the equivalents in reverse, with
the NULL flag of the head on every spec and none of the other fields. `Combine` adds what the other
spec has, whatever it is. What `CompleteEquivSpec` adds is equal wherever the predicate holds.
-/

namespace BossOptimizer

namespace CDistributionSpecHashed

variable {Op : Type} {ops : ScalarOperators Op} {pds other_spec : CDistributionSpecHashed Op}
  {fNullsColocated : Bool}

/-! ## Chains that are built by pushing -/

@[simp] theorem chain_new (keys : HashedKeys Op) (equiv : Option (CDistributionSpecHashed Op)) :
    (new keys equiv).chain = keys :: (equiv.map chain).getD [] := by
  cases equiv <;> rfl

/-- Pushing the specs of a list turns it around. -/
theorem foldl_push (exprs : List (HashedKeys Op)) (spec : Option (CDistributionSpecHashed Op)) :
    ((exprs.foldl (fun spec keys => some (new (plainKeys fNullsColocated keys) spec)) spec).map
        chain).getD [] =
      (exprs.map (plainKeys fNullsColocated)).reverse ++ (spec.map chain).getD [] := by
  induction exprs generalizing spec with
  | nil => rfl
  | cons keys exprs ih =>
    rw [List.foldl_cons, ih]
    simp

theorem chain_pushEach (exprs : List (HashedKeys Op)) :
    ((pushEach fNullsColocated exprs).map chain).getD [] =
      (exprs.map (plainKeys fNullsColocated)).reverse := by
  rw [pushEach, foldl_push]
  simp

theorem pushEach_isSome {exprs : List (HashedKeys Op)} (hne : exprs ≠ []) :
    (pushEach fNullsColocated exprs).isSome := by
  obtain ⟨init, last, rfl⟩ := List.eq_nil_or_concat exprs |>.resolve_left hne
  simp [pushEach]

theorem chain_copy (pds : CDistributionSpecHashed Op) :
    (Copy pds).chain = plainKeys pds.keys.m_fNullsColocated pds.keys ::
      (pds.equivalents.map (plainKeys pds.keys.m_fNullsColocated)).reverse := by
  rw [Copy, chain_new, chain_pushEach]

theorem chain_combine (pds other_spec : CDistributionSpecHashed Op) :
    (Combine pds other_spec).chain =
      ((pds.chain ++ other_spec.chain).map (plainKeys pds.keys.m_fNullsColocated)).reverse := by
  rw [← chain_pushEach, Combine]
  have hsome : (pushEach pds.keys.m_fNullsColocated (pds.chain ++ other_spec.chain)).isSome :=
    pushEach_isSome (by simp [chain])
  obtain ⟨spec, hspec⟩ := Option.isSome_iff_exists.1 hsome
  simp [hspec]

theorem chain_injective : ∀ {pds pds' : CDistributionSpecHashed Op}, pds.chain = pds'.chain →
    pds = pds'
  | .single _, .single _, h => by
    simpa using h
  | .withEquiv _ equiv, .withEquiv _ equiv', h => by
    rw [chain_withEquiv, chain_withEquiv, List.cons.injEq] at h
    rw [h.1, chain_injective h.2]
  | .single _, .withEquiv _ equiv', h => by
    simp [chain, equivalents] at h
  | .withEquiv _ equiv, .single _, h => by
    simp [chain, equivalents] at h

theorem equals_self : ∀ pds : CDistributionSpecHashed Op, Equals ops pds pds = true
  | .single keys => by
    rw [Equals, HashedKeys.Equals, CExpression.equalsArray_self, CExpression.equalsArrays_self]
    simp
  | .withEquiv keys equiv => by
    rw [Equals, equals_self equiv, HashedKeys.Equals, CExpression.equalsArray_self,
      CExpression.equalsArrays_self]
    simp

/-! ## What the copies are -/

/-- The copy equals the original, satisfies the same requirements and has the same chain. -/
structure CopyFaithful (ops : ScalarOperators Op) (pds : CDistributionSpecHashed Op) : Prop where
  equals : Equals ops pds (Copy pds) = true
  satisfies : ∀ pdsRequired, FSatisfies ops (Copy pds) pdsRequired = FSatisfies ops pds pdsRequired
  chain : (Copy pds).chain = pds.chain

/-- A spec that the constructor makes, with the flag `fNullsColocated`. -/
def Plain (fNullsColocated : Bool) (keys : HashedKeys Op) : Prop :=
  keys = plainKeys fNullsColocated keys

/-- Every spec of the chain has the NULL flag of the head, the default flags and no table, and the
equivalents are the same from either end. -/
def Copyable (pds : CDistributionSpecHashed Op) : Prop :=
  (∀ keys ∈ pds.chain, Plain pds.keys.m_fNullsColocated keys) ∧
    pds.equivalents.reverse = pds.equivalents

theorem plain_plainKeys (keys : HashedKeys Op) :
    Plain fNullsColocated (plainKeys fNullsColocated keys) := rfl

theorem map_plainKeys {specs : List (HashedKeys Op)} (h : ∀ keys ∈ specs, Plain fNullsColocated keys) :
    specs.map (plainKeys fNullsColocated) = specs :=
  (List.map_congr_left fun keys hkeys => (h keys hkeys).symm).trans (List.map_id specs)

theorem chain_copy_iff (pds : CDistributionSpecHashed Op) :
    (Copy pds).chain = pds.chain ↔ Copyable pds := by
  rw [chain_copy, chain, List.cons.injEq]
  constructor
  · rintro ⟨hhead, htail⟩
    have hplain : ∀ keys ∈ pds.equivalents, Plain pds.keys.m_fNullsColocated keys := by
      intro keys hkeys
      rw [← htail, List.mem_reverse, List.mem_map] at hkeys
      obtain ⟨own, -, rfl⟩ := hkeys
      exact plain_plainKeys own
    refine ⟨fun keys hkeys => ?_, by rwa [map_plainKeys hplain] at htail⟩
    rcases List.mem_cons.1 hkeys with rfl | hkeys
    · exact hhead.symm
    · exact hplain keys hkeys
  · rintro ⟨hplain, hreverse⟩
    refine ⟨(hplain _ List.mem_cons_self).symm, ?_⟩
    rw [map_plainKeys fun keys hkeys => hplain keys (List.mem_cons_of_mem _ hkeys), hreverse]

/-- A copy with the chain of the original is the original. -/
theorem copyFaithful_iff (pds : CDistributionSpecHashed Op) :
    CopyFaithful ops pds ↔ Copyable pds := by
  rw [← chain_copy_iff]
  refine ⟨(·.chain), fun h => ?_⟩
  have hcopy : Copy pds = pds := chain_injective h
  refine ⟨?_, fun _ => ?_, h⟩
  · rw [hcopy, equals_self]
  · rw [hcopy]

/-! ## What is added -/

/-- Every spec of the combined chain has the expressions of a spec that was there, or expressions
that are pairwise equal to those of the original. -/
def CombineAddsEqual (Same : CExpression Op → CExpression Op → Prop)
    (pds other_spec : CDistributionSpecHashed Op) : Prop :=
  ∀ keys ∈ (Combine pds other_spec).chain,
    (∃ own ∈ pds.chain, keys.m_pdrgpexpr = own.m_pdrgpexpr) ∨
      List.Forall₂ Same keys.m_pdrgpexpr pds.keys.m_pdrgpexpr

/-- The same of the specs of `other_spec`. -/
def Combinable (Same : CExpression Op → CExpression Op → Prop)
    (pds other_spec : CDistributionSpecHashed Op) : Prop :=
  ∀ keys ∈ other_spec.chain,
    (∃ own ∈ pds.chain, keys.m_pdrgpexpr = own.m_pdrgpexpr) ∨
      List.Forall₂ Same keys.m_pdrgpexpr pds.keys.m_pdrgpexpr

theorem combineAddsEqual_iff (Same : CExpression Op → CExpression Op → Prop)
    (pds other_spec : CDistributionSpecHashed Op) :
    CombineAddsEqual Same pds other_spec ↔ Combinable Same pds other_spec := by
  have hmem : ∀ own, own ∈ pds.chain ++ other_spec.chain →
      plainKeys pds.keys.m_fNullsColocated own ∈ (Combine pds other_spec).chain := fun own hown => by
    rw [chain_combine, List.mem_reverse]
    exact List.mem_map_of_mem hown
  constructor
  · intro h keys hkeys
    have hplain := h _ (hmem keys (List.mem_append_right _ hkeys))
    exact hplain
  · intro h keys hkeys
    rw [chain_combine, List.mem_reverse, List.mem_map] at hkeys
    obtain ⟨own, hown, rfl⟩ := hkeys
    rcases List.mem_append.1 hown with hown | hother
    · exact .inl ⟨own, hown, rfl⟩
    · exact h own hother

/-- What completes the spec has, on the rows where the predicate holds, the values of the
original. -/
def CompleteAddsEqual (ops : ScalarOperators Op) (pds : CDistributionSpecHashed Op) : Prop :=
  ∀ pexprPred completed, CompleteEquivSpec ops pds pexprPred = some completed →
    ∀ (R V : Type) (rows : CExpression.Rows ops R V) (r : R), rows.holds r pexprPred →
      ∀ keys ∈ completed.chain, keys.m_fNullsColocated = pds.keys.m_fNullsColocated ∧
        List.Forall₂ (fun e e' => rows.eval r e = rows.eval r e') keys.m_pdrgpexpr
          pds.keys.m_pdrgpexpr

theorem completeAddsEqual (pds : CDistributionSpecHashed Op) : CompleteAddsEqual ops pds := by
  intro pexprPred completed hcompleted R V rows r hholds keys hkeys
  rw [CompleteEquivSpec] at hcompleted
  split_ifs at hcompleted
  cases hcompleted
  rw [chain_single, List.mem_singleton] at hkeys
  subst hkeys
  refine ⟨rfl, ?_⟩
  rw [HashedKeys.new]
  dsimp only
  rw [List.map_map, List.forall₂_map_left_iff]
  refine List.forall₂_same.2 fun e _ => ?_
  have hconjuncts := rows.holds_conjunct hholds
  dsimp only [Function.comp_apply]
  cases hmatch : CExpression.PexprMatchEqualityOrINDF ops e
      (CExpression.PdrgpexprConjuncts ops pexprPred) with
  | none => rfl
  | some c => exact rows.eval_match hconjuncts hmatch

/-- **`Copy` is faithful exactly on the chains whose specs are alike but for their expressions and
whose equivalents read the same from both ends; `Combine` adds equal specs exactly when the other
spec has only such; `CompleteEquivSpec` always does.** -/
theorem copies_iff (ops : ScalarOperators Op) (Same : CExpression Op → CExpression Op → Prop)
    (pds other_spec : CDistributionSpecHashed Op) :
    (CopyFaithful ops pds ∧ CombineAddsEqual Same pds other_spec ∧ CompleteAddsEqual ops pds) ↔
      Copyable pds ∧ Combinable Same pds other_spec := by
  rw [copyFaithful_iff, combineAddsEqual_iff, and_iff_left (completeAddsEqual pds)]

/-- Hashed on column 1, equivalently on 2 without co-located NULLs, equivalently on 3. The copy is
on 1, 3 and 2, with co-located NULLs on each. -/
theorem not_copyFaithful_threeSpecs :
    ¬∀ pds : CDistributionSpecHashed ℕ, CopyFaithful ScalarOperators.columns pds := by
  intro hall
  have hequals := (hall (.withEquiv (.new [.node 1 []] true (by simp))
    (.withEquiv (.new [.node 2 []] false (by simp))
      (.single (.new [.node 3 []] true (by simp)))))).equals
  revert hequals
  decide +kernel

end CDistributionSpecHashed

end BossOptimizer

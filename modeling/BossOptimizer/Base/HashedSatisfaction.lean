import BossOptimizer.Base.CDistributionSpecHashed
import BossOptimizer.Lib.Lists
import Mathlib.Logic.Relation

/-!
# Satisfaction of hashed distributions

A hashed spec places rows that agree on its expressions on one segment. NULL counts as a value when
the spec co-locates NULLs; otherwise nothing is known of a row with a NULL.

`FSatisfies` is sound as long as it compares with the required spec itself. When it compares with an
equivalent of the required spec, `Matches` has changed the roles of the two specs, and whether the
delivered one co-locates NULLs is not looked at.
-/

namespace BossOptimizer

variable {Op : Type} {ops : ScalarOperators Op} {R V Seg : Type}

namespace HashedKeys

variable (rows : CExpression.Rows ops R V)

/-- The rows agree on the expressions, which are not NULL unless `fNulls` is set. -/
def Agree (fNulls : Bool) (keys : HashedKeys Op) (r r' : R) : Prop :=
  ∀ e ∈ keys.m_pdrgpexpr, rows.eval r e = rows.eval r' e ∧ (fNulls = true ∨ rows.eval r e ≠ none)

/-- The segments of the rows are those of a distribution that the spec describes. -/
def Colocates (seg : R → Seg) (keys : HashedKeys Op) : Prop :=
  ∀ r r', keys.Agree rows keys.m_fNullsColocated r r' → seg r = seg r'

/-- What `m_equiv_hash_exprs` has for an expression has its value. -/
def TableHolds (keys : HashedKeys Op) : Prop :=
  ∀ (i : ℕ) (e : CExpression Op), keys.m_pdrgpexpr[i]? = some e →
    ∀ c ∈ keys.equivExprs i, ∀ r, rows.eval r c = rows.eval r e

variable {rows} {keys own other : HashedKeys Op} {r r' : R} {fNulls : Bool}

theorem Agree.weaken (h : keys.Agree rows false r r') : keys.Agree rows fNulls r r' :=
  fun e he => ⟨(h e he).1, .inr ((h e he).2.resolve_left Bool.false_ne_true)⟩

/-- Every expression has the value of one of the other spec. -/
theorem Agree.of_values (h : other.Agree rows fNulls r r')
    (hvalues : ∀ e ∈ own.m_pdrgpexpr, ∃ k ∈ other.m_pdrgpexpr,
      ∀ r, rows.eval r e = rows.eval r k) : own.Agree rows fNulls r r' := by
  intro e he
  obtain ⟨k, hk, hek⟩ := hvalues e he
  rw [hek, hek]
  exact h k hk

/-! ## The two tests -/

theorem contains_value (htable : other.TableHolds rows) {i : ℕ} {k e : CExpression Op}
    (hk : other.m_pdrgpexpr[i]? = some k)
    (h : CExpression.Contains ops (other.equivExprs i) e = true) (r : R) :
    rows.eval r e = rows.eval r k := by
  obtain ⟨c, hc, hce⟩ := List.any_eq_true.1 h
  rw [← rows.equals r c e hce, htable i k hk c hc r]

/-- A match compares the expressions of the two specs one by one. -/
theorem values_of_fMatch (htable : other.TableHolds rows)
    (h : own.FMatchHashedDistribution ops other = true) :
    List.Forall₂ (fun e k => ∀ r, rows.eval r e = rows.eval r k) own.m_pdrgpexpr
      other.m_pdrgpexpr := by
  rw [FMatchHashedDistribution] at h
  split_ifs at h with hsizes
  have hlen : own.m_pdrgpexpr.length = other.m_pdrgpexpr.length := by
    simp only [Bool.or_eq_true, not_or, decide_eq_true_eq, not_not] at hsizes
    exact hsizes.1.1
  refine forall₂_of_getElem? hlen fun i e k he hk r => ?_
  have hmem : ((k, e), i) ∈ (other.m_pdrgpexpr.zip own.m_pdrgpexpr).zipIdx := by
    rw [List.mem_zipIdx_iff_getElem?, List.getElem?_zip_eq_some]
    exact ⟨hk, he⟩
  have hpair := List.all_eq_true.1 h _ hmem
  rcases Bool.or_eq_true _ _ ▸ hpair with heq | hcontains
  · exact (rows.equals r k e heq).symm
  · exact contains_value htable hk hcontains r

theorem nulls_of_fMatch (h : own.FMatchHashedDistribution ops other = true) :
    own.m_fNullsColocated = false → other.m_fNullsColocated = false := by
  rw [FMatchHashedDistribution] at h
  split_ifs at h with hsizes
  simp only [Bool.or_eq_true, not_or] at hsizes
  simpa [FNullsColocatedCompatible] using hsizes.1.2

theorem values_of_fMatchSubset (htable : other.TableHolds rows)
    (h : own.FMatchSubset ops other = true) :
    ∀ e ∈ own.m_pdrgpexpr, ∃ k ∈ other.m_pdrgpexpr, ∀ r, rows.eval r e = rows.eval r k := by
  rw [FMatchSubset] at h
  split_ifs at h
  intro e he
  obtain ⟨⟨k, i⟩, hmem, htest⟩ := List.any_eq_true.1 (List.all_eq_true.1 h e he)
  have hk : other.m_pdrgpexpr[i]? = some k := List.mem_zipIdx_iff_getElem?.1 hmem
  refine ⟨k, List.mem_of_getElem? hk, fun r => ?_⟩
  rw [← rows.eval_withoutCasts r e]
  rcases Bool.or_eq_true _ _ ▸ htest with heq | hcontains
  · rw [rows.equals r _ _ heq, rows.eval_withoutCasts]
  · exact contains_value htable hk hcontains r

theorem nulls_of_fMatchSubset (h : own.FMatchSubset ops other = true) :
    own.m_fNullsColocated = false → other.m_fNullsColocated = false := by
  rw [FMatchSubset] at h
  split_ifs at h with hsizes
  simp only [Bool.or_eq_true, not_or] at hsizes
  simpa [FNullsColocatedCompatible] using hsizes.1.2

end HashedKeys

namespace CDistributionSpecHashed

variable {pds pdsOther : CDistributionSpecHashed Op}

/-! ## What is compared with what -/

/-- Some spec of the chain matches the other spec. -/
def MatchesHead (ops : ScalarOperators Op) (pds pdsOther : CDistributionSpecHashed Op) : Prop :=
  ∃ own ∈ pds.chain, own.FMatchHashedDistribution ops pdsOther.keys = true

/-- Some spec of the chain and some equivalent of the other spec match, the equivalent being asked
unless the spec of the chain is an equivalent itself. -/
def MatchesEquivalent (ops : ScalarOperators Op) (pds pdsOther : CDistributionSpecHashed Op) :
    Prop :=
  ∃ other ∈ pdsOther.equivalents,
    (∃ own ∈ pds.chain, other.FMatchHashedDistribution ops own = true) ∨
      ∃ own ∈ pds.equivalents, own.FMatchHashedDistribution ops other = true

theorem matches_iff (pds pdsOther : CDistributionSpecHashed Op) :
    Matches ops pds pdsOther = true ↔
      MatchesHead ops pds pdsOther ∨ MatchesEquivalent ops pds pdsOther := by
  induction pds, pdsOther using Matches.induct with
  | case1 own other => simp [Matches, MatchesHead, MatchesEquivalent, keys, equivalents]
  | case2 own equiv other ih =>
    rw [Matches, Bool.or_eq_true, ih]
    simp only [MatchesHead, MatchesEquivalent, chain_withEquiv, equivalents, keys, List.mem_cons]
    clear ih
    grind
  | case3 own other equivOther ih =>
    rw [Matches, Bool.or_eq_true, ih]
    simp only [MatchesHead, MatchesEquivalent, chain, equivalents, keys, List.mem_cons]
    clear ih
    grind
  | case4 own equiv other equivOther ih ihOther =>
    rw [Matches, Bool.or_eq_true, Bool.or_eq_true, ih, ihOther]
    simp only [MatchesHead, MatchesEquivalent, chain, equivalents, keys, List.mem_cons]
    clear ih ihOther
    grind

theorem fSatisfies_iff (pds pdsOther : CDistributionSpecHashed Op) :
    FSatisfies ops pds pdsOther = true ↔
      (MatchesHead ops pds pdsOther ∨ MatchesEquivalent ops pds pdsOther) ∨
        ∃ own ∈ pds.chain, own.FMatchSubset ops pdsOther.keys = true := by
  induction pds with
  | single own =>
    rw [FSatisfies, Bool.or_eq_true, matches_iff, chain_single]
    simp only [List.mem_singleton, exists_eq_left]
  | withEquiv own equiv ih =>
    rw [FSatisfies, Bool.or_eq_true, Bool.or_eq_true, ih, matches_iff]
    simp only [MatchesHead, MatchesEquivalent, chain, equivalents, keys, List.mem_cons]
    clear ih
    grind

/-! ## Soundness -/

/-- The rows have the equalities that the specs stand for: each table gives values of its
expressions, and rows that agree on the required expressions agree on those of an equivalent
spec. -/
structure Consistent (rows : CExpression.Rows ops R V) (pds pdsRequired : CDistributionSpecHashed Op) :
    Prop where
  table : ∀ keys ∈ pds.chain ++ pdsRequired.chain, keys.TableHolds rows
  equivalent : ∀ keys ∈ pdsRequired.equivalents, ∀ fNulls r r',
    pdsRequired.keys.Agree rows fNulls r r' → keys.Agree rows fNulls r r'

/-- Every distribution that the chain of `pds` describes has the rows that agree on the required
expressions on one segment. -/
def Sound (ops : ScalarOperators Op) (pds pdsRequired : CDistributionSpecHashed Op) : Prop :=
  ∀ (R V Seg : Type) (rows : CExpression.Rows ops R V) (seg : R → Seg),
    Consistent rows pds pdsRequired → (∀ keys ∈ pds.chain, keys.Colocates rows seg) →
      pdsRequired.keys.Colocates rows seg

/-- Expressions that are equal by `CUtils::Equals`, by a cast or by a table of the specs. -/
inductive SameStep (ops : ScalarOperators Op) (specs : List (HashedKeys Op)) :
    CExpression Op → CExpression Op → Prop
  | equals (e e' : CExpression Op) : CExpression.Equals ops e e' = true → SameStep ops specs e e'
  | cast (pop : Op) (e : CExpression Op) : ops.FBinaryCoercibleCast pop = true →
      SameStep ops specs (.node pop [e]) e
  | table (keys : HashedKeys Op) (i : ℕ) (e c : CExpression Op) : keys ∈ specs →
      keys.m_pdrgpexpr[i]? = some e → c ∈ keys.equivExprs i → SameStep ops specs c e

/-- The expression is equal to one of the required spec or of its equivalents. -/
def Required (ops : ScalarOperators Op) (pds pdsRequired : CDistributionSpecHashed Op)
    (e : CExpression Op) : Prop :=
  ∃ keys ∈ pdsRequired.chain, ∃ k ∈ keys.m_pdrgpexpr,
    Relation.EqvGen (SameStep ops (pds.chain ++ pdsRequired.chain)) e k

/-- The required spec does not ask for NULLs to be co-located, or some spec of the chain that
co-locates them has only required expressions, or no spec of the chain is compared successfully
with an equivalent of the required spec. -/
def NullsCovered (ops : ScalarOperators Op) (pds pdsRequired : CDistributionSpecHashed Op) : Prop :=
  pdsRequired.keys.m_fNullsColocated = false ∨
    (∃ keys ∈ pds.chain, keys.m_fNullsColocated = true ∧
      ∀ e ∈ keys.m_pdrgpexpr, Required ops pds pdsRequired e) ∨
    ¬MatchesEquivalent ops pds pdsRequired

variable {pdsRequired : CDistributionSpecHashed Op}

variable {rows : CExpression.Rows ops R V}

theorem eval_eq_of_same (hrows : Consistent rows pds pdsRequired) {e k : CExpression Op}
    (h : Relation.EqvGen (SameStep ops (pds.chain ++ pdsRequired.chain)) e k) (r : R) :
    rows.eval r e = rows.eval r k := by
  induction h with
  | rel e k hstep =>
    cases hstep with
    | equals _ _ heq => exact rows.equals r e k heq
    | cast pop _ hcast => exact rows.cast r pop k hcast
    | table keys i _ _ hkeys hi hc => exact hrows.table keys hkeys i k hi e hc r
  | refl e => rfl
  | symm e k _ ih => exact ih.symm
  | trans e k l _ _ ih ih' => exact ih.trans ih'

/-- Rows that agree on the required expressions agree on the whole required chain. -/
theorem Consistent.agree (hrows : Consistent rows pds pdsRequired) {fNulls : Bool} {r r' : R}
    (h : pdsRequired.keys.Agree rows fNulls r r') :
    ∀ keys ∈ pdsRequired.chain, keys.Agree rows fNulls r r' := by
  intro keys hkeys
  rcases List.mem_cons.1 hkeys with rfl | hkeys
  · exact h
  · exact hrows.equivalent keys hkeys fNulls r r' h

/-- One spec of the chain with required expressions only is enough. -/
theorem colocates_of_values {seg : R → Seg} {own other : HashedKeys Op} {fNulls : Bool} {r r' : R}
    (hseg : own.Colocates rows seg) (hnulls : own.m_fNullsColocated = false → fNulls = false)
    (hagree : other.Agree rows fNulls r r')
    (hvalues : ∀ e ∈ own.m_pdrgpexpr, ∃ k ∈ other.m_pdrgpexpr,
      ∀ r, rows.eval r e = rows.eval r k) : seg r = seg r' := by
  have hown := hagree.of_values hvalues
  apply hseg
  cases hfNulls : fNulls with
  | false =>
    subst hfNulls
    exact hown.weaken
  | true =>
    subst hfNulls
    have htrue : own.m_fNullsColocated = true := by
      cases hown : own.m_fNullsColocated with
      | true => rfl
      | false => exact absurd (hnulls hown) (by decide)
    rwa [htrue]

theorem values_left {own other : HashedKeys Op}
    (h : List.Forall₂ (fun e k => ∀ r, rows.eval r e = rows.eval r k) own.m_pdrgpexpr
      other.m_pdrgpexpr) :
    ∀ e ∈ own.m_pdrgpexpr, ∃ k ∈ other.m_pdrgpexpr, ∀ r, rows.eval r e = rows.eval r k :=
  fun _ he => exists_of_forall₂_left h he

theorem values_right {own other : HashedKeys Op}
    (h : List.Forall₂ (fun e k => ∀ r, rows.eval r e = rows.eval r k) own.m_pdrgpexpr
      other.m_pdrgpexpr) :
    ∀ k ∈ other.m_pdrgpexpr, ∃ e ∈ own.m_pdrgpexpr, ∀ r, rows.eval r k = rows.eval r e := by
  intro k hk
  obtain ⟨e, he, hek⟩ := exists_of_forall₂_right h hk
  exact ⟨e, he, fun r => (hek r).symm⟩

/-- A comparison with the required spec itself is sound. -/
theorem sound_of_head (h : MatchesHead ops pds pdsRequired ∨
    ∃ own ∈ pds.chain, own.FMatchSubset ops pdsRequired.keys = true) :
    Sound ops pds pdsRequired := by
  intro R V Seg rows seg hrows hseg r r' hagree
  have htable : pdsRequired.keys.TableHolds rows :=
    hrows.table _ (List.mem_append_right _ List.mem_cons_self)
  rcases h with ⟨own, hown, hmatch⟩ | ⟨own, hown, hsubset⟩
  · exact colocates_of_values (hseg own hown) (HashedKeys.nulls_of_fMatch hmatch) hagree
      (values_left (HashedKeys.values_of_fMatch htable hmatch))
  · exact colocates_of_values (hseg own hown) (HashedKeys.nulls_of_fMatchSubset hsubset) hagree
      (HashedKeys.values_of_fMatchSubset htable hsubset)

/-- Nothing can go wrong when NULLs are not asked for. -/
theorem sound_of_equivalent (hnulls : pdsRequired.keys.m_fNullsColocated = false)
    (h : MatchesEquivalent ops pds pdsRequired) : Sound ops pds pdsRequired := by
  intro R V Seg rows seg hrows hseg r r' hagree
  obtain ⟨other, hother, h⟩ := h
  have hagree' := hrows.equivalent other hother _ r r' hagree
  rcases h with ⟨own, hown, hmatch⟩ | ⟨own, hown, hmatch⟩
  · have htable := hrows.table own (List.mem_append_left _ hown)
    exact colocates_of_values (hseg own hown) (fun _ => hnulls) hagree'
      (values_right (HashedKeys.values_of_fMatch htable hmatch))
  · have htable := hrows.table other
      (List.mem_append_right _ (List.mem_cons_of_mem _ hother))
    exact colocates_of_values (hseg own (List.mem_cons_of_mem _ hown)) (fun _ => hnulls) hagree'
      (values_left (HashedKeys.values_of_fMatch htable hmatch))

/-- So is a spec that co-locates NULLs and has required expressions only. -/
theorem sound_of_required {keys : HashedKeys Op} (hkeys : keys ∈ pds.chain)
    (hnulls : keys.m_fNullsColocated = true)
    (hrequired : ∀ e ∈ keys.m_pdrgpexpr, Required ops pds pdsRequired e) :
    Sound ops pds pdsRequired := by
  intro R V Seg rows seg hrows hseg r r' hagree
  apply hseg keys hkeys
  intro e he
  obtain ⟨other, hother, k, hk, hsame⟩ := hrequired e he
  have hvalue := hrows.agree hagree other hother k hk
  rw [eval_eq_of_same hrows hsame, eval_eq_of_same hrows hsame]
  exact ⟨hvalue.1, .inl hnulls⟩

/-! ## Two rows that are told apart -/

theorem required_of_mem {keys : HashedKeys Op} (hkeys : keys ∈ pdsRequired.chain)
    {e : CExpression Op} (he : e ∈ keys.m_pdrgpexpr) : Required ops pds pdsRequired e :=
  ⟨keys, hkeys, e, he, .refl e⟩

theorem required_congr {e e' : CExpression Op}
    (h : SameStep ops (pds.chain ++ pdsRequired.chain) e e') :
    Required ops pds pdsRequired e ↔ Required ops pds pdsRequired e' := by
  constructor
  · rintro ⟨keys, hkeys, k, hk, hsame⟩
    exact ⟨keys, hkeys, k, hk, .trans _ _ _ (.symm _ _ (.rel _ _ h)) hsame⟩
  · rintro ⟨keys, hkeys, k, hk, hsame⟩
    exact ⟨keys, hkeys, k, hk, .trans _ _ _ (.rel _ _ h) hsame⟩

open Classical in
/-- Two rows, with NULL in the required expressions and different values in all others. -/
noncomputable def nullRows (ops : ScalarOperators Op) (pds pdsRequired : CDistributionSpecHashed Op) :
    CExpression.Rows ops Bool Bool where
  eval r e := if Required ops pds pdsRequired e then none else some r
  holds _ _ := False
  equals r e e' h := by
    rw [propext (required_congr (.equals e e' h))]
  cast r pop e h := by
    rw [propext (required_congr (.cast pop e h))]
  and _ _ _ _ h := h.elim
  equality _ _ _ _ _ _ h := h.elim

theorem nullRows_required {e : CExpression Op} (h : Required ops pds pdsRequired e) (r : Bool) :
    (nullRows ops pds pdsRequired).eval r e = none :=
  if_pos h

theorem nullRows_other {e : CExpression Op} (h : ¬Required ops pds pdsRequired e) (r : Bool) :
    (nullRows ops pds pdsRequired).eval r e = some r :=
  if_neg h

theorem consistent_nullRows : Consistent (nullRows ops pds pdsRequired) pds pdsRequired where
  table keys hkeys i e hi c hc r := by
    have hcongr : Required ops pds pdsRequired c ↔ Required ops pds pdsRequired e :=
      required_congr (.table keys i e c hkeys hi hc)
    by_cases he : Required ops pds pdsRequired e
    · rw [nullRows_required he, nullRows_required (hcongr.2 he)]
    · rw [nullRows_other he, nullRows_other fun hc => he (hcongr.1 hc)]
  equivalent keys hkeys fNulls r r' hagree := by
    obtain ⟨e, he⟩ := List.exists_mem_of_ne_nil _ pdsRequired.keys.exprs_ne
    have hrequired : Required ops pds pdsRequired e := required_of_mem List.mem_cons_self he
    have hnull := nullRows_required hrequired r
    have hfNulls : fNulls = true := (hagree e he).2.resolve_right fun hne => hne hnull
    intro k hk
    have hrequired : Required ops pds pdsRequired k :=
      required_of_mem (List.mem_cons_of_mem _ hkeys) hk
    rw [nullRows_required hrequired, nullRows_required hrequired]
    exact ⟨rfl, .inl hfNulls⟩

/-- Without a spec that co-locates NULLs and has required expressions only, the two rows may be on
different segments. -/
theorem not_sound (hnulls : pdsRequired.keys.m_fNullsColocated = true)
    (h : ¬∃ keys ∈ pds.chain, keys.m_fNullsColocated = true ∧
      ∀ e ∈ keys.m_pdrgpexpr, Required ops pds pdsRequired e) : ¬Sound ops pds pdsRequired := by
  intro hsound
  have hchain : ∀ keys ∈ pds.chain, keys.Colocates (nullRows ops pds pdsRequired) id := by
    intro keys hkeys r r' hagree
    by_contra hne
    have hrequired : ∀ e ∈ keys.m_pdrgpexpr, Required ops pds pdsRequired e := fun e he => by
      by_contra hother
      have hvalue := (hagree e he).1
      rw [nullRows_other hother, nullRows_other hother] at hvalue
      exact hne (Option.some.inj hvalue)
    obtain ⟨e, he⟩ := List.exists_mem_of_ne_nil _ keys.exprs_ne
    have hcolocated : keys.m_fNullsColocated = true :=
      (hagree e he).2.resolve_right fun hne => hne (nullRows_required (hrequired e he) r)
    exact h ⟨keys, hkeys, hcolocated, hrequired⟩
  have hsegment := hsound Bool Bool Bool (nullRows ops pds pdsRequired) id consistent_nullRows
    hchain false true fun e he => by
      have hrequired : Required ops pds pdsRequired e := required_of_mem List.mem_cons_self he
      rw [nullRows_required hrequired, nullRows_required hrequired]
      exact ⟨rfl, .inl hnulls⟩
  exact Bool.false_ne_true hsegment

/-- **A hashed spec that satisfies another one keeps the rows together that the other one wants
together, exactly when the NULLs are covered.** -/
theorem sound_of_fSatisfies_iff (ops : ScalarOperators Op)
    (pds pdsRequired : CDistributionSpecHashed Op) :
    (FSatisfies ops pds pdsRequired = true → Sound ops pds pdsRequired) ↔
      NullsCovered ops pds pdsRequired := by
  rw [fSatisfies_iff]
  constructor
  · intro hsound
    by_contra hcovered
    simp only [NullsCovered, not_or, not_not, Bool.not_eq_false] at hcovered
    obtain ⟨hnulls, hkeys, hmatch⟩ := hcovered
    exact not_sound hnulls hkeys (hsound (.inl (.inr hmatch)))
  · rintro (hnulls | ⟨keys, hkeys, hcolocated, hrequired⟩ | hmatch)
    · rintro ((hhead | hequivalent) | hsubset)
      · exact sound_of_head (.inl hhead)
      · exact sound_of_equivalent hnulls hequivalent
      · exact sound_of_head (.inr hsubset)
    · exact fun _ => sound_of_required hkeys hcolocated hrequired
    · rintro ((hhead | hequivalent) | hsubset)
      · exact sound_of_head (.inl hhead)
      · exact absurd hequivalent hmatch
      · exact sound_of_head (.inr hsubset)

/-- Hashed on one column. -/
def onColumn (colref : ℕ) (fNullsColocated : Bool) : HashedKeys ℕ :=
  .new [.node colref []] fNullsColocated (by simp)

/-- Column 1 with NULLs co-located, or equivalently column 2, is asked for. A spec on column 2 that
does not co-locate NULLs satisfies it. -/
theorem not_sound_equivalentAsked :
    ¬∀ pds pdsRequired : CDistributionSpecHashed ℕ,
      FSatisfies .columns pds pdsRequired = true → Sound .columns pds pdsRequired := by
  intro hall
  refine not_sound rfl ?_ (hall (.single (onColumn 2 false))
    (.withEquiv (onColumn 1 true) (.single (onColumn 2 true))) (by decide +kernel))
  rintro ⟨keys, hkeys, hcolocated, -⟩
  rw [chain_single, List.mem_singleton] at hkeys
  subst hkeys
  exact Bool.false_ne_true hcolocated

end CDistributionSpecHashed

end BossOptimizer

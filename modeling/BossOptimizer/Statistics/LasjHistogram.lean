import BossOptimizer.Statistics.BucketValues
import Mathlib.Algebra.Order.BigOperators.Group.List

/-!
# Anti-semi joins of histograms

The sweep takes a new bucket of the second histogram in every round, and drops the one before even
where it reaches into buckets of the first histogram that come later. It also loses end points that
two buckets share, and what is left of the last bucket of the first histogram. Where none of this
happens, the result covers what only the first histogram covers. It is always in ascending order,
and the parts of a bucket have at most its frequency.
-/

namespace BossOptimizer.CHistogram

open CBucket

variable {P : Type} [StatsMappable P] {v : P}

/-! ## What the sweep covers -/

/-- The sweep neither keeps a value of a bucket that it has dropped, nor loses one that no bucket of
    the second histogram has. -/
def SweepKeeps (dropped : List (CBucket P)) (upper_split_bucket : Option (CBucket P)) :
    List (CBucket P) → List (CBucket P) → Prop
  | buckets1, [] =>
    -- What is left of the first histogram has no value of a dropped bucket.
    ∀ v, Covered (upper_split_bucket.toList ++ buckets1) v → ¬Covered dropped v
  | [], bucket2 :: buckets2 =>
    -- An upper split that is left lies in buckets of the second histogram.
    ∀ v, Covered upper_split_bucket.toList v → Covered (dropped ++ bucket2 :: buckets2) v
  | bucket1 :: buckets1, bucket2 :: buckets2 =>
    match upper_split_bucket with
    | some candidate_bucket =>
      KeepsSplit dropped candidate_bucket bucket2 buckets2 ∧
        SweepKeeps (dropped ++ [bucket2]) (candidate_bucket.Difference bucket2).2
          (bucket1 :: buckets1) buckets2
    | none =>
      KeepsSplit dropped bucket1 bucket2 buckets2 ∧
        SweepKeeps (dropped ++ [bucket2]) (bucket1.Difference bucket2).2 buckets1 buckets2
where
  /-- In one round: the values before the other bucket are in no dropped one, and an end point that
      is lost is in another bucket. -/
  KeepsSplit (dropped : List (CBucket P)) (candidate_bucket bucket2 : CBucket P)
      (buckets2 : List (CBucket P)) : Prop :=
    ∀ v, (candidate_bucket.Contains v = true → bucket2.IsBeforePoint v = true →
        ¬candidate_bucket.LostEnd bucket2 v → ¬Covered dropped v) ∧
      (candidate_bucket.LostEnd bucket2 v → Covered (dropped ++ buckets2) v)

/-! ### One round -/

variable {candidate_bucket bucket2 : CBucket P} {buckets1 buckets2 dropped : List (CBucket P)}

/-- The upper split takes the place of the candidate. -/
theorem WellFormed.difference (h1 : WellFormed (candidate_bucket :: buckets1))
    (h2 : bucket2.WellFormed) :
    WellFormed ((candidate_bucket.Difference bucket2).2.toList ++ buckets1) := by
  cases hsplit : (candidate_bucket.Difference bucket2).2 with
  | none => exact h1.tail
  | some bucket =>
    have hwf := (h1.head.difference_snd_wellFormed h2 hsplit).1
    refine ⟨List.forall_mem_cons.2 ⟨hwf, h1.tail.bucket⟩, List.pairwise_cons.2 ⟨?_, h1.tail.ordered⟩⟩
    intro bucket' hmem
    have hbefore := h1.before hmem
    rw [hwf.isBefore_iff (h1.tail.bucket bucket' hmem)]
    rcases h1.head.difference_snd h2 hsplit with ⟨rfl, -⟩ | ⟨-, -, -, f, d, rfl, -⟩
    · exact hbefore
    · exact hbefore

theorem covered_of_covered_difference_snd (h1 : candidate_bucket.WellFormed)
    (h2 : bucket2.WellFormed) (hv : Covered (candidate_bucket.Difference bucket2).2.toList v) :
    candidate_bucket.Contains v = true :=
  ((h1.covered_difference_snd h2).1 hv).1

/-- The rest of a sweep, with what the candidate keeps in this round. -/
theorem covered_round_iff {rest : List (CBucket P)} (h1 : WellFormed (candidate_bucket :: buckets1))
    (h2 : WellFormed (bucket2 :: buckets2))
    (hrest : ∀ v, Covered rest v →
      Covered ((candidate_bucket.Difference bucket2).2.toList ++ buckets1) v) :
    (∀ v, Covered ((candidate_bucket.Difference bucket2).1.toList ++ rest) v ↔
      Covered (candidate_bucket :: buckets1) v ∧ ¬Covered (dropped ++ bucket2 :: buckets2) v) ↔
    SweepKeeps.KeepsSplit dropped candidate_bucket bucket2 buckets2 ∧
      ∀ v, Covered rest v ↔
        Covered ((candidate_bucket.Difference bucket2).2.toList ++ buckets1) v ∧
          ¬Covered ((dropped ++ [bucket2]) ++ buckets2) v := by
  rw [SweepKeeps.KeepsSplit, ← forall_and]
  refine forall_congr' fun v => ?_
  have hlower := h1.head.covered_difference_fst (v := v) h2.head
  have hupper := h1.head.covered_difference_snd (v := v) h2.head
  have hlost : candidate_bucket.LostEnd bucket2 v →
      candidate_bucket.Contains v = true ∧ ¬bucket2.Contains v = true := fun hlost =>
    ⟨((h1.head.lostEnd_iff h2.head).1 hlost).2.2.1, ((h1.head.lostEnd_iff h2.head).1 hlost).2.2.2.1⟩
  have hside := h2.head.aboveLower_or_belowUpper v
  have hcontains := h2.head.contains_iff (v := v)
  have hnot1 : candidate_bucket.Contains v = true → ¬Covered buckets1 v := fun hv =>
    h1.not_covered (h1.head.contains_iff.1 hv).2
  have hnot2 : bucket2.BelowUpper v → ¬Covered buckets2 v := h2.not_covered
  have hrest := hrest v
  rw [isBeforePoint_iff] at hlower ⊢
  rw [isAfterPoint_iff] at hupper
  simp only [covered_append, covered_cons, covered_nil, or_false] at hrest hlower hupper ⊢
  grind

theorem covered_of_covered_round {rest : List (CBucket P)}
    (h1 : WellFormed (candidate_bucket :: buckets1)) (h2 : bucket2.WellFormed)
    (hrest : Covered rest v →
      Covered ((candidate_bucket.Difference bucket2).2.toList ++ buckets1) v)
    (hv : Covered ((candidate_bucket.Difference bucket2).1.toList ++ rest) v) :
    Covered (candidate_bucket :: buckets1) v := by
  rw [covered_append] at hv hrest
  rw [covered_cons]
  rcases hv with hlower | hv
  · exact .inl ((h1.head.covered_difference_fst h2).1 hlower).1
  · exact (hrest hv).imp_left fun hupper => ((h1.head.covered_difference_snd h2).1 hupper).1

/-! ### All rounds -/

/-- The sweep only returns parts of buckets of the first histogram. -/
theorem covered_of_covered_lasjBuckets (upper_split_bucket : Option (CBucket P))
    (buckets1 buckets2 : List (CBucket P))
    (h1 : WellFormed (upper_split_bucket.toList ++ buckets1)) (h2 : WellFormed buckets2)
    (hv : Covered (lasjBuckets upper_split_bucket buckets1 buckets2) v) :
    Covered (upper_split_bucket.toList ++ buckets1) v := by
  fun_induction lasjBuckets upper_split_bucket buckets1 buckets2 with
  | case1 => exact hv
  | case2 => exact absurd hv covered_nil
  | case3 bucket1 buckets1 bucket2 buckets2 candidate_bucket ih =>
    exact covered_of_covered_round h1 h2.head
      (ih (h1.difference h2.head) h2.tail) hv
  | case4 bucket1 buckets1 bucket2 buckets2 ih =>
    exact covered_of_covered_round h1 h2.head (ih (h1.difference h2.head) h2.tail) hv

/-- **The sweep covers exactly what only the first histogram does where no value is kept or lost by
mistake.** -/
theorem covered_lasjBuckets_iff (upper_split_bucket : Option (CBucket P))
    (buckets1 buckets2 dropped : List (CBucket P))
    (h1 : WellFormed (upper_split_bucket.toList ++ buckets1)) (h2 : WellFormed buckets2) :
    (∀ v, Covered (lasjBuckets upper_split_bucket buckets1 buckets2) v ↔
      Covered (upper_split_bucket.toList ++ buckets1) v ∧ ¬Covered (dropped ++ buckets2) v) ↔
      SweepKeeps dropped upper_split_bucket buckets1 buckets2 := by
  fun_induction lasjBuckets upper_split_bucket buckets1 buckets2 generalizing dropped with
  | case1 upper_split_bucket buckets1 =>
    rw [SweepKeeps, List.append_nil]
    exact forall_congr' fun v => iff_self_and
  | case2 upper_split_bucket bucket2 buckets2 =>
    rw [SweepKeeps, List.append_nil]
    refine forall_congr' fun v => ?_
    rw [iff_false_left covered_nil, not_and, not_not]
  | case3 bucket1 buckets1 bucket2 buckets2 candidate_bucket ih
  | case4 bucket1 buckets1 bucket2 buckets2 ih =>
    have hwf := h1.difference h2.head
    rw [SweepKeeps, ← ih _ hwf h2.tail]
    exact covered_round_iff h1 h2 fun v hv => covered_of_covered_lasjBuckets _ _ _ hwf h2.tail hv

/-! ## Order and frequencies -/

/-- The parts cut from one bucket. -/
def PartsOf (bucket : CBucket P) (parts : List (CBucket P)) : Prop :=
  (∀ part ∈ parts, ∀ v, part.Contains v = true → bucket.Contains v = true) ∧
    (parts.map m_frequency).sum ≤ bucket.m_frequency

/-- Order and frequencies of the buckets cut from some buckets. -/
structure Cuts (buckets result : List (CBucket P)) : Prop where
  wellFormed : WellFormed result
  parts : ∃ parts : List (List (CBucket P)), parts.flatten = result ∧
    List.Forall₂ PartsOf buckets parts

/-- In one round: what comes after the candidate comes after the lower split. -/
theorem not_begins_round {lower : CBucket P} (h1 : WellFormed (candidate_bucket :: buckets1))
    (h2 : bucket2.WellFormed) (hlower : (candidate_bucket.Difference bucket2).1 = some lower) :
    ∀ bucket ∈ (candidate_bucket.Difference bucket2).2.toList ++ buckets1, ¬bucket.Begins lower := by
  intro bucket hmem
  rcases List.mem_append.1 hmem with hupper | hmem
  · exact h1.head.difference_not_begins h2 hlower (Option.mem_toList.1 hupper)
  · exact fun hbegins =>
      h1.before hmem ((h1.head.difference_fst_begins h2 hlower).2 hbegins)

/-- What does not begin before the end of a bucket is cut into parts that do not either. -/
theorem not_begins_lasjBuckets {other : CBucket P} (upper_split_bucket : Option (CBucket P))
    (buckets1 buckets2 : List (CBucket P))
    (h1 : WellFormed (upper_split_bucket.toList ++ buckets1)) (h2 : WellFormed buckets2)
    (hother : ∀ bucket ∈ upper_split_bucket.toList ++ buckets1, ¬bucket.Begins other) :
    ∀ bucket ∈ lasjBuckets upper_split_bucket buckets1 buckets2, ¬bucket.Begins other := by
  have hround : ∀ {candidate_bucket bucket2 : CBucket P} {buckets1 rest : List (CBucket P)},
      WellFormed (candidate_bucket :: buckets1) → bucket2.WellFormed →
      (∀ bucket ∈ candidate_bucket :: buckets1, ¬bucket.Begins other) →
      ((∀ bucket ∈ (candidate_bucket.Difference bucket2).2.toList ++ buckets1,
        ¬bucket.Begins other) → ∀ bucket ∈ rest, ¬bucket.Begins other) →
      ∀ bucket ∈ (candidate_bucket.Difference bucket2).1.toList ++ rest, ¬bucket.Begins other := by
    intro candidate_bucket bucket2 buckets1 rest h1 h2 hother hrest bucket hmem
    have hcandidate := hother candidate_bucket List.mem_cons_self
    rcases List.mem_append.1 hmem with hlower | hmem
    · exact fun hbegins => hcandidate
        ((h1.head.difference_fst_begins h2 (Option.mem_toList.1 hlower)).1.1 hbegins)
    · refine hrest (fun bucket' hmem' => ?_) bucket hmem
      rcases List.mem_append.1 hmem' with hupper | hmem'
      · exact fun hbegins => hcandidate
          ((h1.head.difference_snd_begins h2 (Option.mem_toList.1 hupper)).1 hbegins)
      · exact hother bucket' (List.mem_cons_of_mem _ hmem')
  fun_induction lasjBuckets upper_split_bucket buckets1 buckets2 with
  | case1 => exact hother
  | case2 => nofun
  | case3 bucket1 buckets1 bucket2 buckets2 candidate_bucket ih
  | case4 bucket1 buckets1 bucket2 buckets2 ih =>
    exact hround h1 h2.head hother (ih (h1.difference h2.head) h2.tail)

/-- The lower split in front of the rest of a sweep. -/
theorem WellFormed.round {rest : List (CBucket P)} (h1 : WellFormed (candidate_bucket :: buckets1))
    (h2 : bucket2.WellFormed) (hwf : WellFormed rest)
    (hrest : ∀ other : CBucket P,
      (∀ bucket ∈ (candidate_bucket.Difference bucket2).2.toList ++ buckets1,
        ¬bucket.Begins other) → ∀ bucket ∈ rest, ¬bucket.Begins other) :
    WellFormed ((candidate_bucket.Difference bucket2).1.toList ++ rest) := by
  cases hsplit : (candidate_bucket.Difference bucket2).1 with
  | none => exact hwf
  | some lower =>
    have hlower := (h1.head.difference_fst_wellFormed h2 hsplit).1
    refine ⟨List.forall_mem_cons.2 ⟨hlower, hwf.bucket⟩,
      List.pairwise_cons.2 ⟨fun bucket hmem => ?_, hwf.ordered⟩⟩
    rw [hlower.isBefore_iff (hwf.bucket bucket hmem)]
    exact hrest lower (not_begins_round h1 h2 hsplit) bucket hmem

/-- **The buckets of the result are in order.** -/
theorem wellFormed_lasjBuckets (upper_split_bucket : Option (CBucket P))
    (buckets1 buckets2 : List (CBucket P))
    (h1 : WellFormed (upper_split_bucket.toList ++ buckets1)) (h2 : WellFormed buckets2) :
    WellFormed (lasjBuckets upper_split_bucket buckets1 buckets2) := by
  fun_induction lasjBuckets upper_split_bucket buckets1 buckets2 with
  | case1 => exact h1
  | case2 => exact ⟨nofun, .nil⟩
  | case3 bucket1 buckets1 bucket2 buckets2 candidate_bucket ih
  | case4 bucket1 buckets1 bucket2 buckets2 ih =>
    have hwf := h1.difference h2.head
    exact h1.round h2.head (ih hwf h2.tail)
      fun other => not_begins_lasjBuckets _ _ _ hwf h2.tail

theorem partsOf_self (bucket : CBucket P) : PartsOf bucket [bucket] :=
  ⟨fun _ hmem _ hv => List.mem_singleton.1 hmem ▸ hv, by simp⟩

theorem partsOf_nil {bucket : CBucket P} (h : bucket.WellFormed) : PartsOf bucket [] :=
  ⟨nofun, h.frequency_nonneg⟩

/-- The lower split joins the parts of the upper one. -/
theorem PartsOf.difference {upper : CBucket P} {parts : List (CBucket P)}
    (h1 : candidate_bucket.WellFormed) (h2 : bucket2.WellFormed)
    (hupper : (candidate_bucket.Difference bucket2).2 = some upper) (h : PartsOf upper parts) :
    PartsOf candidate_bucket ((candidate_bucket.Difference bucket2).1.toList ++ parts) := by
  have hfrequency := h1.frequency_difference_le h2
  rw [hupper] at hfrequency
  have hsum : ([upper].map m_frequency).sum = upper.m_frequency := by simp
  refine ⟨fun part hmem v hv => ?_, ?_⟩
  · rcases List.mem_append.1 hmem with hlower | hmem
    · exact ((h1.covered_difference_fst h2).1 ⟨part, hlower, hv⟩).1
    · refine covered_of_covered_difference_snd h1 h2 ⟨upper, ?_, h.1 part hmem v hv⟩
      exact Option.mem_toList.2 hupper
  · rw [List.map_append, List.sum_append]
    exact (add_le_add_right (h.2.trans_eq hsum.symm) _).trans hfrequency

/-- The lower split of a bucket without an upper one. -/
theorem partsOf_difference_fst (h1 : candidate_bucket.WellFormed) (h2 : bucket2.WellFormed)
    (hupper : (candidate_bucket.Difference bucket2).2 = none) :
    PartsOf candidate_bucket (candidate_bucket.Difference bucket2).1.toList := by
  have hfrequency := h1.frequency_difference_le h2
  rw [hupper, Option.toList_none, List.map_nil, List.sum_nil, add_zero] at hfrequency
  exact ⟨fun part hmem v hv => ((h1.covered_difference_fst h2).1 ⟨part, hmem, hv⟩).1, hfrequency⟩

theorem parts_round {rest : List (CBucket P)} (h1 : WellFormed (candidate_bucket :: buckets1))
    (h2 : bucket2.WellFormed)
    (h : ∃ parts : List (List (CBucket P)), parts.flatten = rest ∧
      List.Forall₂ PartsOf ((candidate_bucket.Difference bucket2).2.toList ++ buckets1) parts) :
    ∃ parts : List (List (CBucket P)),
      parts.flatten = (candidate_bucket.Difference bucket2).1.toList ++ rest ∧
        List.Forall₂ PartsOf (candidate_bucket :: buckets1) parts := by
  obtain ⟨parts, rfl, hparts⟩ := h
  cases hupper : (candidate_bucket.Difference bucket2).2 with
  | none =>
    rw [hupper] at hparts
    exact ⟨_ :: parts, List.flatten_cons,
      .cons (partsOf_difference_fst h1.head h2 hupper) hparts⟩
  | some upper =>
    rw [hupper] at hparts
    obtain ⟨part, parts', hpart, hparts', rfl⟩ := List.forall₂_cons_left_iff.1 hparts
    exact ⟨(_ ++ part) :: parts', by rw [List.flatten_cons, List.append_assoc]; rfl,
      .cons (hpart.difference h1.head h2 hupper) hparts'⟩

/-- **The parts of a bucket have at most its frequency.** -/
theorem cuts_lasjBuckets (upper_split_bucket : Option (CBucket P))
    (buckets1 buckets2 : List (CBucket P))
    (h1 : WellFormed (upper_split_bucket.toList ++ buckets1)) (h2 : WellFormed buckets2) :
    Cuts (upper_split_bucket.toList ++ buckets1)
      (lasjBuckets upper_split_bucket buckets1 buckets2) := by
  refine ⟨wellFormed_lasjBuckets _ _ _ h1 h2, ?_⟩
  fun_induction lasjBuckets upper_split_bucket buckets1 buckets2 with
  | case1 upper_split_bucket buckets1 =>
    refine ⟨(upper_split_bucket.toList ++ buckets1).map ([·]), ?_, ?_⟩
    · rw [← List.flatMap_def, List.flatMap_singleton']
    · exact List.forall₂_map_right_iff.2 (List.forall₂_same.2 fun bucket _ => partsOf_self bucket)
  | case2 upper_split_bucket bucket2 buckets2 =>
    refine ⟨(upper_split_bucket.toList ++ []).map fun _ => [], ?_, ?_⟩
    · simp
    · exact List.forall₂_map_right_iff.2
        (List.forall₂_same.2 fun bucket hmem => partsOf_nil (h1.bucket bucket hmem))
  | case3 bucket1 buckets1 bucket2 buckets2 candidate_bucket ih
  | case4 bucket1 buckets1 bucket2 buckets2 ih =>
    exact parts_round h1 h2.head (ih (h1.difference h2.head) h2.tail)

/-! ## The histogram -/

/-- The anti-semi join of two histograms covers what only the first one covers, in order, and cuts
    no bucket into more than its frequency. -/
def IsLASJ (histogram other result : CHistogram P) : Prop :=
  (∀ v, Covered result.m_histogram_buckets v ↔
    Covered histogram.m_histogram_buckets v ∧ ¬Covered other.m_histogram_buckets v) ∧
  Cuts histogram.m_histogram_buckets result.m_histogram_buckets

end BossOptimizer.CHistogram

import BossOptimizer.Base.CPartIndexMap

/-!
# Counting propagators

Maps are combined in some bracketing and order. Seen from one scan id, the consumer's map meets the
other maps one after the other, and what it meets are not propagators but maps: a map that stands
for two propagators is met once. What becomes of the consumer depends on these meetings alone, and
a resolver stays one only as the first argument.
-/

namespace BossOptimizer

namespace CPartIndexMap

/-- A way of combining maps pairwise. -/
inductive Combination where
  | map (pim : CPartIndexMap)
  | combine (fst snd : Combination)

namespace Combination

/-- The resulting map. -/
def ppim : Combination → CPartIndexMap
  | map pim => pim
  | combine fst snd => PpimCombine fst.ppim snd.ppim

variable (scan_id : ℕ)

/-- The entries of the combined maps for a scan id. -/
def entries : Combination → List CPartTableInfo
  | map pim => (pim.PptiLookup scan_id).toList
  | combine fst snd => fst.entries ++ snd.entries

/-- The entries that are not propagators. -/
def others (this : Combination) : List CPartTableInfo :=
  (this.entries scan_id).filter (·.m_epim ≠ .propagator)

/-- The number of propagators. -/
def propagators (this : Combination) : ℕ := (this.entries scan_id).countP (·.m_epim = .propagator)

/-- There are one consumer, which expects `n` propagators, and `k` propagators. -/
structure Expects (this : Combination) (n k : ℕ) : Prop where
  consumer : ∃ ppti, this.others scan_id = [ppti] ∧ ppti.m_epim = .consumer ∧
    ppti.m_ulPropagators = n
  propagators : this.propagators scan_id = k

/-- The meetings of the map with the consumer, from the inside out: `true` if it is the first
argument. A map without an entry is not met. -/
def meetings : Combination → List Bool
  | map _ => []
  | combine fst snd =>
    if fst.others scan_id ≠ [] then
      fst.meetings ++ if snd.propagators scan_id = 0 then [] else [true]
    else snd.meetings ++ if fst.propagators scan_id = 0 then [] else [false]

end Combination

/-! ## What becomes of a consumer -/

/-- The entry of a consumer, later on. -/
inductive Outcome where
  | consumer (ulExpectedPropagators : ℕ)
  | resolver
  | lost
  deriving DecidableEq

def outcome (ppti : CPartTableInfo) : Outcome :=
  match ppti.m_epim with
  | .consumer => .consumer ppti.m_ulPropagators
  | .resolver => .resolver
  | .propagator => .lost

/-- One meeting, with the map of the outcome as first argument or not. -/
def Outcome.meet : Outcome → Bool → Outcome
  | consumer 0, _ => consumer ulong_max
  | consumer 1, _ => resolver
  | consumer (n + 2), _ => consumer (n + 1)
  | resolver, true => resolver
  | resolver, false => lost
  | lost, _ => lost

attribute [local simp] Outcome.meet in
theorem outcome_resolveConsumer (scan_id n : ℕ) (fFirst : Bool) :
    outcome ⟨scan_id, (resolveConsumer n).1, (resolveConsumer n).2⟩ =
      (Outcome.consumer n).meet fFirst := by
  rcases n with _ | _ | n
  · rfl
  · rfl
  · simp [resolveConsumer, outcome, Outcome.meet]

/-- `ResolvePropagator` on an outcome and a propagator. -/
theorem outcome_resolvedWith (ppti : CPartTableInfo) {propagator : CPartTableInfo}
    (h : propagator.m_epim = .propagator) :
    outcome (resolvedWith (some propagator) ppti) = (outcome ppti).meet true ∧
      outcome (resolvedWith (some ppti) propagator) = (outcome ppti).meet false := by
  obtain ⟨id, epim, n⟩ := ppti
  obtain ⟨id', epim', n'⟩ := propagator
  obtain rfl : epim' = .propagator := h
  cases epim with
  | consumer => exact ⟨outcome_resolveConsumer id n true, outcome_resolveConsumer id' n false⟩
  | resolver => exact ⟨rfl, rfl⟩
  | propagator => exact ⟨rfl, rfl⟩

namespace Combination

variable {scan_id : ℕ}

attribute [local simp] ppim entries meetings in
theorem others_combine (fst snd : Combination) :
    (combine fst snd).others scan_id = fst.others scan_id ++ snd.others scan_id :=
  List.filter_append ..

theorem propagators_combine (fst snd : Combination) :
    (combine fst snd).propagators scan_id = fst.propagators scan_id + snd.propagators scan_id :=
  List.countP_append ..

/-- Propagators alone combine to one propagator, however many there are. -/
theorem lookup_of_others_eq_nil {this : Combination} (h : this.others scan_id = []) :
    (this.propagators scan_id = 0 → this.ppim.PptiLookup scan_id = none) ∧
      (this.propagators scan_id ≠ 0 → ∃ ppti, this.ppim.PptiLookup scan_id = some ppti ∧
        ppti.m_epim = .propagator) := by
  induction this with
  | map pim =>
    rw [others, entries] at h
    rw [propagators, entries, ppim]
    cases hlookup : pim.PptiLookup scan_id with
    | none => simp
    | some ppti =>
      rw [hlookup] at h
      have hepim : ppti.m_epim = .propagator := by simpa using h
      simp [hepim]
  | combine fst snd ihFst ihSnd =>
    rw [others_combine, List.append_eq_nil_iff] at h
    obtain ⟨hfstNone, hfstSome⟩ := ihFst h.1
    obtain ⟨hsndNone, hsndSome⟩ := ihSnd h.2
    rw [propagators_combine, ppim, pptiLookup_ppimCombine]
    by_cases hfst : fst.propagators scan_id = 0
    · rw [hfstNone hfst, hfst, Nat.zero_add]
      exact ⟨hsndNone, hsndSome⟩
    · obtain ⟨ppti, hppti, hepim⟩ := hfstSome hfst
      rw [hppti]
      refine ⟨fun hzero => absurd hzero (by omega), fun _ => ⟨_, rfl, ?_⟩⟩
      by_cases hsnd : snd.propagators scan_id = 0
      · rw [hsndNone hsnd]
        exact hepim
      · obtain ⟨ppti', hppti', hepim'⟩ := hsndSome hsnd
        rw [hppti']
        simp [resolvedWith, ResolvePropagator, hepim, hepim']

/-- **The entry of the consumer is what its meetings make of it.** -/
theorem lookup_of_others_eq {this : Combination} {consumer : CPartTableInfo}
    (h : this.others scan_id = [consumer]) : ∃ ppti, this.ppim.PptiLookup scan_id = some ppti ∧
      outcome ppti = (this.meetings scan_id).foldl Outcome.meet (outcome consumer) := by
  induction this with
  | map pim =>
    rw [others, entries] at h
    rw [ppim]
    cases hlookup : pim.PptiLookup scan_id with
    | none => rw [hlookup] at h; cases h
    | some ppti =>
      rw [hlookup, Option.toList_some] at h
      have hmem : consumer ∈ [ppti].filter (·.m_epim ≠ .propagator) := by rw [h]; simp
      obtain rfl := List.mem_singleton.1 (List.mem_filter.1 hmem).1
      exact ⟨_, rfl, rfl⟩
  | combine fst snd ihFst ihSnd =>
    rw [others_combine, List.append_eq_singleton_iff] at h
    rw [ppim, pptiLookup_ppimCombine, meetings]
    obtain ⟨hfst, hsnd⟩ | ⟨hfst, hsnd⟩ := h
    · obtain ⟨ppti, hppti, hout⟩ := ihSnd hsnd
      obtain ⟨hnone, hsome⟩ := lookup_of_others_eq_nil hfst
      rw [if_neg (not_not.2 hfst), hppti]
      by_cases hzero : fst.propagators scan_id = 0
      · rw [hnone hzero, if_pos hzero, List.append_nil]
        exact ⟨ppti, rfl, hout⟩
      · obtain ⟨propagator, hpropagator, hepim⟩ := hsome hzero
        rw [hpropagator, if_neg hzero, List.foldl_append, ← hout]
        exact ⟨_, rfl, (outcome_resolvedWith ppti hepim).2⟩
    · obtain ⟨ppti, hppti, hout⟩ := ihFst hfst
      obtain ⟨hnone, hsome⟩ := lookup_of_others_eq_nil hsnd
      rw [if_pos (by rw [hfst]; simp), hppti]
      by_cases hzero : snd.propagators scan_id = 0
      · rw [hnone hzero, if_pos hzero, List.append_nil]
        exact ⟨_, rfl, hout⟩
      · obtain ⟨propagator, hpropagator, hepim⟩ := hsome hzero
        rw [hpropagator, if_neg hzero, List.foldl_append, ← hout]
        exact ⟨_, rfl, (outcome_resolvedWith ppti hepim).1⟩

/-- There are at most as many meetings as propagators, and none only without propagators. -/
theorem length_meetings {this : Combination} {consumer : CPartTableInfo}
    (h : this.others scan_id = [consumer]) :
    (this.meetings scan_id).length ≤ this.propagators scan_id ∧
      (this.meetings scan_id = [] → this.propagators scan_id = 0) := by
  induction this with
  | map pim =>
    refine ⟨Nat.zero_le _, fun _ => ?_⟩
    rw [others, entries] at h
    rw [propagators, entries]
    cases hlookup : pim.PptiLookup scan_id with
    | none => rfl
    | some ppti =>
      rw [hlookup, Option.toList_some] at h
      have hmem : consumer ∈ [ppti].filter (·.m_epim ≠ .propagator) := by rw [h]; simp
      obtain ⟨hin, hepim⟩ := List.mem_filter.1 hmem
      rw [List.mem_singleton.1 hin] at hepim
      simpa using hepim
  | combine fst snd ihFst ihSnd =>
    rw [others_combine, List.append_eq_singleton_iff] at h
    rw [meetings, propagators_combine]
    obtain ⟨hfst, hsnd⟩ | ⟨hfst, hsnd⟩ := h
    · obtain ⟨hle, hnil⟩ := ihSnd hsnd
      rw [if_neg (not_not.2 hfst)]
      split
      · next hzero => simpa [hzero] using ⟨hle, hnil⟩
      · simp
        omega
    · obtain ⟨hle, hnil⟩ := ihFst hfst
      rw [if_pos (by rw [hfst]; simp)]
      split
      · next hzero => simpa [hzero] using ⟨hle, hnil⟩
      · simp
        omega

end Combination

/-! ## After all meetings -/

theorem foldl_meet_lost (meetings : List Bool) : meetings.foldl Outcome.meet .lost = .lost := by
  induction meetings with
  | nil => rfl
  | cons fFirst meetings ih => exact ih

/-- A resolver is lost once it is the second argument. -/
theorem foldl_meet_resolver (meetings : List Bool) :
    meetings.foldl Outcome.meet .resolver = if false ∈ meetings then .lost else .resolver := by
  induction meetings with
  | nil => rfl
  | cons fFirst meetings ih =>
    cases fFirst with
    | true => simpa [Outcome.meet] using ih
    | false => simpa [Outcome.meet] using foldl_meet_lost meetings

/-- A consumer that expects propagators counts its meetings and is then resolved. -/
theorem foldl_meet_consumer {n : ℕ} (hn : 0 < n) (meetings : List Bool) :
    meetings.foldl Outcome.meet (.consumer n) =
      if meetings.length < n then .consumer (n - meetings.length)
      else if false ∈ meetings.drop n then .lost else .resolver := by
  induction meetings generalizing n with
  | nil => rw [List.length_nil, if_pos hn]; rfl
  | cons fFirst meetings ih =>
    obtain _ | _ | n := n
    · omega
    · rw [List.foldl_cons, Outcome.meet, foldl_meet_resolver]
      simp
    · rw [List.foldl_cons, Outcome.meet, ih (Nat.succ_pos n)]
      simp only [List.length_cons, List.drop_succ_cons, Nat.add_lt_add_iff_right,
        Nat.add_sub_add_right]

/-- The entry counts `k` propagators for a consumer that expected `n`: it is a resolver if and only
if they are as many as expected, else a consumer of the remaining ones, and any number stays any
number. -/
structure Counted (n k : ℕ) (ppti : CPartTableInfo) : Prop where
  resolver : ppti.m_epim = .resolver ↔ k = n ∧ 0 < n
  consumer : k < n → n ≠ ulong_max → ppti.m_epim = .consumer ∧ ppti.m_ulPropagators = n - k
  anyNumber : n = ulong_max ∨ n = 0 ∧ 0 < k →
    ppti.m_epim = .consumer ∧ ppti.m_ulPropagators = ulong_max

/-- The meetings are as many as they should be for `n` expected propagators and `k` propagators. -/
def Meets (n k : ℕ) (meetings : List Bool) : Prop :=
  if n = ulong_max then k = 0
  else if n = 0 then meetings.length ≤ 1
  else if k ≤ n then meetings.length = k
  else meetings.length < n ∨ false ∈ meetings.drop n

variable {ppti : CPartTableInfo}

theorem outcome_eq_consumer {n : ℕ} :
    outcome ppti = .consumer n ↔ ppti.m_epim = .consumer ∧ ppti.m_ulPropagators = n := by
  obtain ⟨id, epim, ul⟩ := ppti
  cases epim <;> simp [outcome]

theorem outcome_eq_resolver :
    outcome ppti = .resolver ↔ ppti.m_epim = .resolver := by
  obtain ⟨id, epim, ul⟩ := ppti
  cases epim <;> simp [outcome]

variable {meetings : List Bool}

/-- A consumer of any number that meets a propagator is no longer one. -/
theorem foldl_meet_ulong_max (h : meetings ≠ []) :
    meetings.foldl Outcome.meet (.consumer ulong_max) ≠ .consumer ulong_max := by
  have hpos := List.length_pos_iff.2 h
  rw [foldl_meet_consumer (by decide)]
  split
  · simp only [ne_eq, Outcome.consumer.injEq]
    omega
  · split <;> simp

theorem counted_ulong_max_iff {k : ℕ} (hle : meetings.length ≤ k) (hnil : meetings = [] → k = 0)
    (hout : outcome ppti = meetings.foldl Outcome.meet (.consumer ulong_max)) :
    Counted ulong_max k ppti ↔ k = 0 := by
  constructor
  · intro h
    by_contra hk
    refine foldl_meet_ulong_max (fun hmeetings => hk (hnil hmeetings)) ?_
    rw [← hout]
    exact outcome_eq_consumer.2 (h.anyNumber (.inl rfl))
  · rintro rfl
    rw [List.length_eq_zero_iff.1 (Nat.le_zero.1 hle)] at hout
    obtain ⟨hepim, hul⟩ := outcome_eq_consumer.1 hout
    exact ⟨by simp [hepim, ulong_max], fun _ hne => absurd rfl hne, fun _ => ⟨hepim, hul⟩⟩

theorem counted_zero_iff {k : ℕ} (hle : meetings.length ≤ k) (hnil : meetings = [] → k = 0)
    (hout : outcome ppti = meetings.foldl Outcome.meet (.consumer 0)) :
    Counted 0 k ppti ↔ meetings.length ≤ 1 := by
  match meetings with
  | [] =>
    obtain ⟨hepim, -⟩ := outcome_eq_consumer.1 hout
    refine iff_of_true ⟨by simp [hepim], fun hk => absurd hk (by omega), ?_⟩ (by simp)
    rintro (hmax | ⟨-, hk⟩)
    · simp [ulong_max] at hmax
    · exact absurd (hnil rfl) (by omega)
  | [_] =>
    obtain ⟨hepim, hul⟩ := outcome_eq_consumer.1 hout
    exact iff_of_true ⟨by simp [hepim], fun hk => absurd hk (by omega), fun _ => ⟨hepim, hul⟩⟩
      (by simp)
  | _ :: second :: rest =>
    refine iff_of_false (fun h => ?_) (by simp)
    refine foldl_meet_ulong_max (List.cons_ne_nil second rest) ?_
    rw [List.length_cons] at hle
    refine Eq.trans ?_ (outcome_eq_consumer.2 (h.anyNumber (.inr ⟨rfl, by omega⟩)))
    rw [hout]
    rfl

theorem counted_pos_iff {n k : ℕ} (hn : 0 < n) (hmax : n ≠ ulong_max) (hle : meetings.length ≤ k)
    (hout : outcome ppti = meetings.foldl Outcome.meet (.consumer n)) :
    Counted n k ppti ↔
      if k ≤ n then meetings.length = k else meetings.length < n ∨ false ∈ meetings.drop n := by
  rw [foldl_meet_consumer hn] at hout
  have hany : ¬(n = ulong_max ∨ n = 0 ∧ 0 < k) := by omega
  by_cases hlen : meetings.length < n
  · rw [if_pos hlen, outcome_eq_consumer] at hout
    obtain ⟨hepim, hul⟩ := hout
    split
    · -- fewer propagators than expected are left out if some were met together
      constructor
      · intro h
        have hk : k < n := by
          by_contra hge
          have hres := h.resolver.2 ⟨by omega, hn⟩
          rw [hepim] at hres
          cases hres
        have hleft := (h.consumer hk hmax).2
        omega
      · intro hk
        refine ⟨?_, fun _ _ => ⟨hepim, by omega⟩, fun h => absurd h hany⟩
        rw [hepim]
        exact iff_of_false (by simp) (by omega)
    · refine iff_of_true ⟨?_, fun hk => absurd hk (by omega), fun h => absurd h hany⟩ (.inl hlen)
      rw [hepim]
      exact iff_of_false (by simp) (by omega)
  · rw [if_neg hlen] at hout
    by_cases hlost : false ∈ meetings.drop n
    · have hlong : n < meetings.length := by
        have hpos := List.length_pos_of_mem hlost
        rw [List.length_drop] at hpos
        omega
      rw [if_pos hlost] at hout
      rw [if_neg (by omega)]
      refine iff_of_true ⟨?_, fun hk => absurd hk (by omega), fun h => absurd h hany⟩ (.inr hlost)
      rw [← outcome_eq_resolver, hout]
      exact iff_of_false (by simp) (by omega)
    · rw [if_neg hlost, outcome_eq_resolver] at hout
      have hiff : Counted n k ppti ↔ k = n := by
        refine ⟨fun h => (h.resolver.1 hout).1, fun hk => ?_⟩
        exact ⟨iff_of_true hout ⟨hk, hn⟩, fun hlt => absurd hlt (by omega),
          fun h => absurd h hany⟩
      rw [hiff]
      split
      · omega
      · refine iff_of_false (by omega) ?_
        rintro (h | h)
        · exact hlen h
        · exact hlost h

theorem counted_iff {n k : ℕ} (hle : meetings.length ≤ k) (hnil : meetings = [] → k = 0)
    (hout : outcome ppti = meetings.foldl Outcome.meet (.consumer n)) :
    Counted n k ppti ↔ Meets n k meetings := by
  rw [Meets]
  split
  · next hmax =>
    subst hmax
    exact counted_ulong_max_iff hle hnil hout
  · next hmax =>
    split
    · next hzero =>
      subst hzero
      exact counted_zero_iff hle hnil hout
    · next hpos => exact counted_pos_iff (Nat.pos_of_ne_zero hpos) hmax hle hout

/-- **Combined maps count the propagators of a consumer, and their consumers, exactly when the
consumer meets them one by one**: as often as there are propagators, and not more than once if it
expects none. -/
theorem combine_counted_iff (fst snd : Combination) (scan_id n k : ℕ)
    (h : (Combination.combine fst snd).Expects scan_id n k) :
    ((Combination.combine fst snd).ppim.CountersOk ∧
      ∃ ppti, (Combination.combine fst snd).ppim.PptiLookup scan_id = some ppti ∧
        Counted n k ppti) ↔
      Meets n k ((Combination.combine fst snd).meetings scan_id) := by
  obtain ⟨⟨consumer, hothers, hepim, rfl⟩, rfl⟩ := h
  obtain ⟨ppti, hlookup, hout⟩ := Combination.lookup_of_others_eq hothers
  obtain ⟨hle, hnil⟩ := Combination.length_meetings hothers
  rw [outcome_eq_consumer.2 ⟨hepim, rfl⟩] at hout
  rw [← counted_iff hle hnil hout, hlookup]
  have hcounters : (Combination.combine fst snd).ppim.CountersOk := countersOk_ppimCombine _ _
  rw [and_iff_right hcounters]
  constructor
  · rintro ⟨_, ⟨⟩, hcounted⟩
    exact hcounted
  · exact fun hcounted => ⟨ppti, rfl, hcounted⟩

/-- A map with one entry for the scan id 1. -/
def entry (epim : EPartIndexManipulator) (ul : ℕ) : Combination := .map (new.Insert 1 epim ul)

/-- A consumer that expects two propagators meets one after the other. -/
theorem combine_counted_iff_oneByOne : ∃ ppti,
    (Combination.combine (.combine (entry .consumer 2) (entry .propagator 0))
      (entry .propagator 0)).ppim.PptiLookup 1 = some ppti ∧ Counted 2 2 ppti :=
  ((combine_counted_iff (.combine (entry .consumer 2) (entry .propagator 0))
    (entry .propagator 0) 1 2 2 ⟨⟨⟨1, .consumer, 2⟩, by decide +kernel, rfl, rfl⟩, by decide +kernel⟩).2
      (by unfold Meets; decide +kernel)).2

/-- Two propagators that are combined first are met as one: the consumer of two still expects one
more. -/
theorem not_counted_propagatorsFirst :
    let all := Combination.combine (entry .consumer 2)
      (.combine (entry .propagator 0) (entry .propagator 0))
    all.Expects 1 2 2 ∧ all.ppim.PptiLookup 1 = some ⟨1, .consumer, 1⟩ ∧
      ¬Counted 2 2 ⟨1, .consumer, 1⟩ := by
  refine ⟨⟨⟨⟨1, .consumer, 2⟩, by decide +kernel, rfl, rfl⟩, by decide +kernel⟩, by decide +kernel, fun h => ?_⟩
  have hres := h.resolver.2 ⟨rfl, by decide⟩
  cases hres

end CPartIndexMap

end BossOptimizer

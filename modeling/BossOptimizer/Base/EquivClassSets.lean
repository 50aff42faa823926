import BossOptimizer.Lib.DisjointFamilies
import BossOptimizer.Base.ConstraintDerivation

/-!
# Merging and intersecting equivalence classes (CUtils.cpp:2441–2569)

An array of disjoint column sets says which columns are equal. Adding a class to the array absorbs
the classes that it meets; merging two arrays adds the classes of the second one in turn. The
intersection walks the columns of the second array and puts out, for each column not yet put out,
what its class has in common with the class of the column in the first array.
-/

namespace BossOptimizer

open DisjointFamilies

variable {A B : ColRefSets}

/-! ## Merging -/

/-- The loop of `AddEquivClassToArray` in closed form: what the copy absorbs on its way is disjoint
    from the classes still to come, and brings in no other class. -/
theorem addEquivClassLoop_eq (pcrsCopy : List CColRef) {pdrgpcrs : ColRefSets}
    (h : pdrgpcrs.Pairwise List.Disjoint) (pdrgpcrsNew : ColRefSets) :
    addEquivClassLoop pcrsCopy pdrgpcrs pdrgpcrsNew = pdrgpcrsNew ++ absorb pcrsCopy pdrgpcrs := by
  induction pdrgpcrs generalizing pcrsCopy pdrgpcrsNew with
  | nil => simp [addEquivClassLoop, absorb]
  | cons pcrs pdrgpcrs ih =>
    obtain ⟨hpcrs, hrest⟩ := List.pairwise_cons.1 h
    rw [addEquivClassLoop]
    split_ifs with hapart
    · have hpos : apart pcrsCopy pcrs = true := hapart
      rw [ih pcrsCopy hrest]
      simp [absorb, hpos]
    · have hneg : apart pcrsCopy pcrs = false := by simpa [apart] using hapart
      rw [ih (pcrsCopy ++ pcrs) hrest]
      have hsame : ∀ t ∈ pdrgpcrs, apart (pcrsCopy ++ pcrs) t = apart pcrsCopy t := by
        intro t ht
        have hapt : apart pcrs t = true := apart_iff.2 (hpcrs t ht)
        simp only [apart, List.all_append] at hapt ⊢
        rw [hapt, Bool.and_true]
      have hnot : ∀ t ∈ pdrgpcrs, (!apart (pcrsCopy ++ pcrs) t) = !apart pcrsCopy t :=
        fun t ht => congrArg _ (hsame t ht)
      simp only [absorb, List.filter_congr hsame, List.filter_congr hnot, hneg, List.filter_cons,
        Bool.false_eq_true, if_false, Bool.not_false, if_true, List.flatten_cons,
        List.append_assoc]

/-- `AddEquivClassToArray` on an array of disjoint classes. -/
theorem addEquivClassToArray_eq (pcrsNew : List CColRef) (hA : A.Pairwise List.Disjoint) :
    addEquivClassToArray pcrsNew A = absorb pcrsNew A := by
  rw [addEquivClassToArray, addEquivClassLoop_eq pcrsNew hA, List.nil_append]

theorem merge_cons (pcrs : List CColRef) (hA : A.Pairwise List.Disjoint) :
    pdrgpcrsMergeEquivClasses A (pcrs :: B) = pdrgpcrsMergeEquivClasses (absorb pcrs A) B := by
  rw [pdrgpcrsMergeEquivClasses, List.foldl_cons, addEquivClassToArray_eq pcrs hA]
  rfl

/-- Merging keeps the classes disjoint. -/
theorem pairwise_merge (hA : A.Pairwise List.Disjoint) (B : ColRefSets) :
    (pdrgpcrsMergeEquivClasses A B).Pairwise List.Disjoint := by
  induction B generalizing A with
  | nil => exact hA
  | cons pcrs B ih =>
    rw [merge_cons pcrs hA]
    exact ih (pairwise_absorb hA pcrs)

/-- Merging loses no column and adds none. -/
theorem mem_merge (hA : A.Pairwise List.Disjoint) (B : ColRefSets) (colref : CColRef) :
    (∃ pcrs ∈ pdrgpcrsMergeEquivClasses A B, colref ∈ pcrs) ↔ ∃ pcrs ∈ A ++ B, colref ∈ pcrs := by
  induction B generalizing A with
  | nil => rw [List.append_nil]; rfl
  | cons pcrs B ih =>
    rw [merge_cons pcrs hA, ih (pairwise_absorb hA pcrs)]
    simp only [List.mem_append, List.mem_cons, or_and_right, exists_or, exists_eq_left,
      exists_mem_absorb]
    rw [or_comm (a := colref ∈ pcrs), or_assoc]

/-- **Merging connects**: two columns are in one merged class when they are connected by the classes
    of both arrays. -/
theorem together_merge (hA : A.Pairwise List.Disjoint) (B : ColRefSets) (c d : CColRef) :
    Together (pdrgpcrsMergeEquivClasses A B) c d ↔ Connected (A ++ B) c d := by
  induction B generalizing A with
  | nil => rw [List.append_nil]; exact (connected_iff hA).symm
  | cons pcrs B ih =>
    rw [merge_cons pcrs hA, ih (pairwise_absorb hA pcrs),
      connected_append_congr (fun _ _ => together_absorb hA pcrs) B]
    refine connected_congr fun x y => ?_
    simp only [List.cons_append, together_cons, together_append]
    rw [or_left_comm]

/-! ## Intersecting -/

/-- What the probe loop keeps: the sets put out are disjoint, each is a class of the first array
    within one of the second, and the columns done are those put out. -/
structure Probed (A B : ColRefSets) (state : ColRefSets × List CColRef) : Prop where
  disjoint : state.1.Pairwise List.Disjoint
  meet : ∀ pcrs ∈ state.1, pcrs ≠ [] ∧ ∃ a ∈ A, ∃ b ∈ B, ∀ c, c ∈ pcrs ↔ c ∈ b ∧ c ∈ a
  done : ∀ c, c ∈ state.2 ↔ ∃ pcrs ∈ state.1, c ∈ pcrs

/-- One new set: the class of a column that is not done yet. -/
theorem Probed.add {state : ColRefSets × List CColRef} (h : Probed A B state)
    (hA : A.Pairwise List.Disjoint) (hB : B.Pairwise List.Disjoint) {a b : List CColRef}
    (ha : a ∈ A) (hb : b ∈ B) {colref : CColRef} (hca : colref ∈ a) (hcb : colref ∈ b)
    (hnew : colref ∉ state.2) :
    Probed A B (state.1 ++ [b.filter (· ∈ a)], state.2 ++ b.filter (· ∈ a)) := by
  have hmem : ∀ c, c ∈ b.filter (· ∈ a) ↔ c ∈ b ∧ c ∈ a := by simp
  refine ⟨List.pairwise_append.2 ⟨h.disjoint, List.pairwise_singleton _ _, ?_⟩, ?_, ?_⟩
  · intro pcrs hpcrs t ht c hc hct
    rw [List.mem_singleton.1 ht, hmem] at hct
    -- a common column would make the two sets one, which has the new column
    obtain ⟨-, a', ha', b', hb', hiff⟩ := h.meet pcrs hpcrs
    obtain ⟨hcb', hca'⟩ := (hiff c).1 hc
    cases eq_of_mem hA ha ha' hct.2 hca'
    cases eq_of_mem hB hb hb' hct.1 hcb'
    exact hnew ((h.done colref).2 ⟨pcrs, hpcrs, (hiff colref).2 ⟨hcb, hca⟩⟩)
  · intro pcrs hpcrs
    rcases List.mem_append.1 hpcrs with hpcrs | hpcrs
    · exact h.meet pcrs hpcrs
    · rw [List.mem_singleton.1 hpcrs]
      exact ⟨List.ne_nil_of_mem ((hmem colref).2 ⟨hcb, hca⟩), a, ha, b, hb, hmem⟩
  · intro c
    simp only [List.mem_append, List.mem_singleton, h.done c, or_and_right, exists_or,
      exists_eq_left]

/-- The probe loop over columns of one class puts out every one of them that the first array
    covers. -/
theorem intersectProbe_inv (hA : A.Pairwise List.Disjoint) (hB : B.Pairwise List.Disjoint)
    {b : List CColRef} (hb : b ∈ B) {columns : List CColRef} (hcolumns : columns ⊆ b)
    {state : ColRefSets × List CColRef} (h : Probed A B state) :
    Probed A B (intersectProbe A b columns state) ∧
      state.2 ⊆ (intersectProbe A b columns state).2 ∧
      ∀ c ∈ columns, (∃ a ∈ A, c ∈ a) → c ∈ (intersectProbe A b columns state).2 := by
  induction columns generalizing state with
  | nil => exact ⟨h, List.Subset.refl _, by simp⟩
  | cons colref rest ih =>
    obtain ⟨hcb, hrest⟩ := List.cons_subset.1 hcolumns
    obtain ⟨pdrgpcrs, phmcscrDone⟩ := state
    rw [intersectProbe]
    cases hfind : A.find? (colref ∈ ·) with
    | none =>
      obtain ⟨hprobed, hkept, hall⟩ := ih hrest h
      refine ⟨hprobed, hkept, fun c hc hcovered => ?_⟩
      rcases List.mem_cons.1 hc with rfl | hc
      · obtain ⟨a, ha, hca⟩ := hcovered
        exact absurd hca (by simpa using List.find?_eq_none.1 hfind a ha)
      · exact hall c hc hcovered
    | some a =>
      have ha := List.mem_of_find?_eq_some hfind
      have hca : colref ∈ a := by simpa using List.find?_some hfind
      dsimp only
      split_ifs with hdone
      · obtain ⟨hprobed, hkept, hall⟩ := ih hrest h
        refine ⟨hprobed, hkept, fun c hc hcovered => ?_⟩
        rcases List.mem_cons.1 hc with rfl | hc
        · exact hkept hdone
        · exact hall c hc hcovered
      · obtain ⟨hprobed, hkept, hall⟩ := ih hrest (h.add hA hB ha hb hca hcb hdone)
        refine ⟨hprobed, fun c hc => hkept (List.mem_append_left _ hc), fun c hc hcovered => ?_⟩
        rcases List.mem_cons.1 hc with rfl | hc
        · exact hkept (List.mem_append_right _ (by simp [hcb, hca]))
        · exact hall c hc hcovered

/-- The whole probe puts out every column that both arrays cover. -/
theorem intersect_inv (hA : A.Pairwise List.Disjoint) (hB : B.Pairwise List.Disjoint)
    {probed : ColRefSets} (hprobed : probed ⊆ B) {state : ColRefSets × List CColRef}
    (h : Probed A B state) :
    ∃ state', probed.foldl (fun state pcrsSnd =>
        intersectProbe A pcrsSnd (pcrsSnd.insertionSort (·.id ≤ ·.id)) state) state = state' ∧
      Probed A B state' ∧ state.2 ⊆ state'.2 ∧
      ∀ b ∈ probed, ∀ c ∈ b, (∃ a ∈ A, c ∈ a) → c ∈ state'.2 := by
  induction probed generalizing state with
  | nil => exact ⟨state, rfl, h, List.Subset.refl _, by simp⟩
  | cons b probed ih =>
    obtain ⟨hb, hrest⟩ := List.cons_subset.1 hprobed
    have hsorted : ∀ c, c ∈ b.insertionSort (·.id ≤ ·.id) ↔ c ∈ b :=
      fun c => List.mem_insertionSort _
    obtain ⟨hstep, hkept, hall⟩ :=
      intersectProbe_inv hA hB hb (fun c hc => (hsorted c).1 hc) h
    obtain ⟨state', hrun, hinv, hkept', hall'⟩ := ih hrest hstep
    refine ⟨state', hrun, hinv, fun c hc => hkept' (hkept hc), fun b' hb' c hc hcovered => ?_⟩
    rcases List.mem_cons.1 hb' with rfl | hb'
    · exact hkept' (hall c ((hsorted c).2 hc) hcovered)
    · exact hall' b' hb' c hc hcovered

theorem probed_nil : Probed A B ([], []) := ⟨List.Pairwise.nil, by simp, by simp⟩

/-- The result of the probe and what it covers. -/
theorem probed_intersect (hA : A.Pairwise List.Disjoint) (hB : B.Pairwise List.Disjoint) :
    ∃ phmcscrDone, Probed A B (pdrgpcrsIntersectEquivClasses A B, phmcscrDone) ∧
      ∀ b ∈ B, ∀ c ∈ b, (∃ a ∈ A, c ∈ a) → c ∈ phmcscrDone := by
  rw [pdrgpcrsIntersectEquivClasses]
  split_ifs with hempty
  · refine ⟨[], probed_nil, fun b hb c hc ⟨a, ha, hca⟩ => ?_⟩
    rcases Bool.or_eq_true_iff.1 hempty with hnil | hnil
    · rw [List.isEmpty_iff.1 hnil] at hb
      cases hb
    · rw [List.isEmpty_iff.1 hnil] at ha
      cases ha
  · obtain ⟨⟨pdrgpcrs, phmcscrDone⟩, hrun, hinv, -, hall⟩ :=
      intersect_inv hA hB (List.Subset.refl B) probed_nil
    rw [hrun]
    exact ⟨phmcscrDone, hinv, hall⟩

/-- **Intersecting keeps what both arrays have together.** -/
theorem together_intersect (hA : A.Pairwise List.Disjoint) (hB : B.Pairwise List.Disjoint)
    (c d : CColRef) :
    Together (pdrgpcrsIntersectEquivClasses A B) c d ↔ Together A c d ∧ Together B c d := by
  obtain ⟨phmcscrDone, hprobed, hall⟩ := probed_intersect hA hB
  constructor
  · rintro ⟨pcrs, hpcrs, hc, hd⟩
    obtain ⟨-, a, ha, b, hb, hiff⟩ := hprobed.meet pcrs hpcrs
    exact ⟨⟨a, ha, ((hiff c).1 hc).2, ((hiff d).1 hd).2⟩,
      ⟨b, hb, ((hiff c).1 hc).1, ((hiff d).1 hd).1⟩⟩
  · rintro ⟨⟨a, ha, hca, hda⟩, b, hb, hcb, hdb⟩
    obtain ⟨pcrs, hpcrs, hc⟩ := (hprobed.done c).1 (hall b hb c hcb ⟨a, ha, hca⟩)
    obtain ⟨-, a', ha', b', hb', hiff⟩ := hprobed.meet pcrs hpcrs
    cases eq_of_mem hA ha ha' hca ((hiff c).1 hc).2
    cases eq_of_mem hB hb hb' hcb ((hiff c).1 hc).1
    exact ⟨pcrs, hpcrs, hc, (hiff d).2 ⟨hdb, hda⟩⟩

/-- **Merging gives the connected components, intersecting the common refinement**: for arrays of
    disjoint classes both results are disjoint. Two columns are in one merged class when the classes
    of both arrays connect them, and no column is lost; they are in one class of the intersection
    when they are in one class of either array. -/
theorem equivClasses_merge_intersect (A B : ColRefSets) (hA : A.Pairwise List.Disjoint)
    (hB : B.Pairwise List.Disjoint) :
    ((pdrgpcrsMergeEquivClasses A B).Pairwise List.Disjoint ∧
      (∀ c d, Together (pdrgpcrsMergeEquivClasses A B) c d ↔
        Relation.TransGen (fun x y => Together A x y ∨ Together B x y) c d) ∧
      ∀ c, (∃ pcrs ∈ pdrgpcrsMergeEquivClasses A B, c ∈ pcrs) ↔
        (∃ pcrs ∈ A, c ∈ pcrs) ∨ ∃ pcrs ∈ B, c ∈ pcrs) ∧
    (pdrgpcrsIntersectEquivClasses A B).Pairwise List.Disjoint ∧
      ∀ c d, Together (pdrgpcrsIntersectEquivClasses A B) c d ↔
        Together A c d ∧ Together B c d := by
  refine ⟨⟨pairwise_merge hA B, fun c d => ?_, fun c => ?_⟩, ?_, together_intersect hA hB⟩
  · rw [together_merge hA B]
    have hstep : Together (A ++ B) = fun x y => Together A x y ∨ Together B x y := by
      funext x y
      exact propext together_append
    rw [Connected, hstep]
  · rw [mem_merge hA B]
    simp only [List.mem_append, or_and_right, exists_or]
  · obtain ⟨phmcscrDone, hprobed, -⟩ := probed_intersect hA hB
    exact hprobed.disjoint

/-- A class that bridges two others, on three columns. -/
theorem equivClasses_merge_intersect_bridge :
    let a : CColRef := ⟨1, true, true, true⟩
    let b : CColRef := ⟨2, true, true, true⟩
    let c : CColRef := ⟨3, true, true, true⟩
    [[a], [b, c]].Pairwise List.Disjoint ∧ [[a, b]].Pairwise List.Disjoint ∧
      Together (pdrgpcrsMergeEquivClasses [[a], [b, c]] [[a, b]]) a c ∧
      ¬Together (pdrgpcrsIntersectEquivClasses [[a], [b, c]] [[a, b]]) b c := by
  intro a b c
  have hA : [[a], [b, c]].Pairwise List.Disjoint := by simp [List.Disjoint, a, b, c]
  have hB : [[a, b]].Pairwise List.Disjoint := List.pairwise_singleton _ _
  obtain ⟨⟨-, hmerge, -⟩, -, hintersect⟩ :=
    equivClasses_merge_intersect [[a], [b, c]] [[a, b]] hA hB
  refine ⟨hA, hB, (hmerge a c).2 ?_, fun h => ?_⟩
  · have hab : Together [[a, b]] a b := ⟨[a, b], by simp, by simp, by simp⟩
    have hbc : Together [[a], [b, c]] b c := ⟨[b, c], by simp, by simp, by simp⟩
    exact .tail (.single (.inr hab)) (.inl hbc)
  · obtain ⟨t, ht, -, hc⟩ := ((hintersect b c).1 h).2
    rw [List.mem_singleton.1 ht] at hc
    simp [a, b, c] at hc

end BossOptimizer

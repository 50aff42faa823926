import BossOptimizer.Common.HashMapRuns
import BossOptimizer.Base.Range
import Mathlib.Data.Finset.Sort

/-!
# Equivalence classes of columns: `FEquivalanceClassesEqual` (CUtils.cpp:4246)

Arrays of column sets are compared through a hash map from a column to the first set that holds it.
A column is its id and a column set the finite set that its bit set stands for, iterated in the
order of the ids. A set of the second array is looked up by its first column: when it has none, or
none of the first array holds it, the lookup or the comparison works on a NULL pointer.
-/

namespace BossOptimizer

/-- `CColRefSet`, as the ids of its columns. -/
abbrev CColRefSet : Type := Finset ℕ

/-- `PcrAny` (CColRefSet.cpp:97): the first column, NULL if there is none. -/
def CColRefSet.pcrAny (this : CColRefSet) : Option ℕ := (this.sort (· ≤ ·)).head?

namespace CUtils

/-- The keys of `ColRefToColRefSetMap`: a column is hashed in some way and compared by its id. -/
def colRefKeys (HashValue : ℕ → ℕ) : HashKeys ℕ where
  HashFn := HashValue
  EqFn k k' := k == k'
  refl := CHashMap.beq_self_nat
  symm := CHashMap.beq_symm_nat
  trans := CHashMap.beq_trans_nat
  hash_eq k k' h := by rw [beq_iff_eq.1 h]

variable (HashValue : ℕ → ℕ)

/-- The columns of one set are inserted into the map (CUtils.cpp:4261). -/
def insertColumns (pcrs : CColRefSet) (columns : List ℕ) (m : CHashMap ℕ CColRefSet) :
    CHashMap ℕ CColRefSet :=
  columns.foldl (fun m colref => (m.Insert (colRefKeys HashValue) colref (some pcrs)).2) m

/-- The map from the columns of an array of sets (CUtils.cpp:4255). -/
def phmcscrs (pdrgpcrs : List CColRefSet) : CHashMap ℕ CColRefSet :=
  pdrgpcrs.foldl (fun m pcrs => insertColumns HashValue pcrs (pcrs.sort (· ≤ ·)) m) (.new 127)

/-- The loop over the second array (CUtils.cpp:4267). -/
def equalLoop (m : CHashMap ℕ CColRefSet) : List CColRefSet → Except Fault Bool
  | [] => .ok true
  | pcrsSnd :: rest =>
    match pcrsSnd.pcrAny with
    | none => .error .nullDeref -- `Find` hashes the column behind a NULL pointer
    | some colref =>
      match m.Find (colRefKeys HashValue) colref with
      | none => .error .nullDeref -- `Equals` asks for the size of a NULL set
      | some pcrs => if pcrsSnd = pcrs then equalLoop m rest else .ok false

/-- `FEquivalanceClassesEqual` (CUtils.cpp:4246). -/
def fEquivalanceClassesEqual (pdrgpcrsFst pdrgpcrsSnd : List CColRefSet) : Except Fault Bool :=
  if pdrgpcrsFst.length ≠ pdrgpcrsSnd.length then .ok false
  else equalLoop HashValue (phmcscrs HashValue pdrgpcrsFst) pdrgpcrsSnd

/-! ## What the map holds -/

variable {HashValue}

/-- The map stands for a function from columns to sets. -/
def Maps (HashValue : ℕ → ℕ) (m : CHashMap ℕ CColRefSet) (f : ℕ → Option CColRefSet) : Prop :=
  ∃ μ : CHashMap.Spec (colRefKeys HashValue) CColRefSet,
    CHashMap.Represents (colRefKeys HashValue) m μ ∧
      ∀ colref, μ ((colRefKeys HashValue).cls colref) = (f colref).map some

variable {m : CHashMap ℕ CColRefSet} {f : ℕ → Option CColRefSet}

theorem colRefKeys_cls {c c' : ℕ} :
    (colRefKeys HashValue).cls c = (colRefKeys HashValue).cls c' ↔ c = c' := by
  rw [HashKeys.cls_eq]
  exact beq_iff_eq

theorem Maps.find (h : Maps HashValue m f) (colref : ℕ) :
    m.Find (colRefKeys HashValue) colref = f colref := by
  obtain ⟨μ, hm, hμ⟩ := h
  rw [hm.find, hμ]
  cases f colref <;> rfl

/-- An insertion keeps the set that is there. -/
theorem Maps.insert (h : Maps HashValue m f) (pcrs : CColRefSet) (colref : ℕ) :
    (m.Insert (colRefKeys HashValue) colref (some pcrs)).1 = (f colref).isNone ∧
      Maps HashValue (m.Insert (colRefKeys HashValue) colref (some pcrs)).2
        fun c => if c = colref then (f c).or (some pcrs) else f c := by
  obtain ⟨μ, hm, hμ⟩ := h
  have hnull : ∀ key value, CHashMap.Op.insert colref (some pcrs) = .insert key value →
      μ ((colRefKeys HashValue).cls key) ≠ some none := by
    intro key value heq
    rw [CHashMap.Op.insert.injEq] at heq
    rw [← heq.1, hμ]
    cases f colref <;> simp
  obtain ⟨hres, hrep⟩ := hm.call hnull
  refine ⟨?_, _, hrep, fun c => ?_⟩
  · refine hres.trans ?_
    rw [CHashMap.Spec.call, hμ]
    cases f colref <;> rfl
  · rw [CHashMap.Spec.call, hμ]
    dsimp only
    cases hcolref : f colref with
    | some set =>
      rw [if_pos (by simp)]
      dsimp only
      rw [hμ]
      split
      · next heq => rw [heq, hcolref]; rfl
      · rfl
    | none =>
      rw [if_neg (by simp)]
      dsimp only
      by_cases heq : c = colref
      · rw [if_pos heq, CHashMap.Spec.set_of_eq (by rw [heq]), heq, hcolref]
        rfl
      · rw [if_neg heq, CHashMap.Spec.set_of_ne (by rwa [Ne, colRefKeys_cls]), hμ]

theorem Maps.congr (h : Maps HashValue m f) {g : ℕ → Option CColRefSet} (hfg : ∀ c, f c = g c) :
    Maps HashValue m g := by
  rwa [← funext hfg]

theorem Maps.insertColumns (h : Maps HashValue m f) (pcrs : CColRefSet) (columns : List ℕ) :
    Maps HashValue (insertColumns HashValue pcrs columns m)
      fun c => if c ∈ columns then (f c).or (some pcrs) else f c := by
  induction columns generalizing m f with
  | nil => exact h.congr fun c => by simp
  | cons colref columns ih =>
    refine (ih (h.insert pcrs colref).2).congr fun c => ?_
    by_cases hc : c = colref <;> by_cases hmem : c ∈ columns <;> simp [hc, hmem]

/-- The map finds the first set with the column. -/
theorem phmcscrs_maps (HashValue : ℕ → ℕ) (pdrgpcrs : List CColRefSet) :
    Maps HashValue (phmcscrs HashValue pdrgpcrs) fun c => pdrgpcrs.find? (c ∈ ·) := by
  have hfold : ∀ {m : CHashMap ℕ CColRefSet} {f : ℕ → Option CColRefSet}, Maps HashValue m f →
      Maps HashValue (pdrgpcrs.foldl
        (fun m pcrs => insertColumns HashValue pcrs (pcrs.sort (· ≤ ·)) m) m)
        fun c => (f c).or (pdrgpcrs.find? (c ∈ ·)) := by
    induction pdrgpcrs with
    | nil => exact fun h => h.congr fun c => by simp
    | cons pcrs pdrgpcrs ih =>
      intro m f h
      refine (ih (h.insertColumns pcrs _)).congr fun c => ?_
      by_cases hc : c ∈ pcrs <;> simp [hc]
  refine (hfold (f := fun _ => none) ⟨_, .new _ 127, fun _ => rfl⟩).congr fun c => ?_
  rfl

/-! ## The comparison -/

theorem mem_of_pcrAny {pcrs : CColRefSet} {colref : ℕ} (h : pcrs.pcrAny = some colref) :
    colref ∈ pcrs := (Finset.mem_sort (· ≤ ·)).1 (List.mem_of_mem_head? h)

/-- A column is in one set of disjoint ones. -/
theorem eq_of_mem {pdrgpcrs : List CColRefSet} (h : pdrgpcrs.Pairwise Disjoint)
    {s t : CColRefSet} (hs : s ∈ pdrgpcrs) (ht : t ∈ pdrgpcrs) {colref : ℕ} (hcs : colref ∈ s)
    (hct : colref ∈ t) : s = t := by
  by_contra hne
  exact Finset.disjoint_left.1 (h.forall hs ht hne) hcs hct

/-- Disjoint sets that are not empty differ. -/
theorem nodup_of_disjoint {pdrgpcrs : List CColRefSet} (h : pdrgpcrs.Pairwise Disjoint)
    (hne : ∀ s ∈ pdrgpcrs, s ≠ ∅) : pdrgpcrs.Nodup := by
  refine List.Pairwise.imp_of_mem (fun {s t} hs _ hd heq => hne s hs ?_) h
  rw [← heq] at hd
  exact disjoint_self.1 hd

/-- The comparison comes to a decision: each set of the second array up to the first one that is
not in the first array has a first column, which is in some set of the first array. -/
def Decided (pdrgpcrsFst : List CColRefSet) : List CColRefSet → Prop
  | [] => True
  | pcrsSnd :: rest => (∃ colref, pcrsSnd.pcrAny = some colref ∧ ∃ s ∈ pdrgpcrsFst, colref ∈ s) ∧
      (pcrsSnd ∈ pdrgpcrsFst → Decided pdrgpcrsFst rest)

variable {pdrgpcrsFst : List CColRefSet}

/-- One round of the loop, for a set that is looked up. -/
theorem equalLoop_cons (hfst : pdrgpcrsFst.Pairwise Disjoint)
    (hm : Maps HashValue m fun c => pdrgpcrsFst.find? (c ∈ ·)) {pcrsSnd : CColRefSet}
    (rest : List CColRefSet) {colref : ℕ} (hany : pcrsSnd.pcrAny = some colref) {s : CColRefSet}
    (hs : s ∈ pdrgpcrsFst) (hcol : colref ∈ s) :
    equalLoop HashValue m (pcrsSnd :: rest) =
      if pcrsSnd ∈ pdrgpcrsFst then equalLoop HashValue m rest else .ok false := by
  have hfind : pdrgpcrsFst.find? (colref ∈ ·) = some s := by
    cases hfound : pdrgpcrsFst.find? (colref ∈ ·) with
    | none => exact absurd hcol (by simpa using List.find?_eq_none.1 hfound s hs)
    | some t =>
      have hct : colref ∈ t := by simpa using List.find?_some hfound
      rw [eq_of_mem hfst hs (List.mem_of_find?_eq_some hfound) hcol hct]
  have hiff : pcrsSnd = s ↔ pcrsSnd ∈ pdrgpcrsFst :=
    ⟨fun heq => heq ▸ hs, fun hmem => eq_of_mem hfst hmem hs (mem_of_pcrAny hany) hcol⟩
  rw [equalLoop, hany]
  dsimp only
  rw [hm.find, hfind]
  dsimp only
  simp only [hiff]

/-- The loop comes to a result exactly when it is decided, and tells whether all sets are there. -/
theorem equalLoop_iff (hfst : pdrgpcrsFst.Pairwise Disjoint)
    (hm : Maps HashValue m fun c => pdrgpcrsFst.find? (c ∈ ·)) (pdrgpcrsSnd : List CColRefSet) :
    (Decided pdrgpcrsFst pdrgpcrsSnd →
      equalLoop HashValue m pdrgpcrsSnd = .ok (decide (∀ s ∈ pdrgpcrsSnd, s ∈ pdrgpcrsFst))) ∧
    (¬Decided pdrgpcrsFst pdrgpcrsSnd → equalLoop HashValue m pdrgpcrsSnd = .error .nullDeref) := by
  induction pdrgpcrsSnd with
  | nil => exact ⟨fun _ => rfl, fun h => absurd trivial h⟩
  | cons pcrsSnd rest ih =>
    by_cases hlook : ∃ colref, pcrsSnd.pcrAny = some colref ∧ ∃ s ∈ pdrgpcrsFst, colref ∈ s
    · obtain ⟨colref, hany, s, hs, hcol⟩ := id hlook
      rw [equalLoop_cons hfst hm rest hany hs hcol, Decided, and_iff_right hlook]
      by_cases hmem : pcrsSnd ∈ pdrgpcrsFst
      · simpa [hmem] using ih
      · simp [hmem]
    · refine ⟨fun h => absurd h.1 hlook, fun _ => ?_⟩
      rw [equalLoop]
      cases hany : pcrsSnd.pcrAny with
      | none => rfl
      | some colref =>
        dsimp only
        rw [hm.find, List.find?_eq_none.2 fun s hs => by
          simpa using fun hcol => hlook ⟨colref, hany, s, hs, hcol⟩]

theorem ne_empty_of_decided {pdrgpcrsSnd : List CColRefSet}
    (h : Decided pdrgpcrsFst pdrgpcrsSnd) (hall : ∀ s ∈ pdrgpcrsSnd, s ∈ pdrgpcrsFst) :
    ∀ s ∈ pdrgpcrsSnd, s ≠ ∅ := by
  induction pdrgpcrsSnd with
  | nil => simp
  | cons pcrsSnd rest ih =>
    obtain ⟨⟨colref, hany, -⟩, hrest⟩ := h
    rw [List.forall_mem_cons] at hall ⊢
    exact ⟨Finset.ne_empty_of_mem (mem_of_pcrAny hany), ih (hrest hall.1) hall.2⟩

/-- **Two arrays of disjoint column sets are compared right exactly when their lengths differ or
the comparison is decided.** -/
theorem fEquivalanceClassesEqual_iff (HashValue : ℕ → ℕ) (pdrgpcrsFst pdrgpcrsSnd : List CColRefSet)
    (hfst : pdrgpcrsFst.Pairwise Disjoint) (hsnd : pdrgpcrsSnd.Pairwise Disjoint) :
    fEquivalanceClassesEqual HashValue pdrgpcrsFst pdrgpcrsSnd =
        .ok (decide (pdrgpcrsFst.Perm pdrgpcrsSnd)) ↔
      pdrgpcrsFst.length ≠ pdrgpcrsSnd.length ∨ Decided pdrgpcrsFst pdrgpcrsSnd := by
  rw [fEquivalanceClassesEqual]
  by_cases hlen : pdrgpcrsFst.length = pdrgpcrsSnd.length
  · rw [if_neg (not_not.2 hlen)]
    obtain ⟨hok, herror⟩ := equalLoop_iff hfst (phmcscrs_maps HashValue pdrgpcrsFst) pdrgpcrsSnd
    by_cases hdec : Decided pdrgpcrsFst pdrgpcrsSnd
    · refine iff_of_true ?_ (.inr hdec)
      have hperm : (∀ s ∈ pdrgpcrsSnd, s ∈ pdrgpcrsFst) ↔ pdrgpcrsFst.Perm pdrgpcrsSnd := by
        constructor
        · intro hall
          have hnodup := nodup_of_disjoint hsnd (ne_empty_of_decided hdec hall)
          exact ((List.subperm_of_subset hnodup hall).perm_of_length_le hlen.le).symm
        · exact fun hperm s hs => hperm.mem_iff.2 hs
      rw [hok hdec]
      simp only [hperm]
    · refine iff_of_false ?_ (by simp [hlen, hdec])
      rw [herror hdec]
      simp
  · refine iff_of_true ?_ (.inl hlen)
    rw [if_pos hlen, decide_eq_false fun hperm => hlen hperm.length_eq]

/-- Arrays on the same columns: {1, 2} and {3} against {2} and {1, 3}. -/
theorem fEquivalanceClassesEqual_iff_sameColumns :
    fEquivalanceClassesEqual id [{1, 2}, {3}] [{2}, {1, 3}] = .ok false := by
  have hright := (fEquivalanceClassesEqual_iff id [{1, 2}, {3}] [{2}, {1, 3}] (by decide)
    (by decide)).2 (.inr ⟨⟨2, by simp [CColRefSet.pcrAny], {1, 2}, by simp, by simp⟩, fun h => absurd h (by decide)⟩)
  rw [hright]
  decide

/-- The arrays {1} and {2} differ, and the comparison asks a NULL set for its size. -/
theorem fEquivalanceClassesEqual_otherColumn :
    fEquivalanceClassesEqual id [{1}] [{2}] = .error .nullDeref := by
  decide +kernel

/-! ## Disjoint sets -/

end CUtils

end BossOptimizer

import BossOptimizer.Base.IntervalReading

/-!
# The set of the datums of an array: `CDatumSortedSet` (CDatumSortedSet.cpp)

The constructor and the loops of `PcnstrIntervalFromScalarArrayCmp`, read by read: each access to
an array names its index, and one past the end is a fault, as is a use of the previous datum before
there is one. Both come to the lists of `IntervalDerivation`. The constructor reads the first datum
without asking whether there is one, which there is not when every element is NULL.
-/

namespace BossOptimizer

variable {D : Type} [LinearOrder D]

/-- `CDatumSortedSet`: an array of datums, and whether the source array had a NULL. -/
structure CDatumSortedSet (D : Type) where
  datums : List (Datum D)
  m_fIncludesNull : Bool
  deriving DecidableEq

/-- `operator[]`. -/
def elemAt {α : Type} (array : List α) (ul : ℕ) : Except Fault α :=
  match array[ul]? with
  | some elem => .ok elem
  | none => .error .outOfBounds

namespace CDatumSortedSet

/-- The first loop of the constructor (CDatumSortedSet.cpp:27): the datums that are not NULL, and
whether there was a NULL. -/
def collect (aprngdatum : List (Datum D)) (fIncludesNull : Bool) :
    List (Datum D) → List (Datum D) × Bool
  | [] => (aprngdatum, fIncludesNull)
  | datum :: rest =>
    if datum = ⊥ then collect aprngdatum true rest
    else collect (aprngdatum ++ [datum]) fIncludesNull rest

/-- The de-duplication loop (CDatumSortedSet.cpp:44), for the remaining rounds. -/
def deduplicate (aprngdatum : List (Datum D)) :
    ℕ → ℕ → Datum D → List (Datum D) → Except Fault (List (Datum D))
  | 0, _, _, this => .ok this
  | rounds + 1, ul, pdatumPrev, this => do
    let datum ← elemAt aprngdatum ul
    if datum ≠ pdatumPrev then deduplicate aprngdatum rounds (ul + 1) datum (this ++ [datum])
    else deduplicate aprngdatum rounds (ul + 1) pdatumPrev this

/-- The constructor (CDatumSortedSet.cpp:14). -/
def new (pexprArray : List (Datum D)) : Except Fault (CDatumSortedSet D) := do
  let (collected, fIncludesNull) := collect [] false pexprArray
  let aprngdatum := collected.insertionSort (· ≤ ·)
  let pdatumPrev ← elemAt aprngdatum 0
  let datums ← deduplicate aprngdatum (aprngdatum.length - 1) 1 pdatumPrev [pdatumPrev]
  return ⟨datums, fIncludesNull⟩

def FIncludesNull (this : CDatumSortedSet D) : Bool := this.m_fIncludesNull

def Size (this : CDatumSortedSet D) : ℕ := this.datums.length

variable (this : CDatumSortedSet D)

/-- The IN loop (CConstraintInterval.cpp:250), for the remaining rounds. -/
def inLoop : ℕ → ℕ → List (CRange (Datum D)) → Except Fault (List (CRange (Datum D)))
  | 0, _, prgrng => .ok prgrng
  | rounds + 1, ul, prgrng => do
    let datum ← elemAt this.datums ul
    inLoop rounds (ul + 1) (prgrng ++ [CRange.ofCmp .eq datum])

/-- The NOT IN loop (CConstraintInterval.cpp:266) with the range after it, for the remaining
rounds. -/
def notInLoop : ℕ → ℕ → Option (Datum D) → List (CRange (Datum D)) →
    Except Fault (List (CRange (Datum D)))
  | 0, _, pprevdatum, prgrng =>
    match pprevdatum with
    | none => .error .nullDeref
    | some prev => .ok (prgrng ++ [⟨some prev, .excluded, none, .excluded⟩])
  | rounds + 1, ul, pprevdatum, prgrng => do
    if ul ≠ 0 ∧ pprevdatum = none then throw .nullDeref
    let datum ← elemAt this.datums ul
    notInLoop rounds (ul + 1) (some datum)
      (prgrng ++ [⟨pprevdatum, .excluded, some datum, .excluded⟩])

/-- The ranges that `PcnstrIntervalFromScalarArrayCmp` builds (CConstraintInterval.cpp:245). -/
def ranges (cmp_type : ECmpType) : Except Fault (Option (List (CRange (Datum D)))) :=
  match cmp_type with
  | .eq => some <$> this.inLoop this.Size 0 []
  | .neq => some <$> this.notInLoop this.Size 0 none []
  | _ => .ok none

end CDatumSortedSet

/-! ## The reads are those of the lists -/

section Reads

variable {α : Type}

theorem elemAt_eq {array : List α} {ul : ℕ} (h : ul < array.length) :
    elemAt array ul = .ok array[ul] := by
  rw [elemAt, List.getElem?_eq_getElem h]

end Reads

namespace CDatumSortedSet

theorem collect_eq (datums out : List (Datum D)) (fIncludesNull : Bool) :
    collect out fIncludesNull datums =
      (out ++ datums.filter (· ≠ ⊥), fIncludesNull || decide (⊥ ∈ datums)) := by
  induction datums generalizing out fIncludesNull with
  | nil => simp [collect]
  | cons datum rest ih =>
    rw [collect]
    split
    · next hnull =>
      subst hnull
      simp [ih]
    · next hne => simp [ih, hne, Ne.symm hne]

theorem deduplicate_eq {aprngdatum : List (Datum D)} {rounds ul : ℕ} (prev : Datum D)
    (out : List (Datum D)) (h : ul + rounds = aprngdatum.length) :
    deduplicate aprngdatum rounds ul prev out =
      .ok (out ++ CConstraintInterval.dedupSorted prev (aprngdatum.drop ul)) := by
  induction rounds generalizing ul prev out with
  | zero =>
    rw [List.drop_eq_nil_of_le (by omega)]
    simp [deduplicate, CConstraintInterval.dedupSorted]
  | succ rounds ih =>
    have hlt : ul < aprngdatum.length := by omega
    rw [deduplicate, elemAt_eq hlt, List.drop_eq_getElem_cons hlt, CConstraintInterval.dedupSorted]
    rw [ok_bind]
    split
    · rw [ih _ _ (by omega)]
      simp
    · rw [ih _ _ (by omega)]

/-- The constructor builds the list of `datumSortedSet`. -/
theorem new_eq (datums : List (Datum D)) :
    new datums = (CConstraintInterval.datumSortedSet datums).map (⟨·, decide (⊥ ∈ datums)⟩) := by
  rw [new, collect_eq, CConstraintInterval.datumSortedSet]
  dsimp only
  rw [List.nil_append, Bool.false_or]
  cases hsorted : (datums.filter (· ≠ ⊥)).insertionSort (· ≤ ·) with
  | nil => rfl
  | cons first rest =>
    rw [elemAt_eq (by simp), List.getElem_cons_zero, ok_bind,
      deduplicate_eq _ _ (by simp [Nat.add_comm])]
    rfl

omit [LinearOrder D] in
theorem inLoop_eq {this : CDatumSortedSet D} {rounds ul : ℕ} (out : List (CRange (Datum D)))
    (h : ul + rounds = this.Size) :
    this.inLoop rounds ul out = .ok (out ++ (this.datums.drop ul).map (CRange.ofCmp .eq)) := by
  induction rounds generalizing ul out with
  | zero =>
    rw [List.drop_eq_nil_of_le (by rw [Size] at h; omega)]
    simp [inLoop]
  | succ rounds ih =>
    have hlt : ul < this.datums.length := by rw [Size] at h; omega
    rw [inLoop, elemAt_eq hlt, ok_bind, ih _ (by omega), List.drop_eq_getElem_cons hlt,
      List.map_cons, List.append_assoc, List.singleton_append]

omit [LinearOrder D] in
theorem notInLoop_eq {this : CDatumSortedSet D} {rounds ul : ℕ} {prev : Option (Datum D)}
    (out : List (CRange (Datum D))) (h : ul + rounds = this.Size) (hpos : 0 < this.Size)
    (hprev : ul ≠ 0 → prev ≠ none) :
    this.notInLoop rounds ul prev out =
      .ok (out ++ CConstraintInterval.notInRanges prev (this.datums.drop ul)) := by
  induction rounds generalizing ul prev out with
  | zero =>
    obtain ⟨datum, rfl⟩ := Option.ne_none_iff_exists'.1 (hprev (by omega))
    rw [List.drop_eq_nil_of_le (by rw [Size] at h; omega)]
    rfl
  | succ rounds ih =>
    have hlt : ul < this.datums.length := by rw [Size] at h; omega
    rw [notInLoop, if_neg fun hnone => hprev hnone.1 hnone.2, elemAt_eq hlt,
      List.drop_eq_getElem_cons hlt, CConstraintInterval.notInRanges]
    rw [ok_bind]
    rw [ih _ (by omega) (by simp)]
    simp

omit [LinearOrder D] in
/-- The ranges of a set that is not empty are built without a read outside it. -/
theorem ranges_eq {this : CDatumSortedSet D} (hne : this.datums ≠ []) (cmp_type : ECmpType) :
    this.ranges cmp_type = .ok
      (match cmp_type with
      | .eq => some (this.datums.map (CRange.ofCmp .eq))
      | .neq => some (CConstraintInterval.notInRanges none this.datums)
      | _ => none) := by
  have hpos : 0 < this.Size := List.length_pos_of_ne_nil hne
  cases cmp_type with
  | eq => rw [ranges, inLoop_eq [] (Nat.zero_add _)]; rfl
  | neq => rw [ranges, notInLoop_eq [] (Nat.zero_add _) hpos (by simp)]; rfl
  | _ => rfl

/-! ## What the set holds -/

/-- The set holds the distinct datums of the array that are not NULL, in strictly increasing order,
and tells whether there was a NULL. -/
structure Holds (this : CDatumSortedSet D) (datums : List (Datum D)) : Prop where
  increasing : this.datums.Pairwise (· < ·)
  mem : ∀ datum, datum ∈ this.datums ↔ datum ∈ datums ∧ datum ≠ ⊥
  null : this.FIncludesNull = true ↔ ⊥ ∈ datums

theorem new_holds {datums : List (Datum D)} {this : CDatumSortedSet D}
    (h : new datums = .ok this) : this.Holds datums ∧ this.datums ≠ [] := by
  rw [new_eq] at h
  cases hset : CConstraintInterval.datumSortedSet datums with
  | error fault => rw [hset] at h; cases h
  | ok set =>
    rw [hset] at h
    cases h
    obtain ⟨hne, hlt, hmem⟩ := CConstraintInterval.datumSortedSet_spec hset
    exact ⟨⟨hlt, hmem, by simp [FIncludesNull]⟩, hne⟩

theorem new_eq_ok {datums : List (Datum D)} {datum : Datum D} (hmem : datum ∈ datums)
    (hne : datum ≠ ⊥) : ∃ this, new datums = .ok this := by
  have hsorted : datum ∈ (datums.filter (· ≠ ⊥)).insertionSort (· ≤ ·) := by
    simp [List.mem_insertionSort, hmem, hne]
  rw [new_eq, CConstraintInterval.datumSortedSet]
  cases hlist : (datums.filter (· ≠ ⊥)).insertionSort (· ≤ ·) with
  | nil => rw [hlist] at hsorted; cases hsorted
  | cons first rest => exact ⟨_, rfl⟩

/-- **The set is built, right, and walked without a read outside an array exactly when the array
has an element that is not NULL.** -/
theorem new_right_iff (datums : List (Datum D)) :
    (∃ this, new datums = .ok this ∧ this.Holds datums ∧
      ∀ cmp_type, ∃ prgrng, this.ranges cmp_type = .ok prgrng) ↔
      ∃ datum ∈ datums, datum ≠ ⊥ := by
  constructor
  · rintro ⟨this, hnew, hholds, -⟩
    obtain ⟨datum, hmem⟩ := List.exists_mem_of_ne_nil _ (new_holds hnew).2
    exact ⟨datum, (hholds.mem datum).1 hmem⟩
  · rintro ⟨datum, hmem, hne⟩
    obtain ⟨this, hnew⟩ := new_eq_ok hmem hne
    obtain ⟨hholds, hnonempty⟩ := new_holds hnew
    exact ⟨this, hnew, hholds, fun cmp_type => ⟨_, ranges_eq hnonempty cmp_type⟩⟩

/-- An array of NULLs: the first datum is read from an empty array, by the constructor and so by
`PcnstrIntervalFromScalarArrayCmp`. -/
theorem new_allNull : new ([⊥, ⊥] : List (Datum ℤ)) = .error .outOfBounds ∧
    CConstraintInterval.pcnstrIntervalFromScalarArrayCmp ⟨1, true, true, true⟩ .eq
      (.ident ⟨1, true, true, true⟩) false [.const (⊥ : Datum ℤ), .const ⊥] false =
        .error .outOfBounds := by
  decide +kernel

end CDatumSortedSet

end BossOptimizer

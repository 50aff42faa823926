import BossOptimizer.Operators.Scoping

/-!
# Derived not-null columns and keys

`DeriveNotNullColumns` and `DeriveKeyCollection` of the operators. A key collection is a list of
column sets, `none` the NULL pointer; a join takes the first key of each child.

A projection passes the keys of its child on (CLogicalProject.cpp:83), also when its list contains
a set-returning function, for which `CLogicalProject::DeriveMaxCard` gives up.
-/

namespace BossOptimizer

variable {D : Type}

/-- `CKeyCollection`. -/
abbrev CKeyCollection := List (List CColRef)

/-- The loop of `CLogical::PkcCombineKeys` (CLogical.cpp:328): the first key of every child. -/
def firstKeys : List (Option CKeyCollection) → Option (List CColRef)
  | [] => some []
  | pkc :: rest => do
    let key ← pkc.bind List.head?
    return key ++ (← firstKeys rest)

/-- `CLogical::PkcCombineKeys` (CLogical.cpp:328). -/
def pkcCombineKeys (pkcs : List (Option CKeyCollection)) : Option CKeyCollection :=
  (firstKeys pkcs).map ([·])

/-- `CLogical::PkcKeysBaseTable` (CLogical.cpp:359). -/
def pkcKeysBaseTable (pdrgpbsKeys : List (List ℕ)) (pdrgpcrOutput : List CColRef) :
    Option CKeyCollection :=
  if pdrgpbsKeys = [] then none
  else some (pdrgpbsKeys.map fun pbs => pbs.filterMap (pdrgpcrOutput[·]?))

namespace LogicalExpr

mutual

/-- `DeriveNotNullColumns`. -/
def deriveNotNullColumns : LogicalExpr D → List CColRef
  | .get _ out _ => out.filter (!·.isNullable)
  | .constTableGet _ _ => []
  | .select child _ => child.deriveNotNullColumns
  | .project child _ => child.deriveNotNullColumns
  | .gbAgg pdrgpcr child _ => pdrgpcr.filter (· ∈ child.deriveNotNullColumns)
  | .limit _ child _ _ => child.deriveNotNullColumns
  | .setOp _ _ _ _ => []
  | .join .inner left right _ => left.deriveNotNullColumns ++ right.deriveNotNullColumns
  | .join .leftOuter left _ _ => left.deriveNotNullColumns
  | .join .fullOuter _ _ _ => []
  | .naryJoin children idx _ _ => notNullAll idx 0 children

/-- `CLogicalNAryJoin::DeriveNotNullColumns` (CLogicalNAryJoin.cpp:112). -/
def notNullAll (idx : Option (List ℕ)) : ℕ → List (LogicalExpr D) → List CColRef
  | _, [] => []
  | j, e :: es =>
    (if isInnerJoinChild idx j then e.deriveNotNullColumns else []) ++ notNullAll idx (j + 1) es

end

mutual

/-- `DeriveKeyCollection`. -/
def deriveKeyCollection : LogicalExpr D → Option CKeyCollection
  | .get ptabdesc out _ => pkcKeysBaseTable ptabdesc.pdrgpbsKeys out
  | .constTableGet _ _ => none
  | .select child _ => child.deriveKeyCollection
  | .project child _ => child.deriveKeyCollection
  | .gbAgg pdrgpcr _ pexprPrL =>
    if pdrgpcr ≠ [] then some [pdrgpcr]
    else if pexprPrL = [] then none
    else some [pexprPrL.map (·.pcr)]
  | .limit _ child _ _ => child.deriveKeyCollection
  | .setOp op out _ _ =>
    match op with
    | .union | .intersect | .difference => some [out]
    | .unionAll | .intersectAll | .differenceAll => none
  | .join _ left right _ => pkcCombineKeys [left.deriveKeyCollection, right.deriveKeyCollection]
  | .naryJoin children _ _ _ => pkcCombineKeys (keysAll children)

def keysAll : List (LogicalExpr D) → List (Option CKeyCollection)
  | [] => []
  | e :: es => e.deriveKeyCollection :: keysAll es

end

/-! ## The facts of the base tables -/

section

variable [LinearOrder D]

/-- The declared keys, not-null columns and check constraints hold of the rows of a table. A check
    constraint passes unless it is false. -/
structure TableFacts (ex : Execution D) (ptabdesc : CTableDescriptor D)
    (pdrgpcrOutput : List CColRef) : Prop where
  keys : ∀ key ∈ ptabdesc.pdrgpbsKeys, (ex.table ptabdesc.mdid).Pairwise fun vals vals' =>
    ∃ i ∈ key, vals.getD i ⊥ ≠ vals'.getD i ⊥
  notNull : ∀ vals ∈ ex.table ptabdesc.mdid, ∀ i,
    (ptabdesc.pdrgpcoldesc.map (·.isNullable))[i]? = some false → vals.getD i ⊥ ≠ ⊥
  checks : ∀ vals ∈ ex.table ptabdesc.mdid, ∀ env, ∀ check ∈ ptabdesc.checkConstraints,
    CConstraintInterval.satisfied ex.scalars true
      (check (nonSystemColumns ptabdesc pdrgpcrOutput)) (assign pdrgpcrOutput vals env)

def baseFacts (ex : Execution D) : LogicalExpr D → Prop
  | .get ptabdesc out _ => TableFacts ex ptabdesc out
  | _ => True

end

/-! ## Not-null columns -/

theorem mem_notNullAll {idx : Option (List ℕ)} {c : CColRef} {es : List (LogicalExpr D)} {j : ℕ} :
    c ∈ notNullAll idx j es ↔
      ∃ k e, es[k]? = some e ∧ isInnerJoinChild idx (j + k) = true ∧ c ∈ e.deriveNotNullColumns := by
  induction es generalizing j with
  | nil => simp [notNullAll]
  | cons e es ih =>
    rw [notNullAll, List.mem_append, ih]
    constructor
    · rintro (h | ⟨k, e', he', hk, hc⟩)
      · split at h
        · next hj => exact ⟨0, e, rfl, hj, h⟩
        · simp at h
      · exact ⟨k + 1, e', he', by rwa [Nat.add_comm k 1, ← Nat.add_assoc], hc⟩
    · rintro ⟨_ | k, e', he', hk, hc⟩
      · obtain rfl : e = e' := by simpa using he'
        exact .inl (by rwa [if_pos (by simpa using hk)])
      · exact .inr ⟨k, e', he', by rwa [Nat.add_assoc, Nat.add_comm 1 k], hc⟩

theorem deriveNotNullColumns_subset (e : LogicalExpr D) :
    ∀ c ∈ e.deriveNotNullColumns, c ∈ e.colrefs := by
  induction e using LogicalExpr.induction with
  | get => exact fun c hc => List.mem_of_mem_filter hc
  | constTableGet
  | setOp op out input children ih => exact fun c hc => by simp [deriveNotNullColumns] at hc
  | select child p ih | project child l ih => exact fun c hc => .inl (ih c hc)
  | limit id child offset count ih => exact ih
  | gbAgg cols child l ih => exact fun c hc => .inl (.inr (List.mem_of_mem_filter hc))
  | join op left right p ihl ihr =>
    intro c hc
    cases op with
    | inner =>
      rcases List.mem_append.1 hc with hc | hc
      · exact .inl (.inl (ihl c hc))
      · exact .inl (.inr (ihr c hc))
    | leftOuter => exact .inl (.inl (ihl c hc))
    | fullOuter => simp [deriveNotNullColumns] at hc
  | naryJoin children idx preds on ih =>
    intro c hc
    obtain ⟨k, e, he, -, hc⟩ := mem_notNullAll.1 hc
    have hmem := List.mem_of_getElem? he
    exact .inl (.inl (mem_colrefsAll.2 ⟨e, hmem, ih e hmem c hc⟩))

variable [LinearOrder D] {ex : Execution D} {env : Row D}

/-- A table row on a column of the table. -/
theorem assign_notNull {ptabdesc : CTableDescriptor D} {out unused : List CColRef}
    (hs : WellScoped (.get ptabdesc out unused)) (hf : TableFacts ex ptabdesc out)
    {vals : List (Datum D)} (hvals : vals ∈ ex.table ptabdesc.mdid) {c : CColRef} (hc : c ∈ out)
    (hn : c.isNullable = false) : assign out vals env c ≠ ⊥ := by
  obtain ⟨hnd, -, hnull, -⟩ := hs
  obtain ⟨i, hi, rfl⟩ := List.mem_iff_getElem.1 hc
  rw [assign_getElem hnd hi]
  refine hf.notNull vals hvals i ?_
  rw [hnull, List.getElem?_map, List.getElem?_eq_getElem hi, Option.map_some, hn]

/-- **No derived not-null column is NULL** in a row of the expression. -/
theorem deriveNotNullColumns_sound {e : LogicalExpr D} (hs : Everywhere WellScoped e)
    (hf : Everywhere (baseFacts ex) e) :
    ∀ r ∈ e.rows ex env, ∀ c ∈ e.deriveNotNullColumns, r c ≠ ⊥ := by
  induction e using LogicalExpr.induction with
  | get ptabdesc out unused =>
    intro r hr c hc
    obtain ⟨vals, hvals, rfl⟩ := List.mem_map.1 hr
    obtain ⟨hout, hn⟩ := List.mem_filter.1 hc
    exact assign_notNull hs.here hf.here hvals hout (by simpa using hn)
  | constTableGet out data
  | setOp op out input children ih => exact fun r _ c hc => by simp [deriveNotNullColumns] at hc
  | select child p ih =>
    exact fun r hr => ih (hs.child (by simp [children])) (hf.child (by simp [children])) r
      (List.mem_of_mem_filter hr)
  | project child l ih =>
    intro r hr c hc
    obtain ⟨row, hrow, hr⟩ := List.mem_flatMap.1 hr
    obtain ⟨k, -, rfl⟩ := List.mem_map.1 hr
    -- a new column is not a column of the child
    have hnew : c ∉ l.map (·.pcr) := by
      intro hmem
      obtain ⟨el, hel, rfl⟩ := List.mem_map.1 hmem
      exact hs.here.2 el hel (deriveNotNullColumns_subset child _ hc)
    rw [assign_of_notMem hnew]
    exact ih (hs.child (by simp [children])) (hf.child (by simp [children])) row hrow c hc
  | gbAgg cols child l ih =>
    intro r hr c hc
    obtain ⟨hmem, hc⟩ := List.mem_filter.1 hc
    replace hc : c ∈ child.deriveNotNullColumns := by simpa using hc
    have hnew : c ∉ l.map (·.pcr) := by
      intro hmem
      obtain ⟨el, hel, rfl⟩ := List.mem_map.1 hmem
      exact hs.here.2 el hel (deriveNotNullColumns_subset child _ hc)
    rw [rows, gbAggRows, if_neg (List.ne_nil_of_mem hmem)] at hr
    obtain ⟨row, hrow, rfl⟩ := List.mem_map.1 hr
    rw [assign_of_notMem hnew, merge_of_mem hmem]
    exact ih (hs.child (by simp [children])) (hf.child (by simp [children])) row
      ((dedupOn_sublist _ _).subset hrow) c hc
  | limit id child offset count ih =>
    exact fun r hr => ih (hs.child (by simp [children])) (hf.child (by simp [children])) r
      (mem_limit hr)
  | join op left right p ihl ihr =>
    have hsl : Everywhere WellScoped left := hs.child (by simp [children])
    have hsr : Everywhere WellScoped right := hs.child (by simp [children])
    have hleft : ∀ l ∈ left.rows ex env, ∀ s, ∀ c ∈ left.deriveNotNullColumns,
        merge right.rowColumns l s c ≠ ⊥ := by
      intro l hl s c hc
      rw [agree_left hs.here l s c (deriveNotNullColumns_subset left c hc)]
      exact ihl hsl (hf.child (by simp [children])) l hl c hc
    intro r hr c hc
    cases op with
    | inner =>
      obtain ⟨l, hl, s, hsm, -, rfl⟩ | ⟨hop, -⟩ | ⟨hop, -⟩ := mem_joinRows hr
      · rcases List.mem_append.1 hc with hc | hc
        · exact hleft l hl s c hc
        · rw [agree_right hs.here hsl hsr hl hsm c (deriveNotNullColumns_subset right c hc)]
          exact ihr hsr (hf.child (by simp [children])) s hsm c hc
      · exact absurd rfl hop
      · cases hop
    | leftOuter =>
      obtain ⟨l, hl, s, -, -, rfl⟩ | ⟨-, l, hl, rfl⟩ | ⟨hop, -⟩ := mem_joinRows hr
      · exact hleft l hl s c hc
      · exact hleft l hl _ c hc
      · cases hop
    | fullOuter => simp [deriveNotNullColumns] at hc
  | naryJoin es idx preds on ih =>
    intro r hr c hc
    obtain ⟨k, e, he, hk, hc⟩ := mem_notNullAll.1 hc
    rw [Nat.zero_add] at hk
    have hmem := List.mem_of_getElem? he
    obtain ⟨s, hsm, hrs⟩ := agree_naryChild hs hr he hk
    rw [hrs c (deriveNotNullColumns_subset e c hc)]
    exact ih e hmem (hs.child hmem) (hf.child hmem) s hsm c hc

end LogicalExpr

end BossOptimizer

import BossOptimizer.Xforms.XformExpr
import Mathlib.Data.List.GetD

/-!
# Common table expressions that a transformation shares

A transformation that uses a child twice puts a copy of it, with new columns, into a common table
expression and reads that at each place under columns of its own. New columns are numbered in the
order they are made. A copy of an expression with outer references is made of columns that nothing
returns, since the copy renames all columns.
-/

namespace BossOptimizer

variable {D : Type}

/-- Where a transformation does not end in an expression that can be evaluated. -/
inductive CteFault where
  /-- `IndexesOfSubsequence` has returned NULL, which is dereferenced. -/
  | nullArray
  /-- A column that nothing returns. -/
  | unboundColumn
  deriving DecidableEq, Repr

/-! ## New columns -/

/-- `CColumnFactory::PcrCopy`. -/
def CColumnFactory.PcrCopy (m_aul : ℕ) (colref : CColRef) : CColRef := { colref with id := m_aul }

/-- A computed column of the type of another one (`CUtils::PexprScalarProjListConst`,
    CUtils.cpp:2179). -/
def CColumnFactory.PcrCreateOfType (m_aul : ℕ) (colref : CColRef) : CColRef :=
  ⟨m_aul, colref.fConstrainable, false, true⟩

/-- New columns for an array of columns, one after the other. -/
def newColumns (create : ℕ → CColRef → CColRef) : ℕ → List CColRef → List CColRef
  | _, [] => []
  | m_aul, colref :: colref_array => create m_aul colref :: newColumns create (m_aul + 1) colref_array

/-- `CUtils::PdrgpcrCopy` (CUtils.cpp:3450). -/
def PdrgpcrCopy (m_aul : ℕ) (colref_array : List CColRef) : List CColRef :=
  newColumns CColumnFactory.PcrCopy m_aul colref_array

section

variable {create : ℕ → CColRef → CColRef} {m_aul : ℕ} {colref_array : List CColRef}

@[simp] theorem length_newColumns :
    (newColumns create m_aul colref_array).length = colref_array.length := by
  induction colref_array generalizing m_aul with
  | nil => rfl
  | cons colref colref_array ih => simp [newColumns, ih]

@[simp] theorem length_pdrgpcrCopy :
    (PdrgpcrCopy m_aul colref_array).length = colref_array.length := length_newColumns

/-- The new columns have the next numbers. -/
theorem id_newColumns (hcreate : ∀ id colref, (create id colref).id = id) :
    (newColumns create m_aul colref_array).map (·.id) =
      List.range' m_aul colref_array.length := by
  induction colref_array generalizing m_aul with
  | nil => rfl
  | cons colref colref_array ih =>
    simp [newColumns, ih, hcreate, List.range'_succ]

theorem mem_newColumns (hcreate : ∀ id colref, (create id colref).id = id) {c : CColRef}
    (hc : c ∈ newColumns create m_aul colref_array) :
    m_aul ≤ c.id ∧ c.id < m_aul + colref_array.length := by
  have hid : c.id ∈ List.range' m_aul colref_array.length :=
    id_newColumns hcreate ▸ List.mem_map_of_mem hc
  rwa [List.mem_range'_1] at hid

theorem nodup_newColumns (hcreate : ∀ id colref, (create id colref).id = id) :
    (newColumns create m_aul colref_array).Nodup := by
  refine List.Nodup.of_map (·.id) ?_
  rw [id_newColumns hcreate]
  exact List.nodup_range'

theorem pairwise_newColumns (hcreate : ∀ id colref, (create id colref).id = id) :
    (newColumns create m_aul colref_array).Pairwise fun c c' => c.id ≤ c'.id := by
  refine (List.pairwise_map (f := fun c : CColRef => c.id)).1 ?_
  rw [id_newColumns hcreate]
  exact (List.pairwise_lt_range' (s := m_aul)).imp le_of_lt

theorem mem_pdrgpcrCopy {c : CColRef} (hc : c ∈ PdrgpcrCopy m_aul colref_array) :
    m_aul ≤ c.id ∧ c.id < m_aul + colref_array.length :=
  mem_newColumns (fun _ _ => rfl) hc

theorem nodup_pdrgpcrCopy : (PdrgpcrCopy m_aul colref_array).Nodup :=
  nodup_newColumns fun _ _ => rfl

end

/-- `CColRefSet::Pdrgpcr` (CColRefSet.cpp:284): the columns of a set in the order of their ids. -/
def Pdrgpcr (pcrs : List CColRef) : List CColRef :=
  pcrs.dedup.insertionSort fun c c' => c.id ≤ c'.id

variable {c : CColRef}

@[simp] theorem mem_pdrgpcr {pcrs : List CColRef} : c ∈ Pdrgpcr pcrs ↔ c ∈ pcrs := by
  simp [Pdrgpcr]

theorem nodup_pdrgpcr (pcrs : List CColRef) : (Pdrgpcr pcrs).Nodup :=
  (List.perm_insertionSort _ _).nodup_iff.2 pcrs.nodup_dedup

/-- New columns are in the order of their ids. -/
theorem pdrgpcr_newColumns {create : ℕ → CColRef → CColRef} {m_aul : ℕ}
    {colref_array : List CColRef} (hcreate : ∀ id colref, (create id colref).id = id) :
    Pdrgpcr (newColumns create m_aul colref_array) = newColumns create m_aul colref_array := by
  rw [Pdrgpcr, List.dedup_eq_self.2 (nodup_newColumns hcreate)]
  exact (pairwise_newColumns hcreate).insertionSort_eq

/-! ## Mappings -/

/-- `UlongToColRefMap`: columns and what they are mapped to. -/
abbrev ColRefMapping : Type := List (CColRef × CColRef)

/-- `CUtils::PcrRemap` (CUtils.cpp:3227). -/
def PcrRemap (colref_mapping : ColRefMapping) (colref : CColRef) : CColRef :=
  (colref_mapping.lookup colref).getD colref

/-- `CUtils::PdrgpcrRemap` (CUtils.cpp:3274). -/
def PdrgpcrRemap (colref_mapping : ColRefMapping) (colref_array : List CColRef) : List CColRef :=
  colref_array.map (PcrRemap colref_mapping)

theorem pcrRemap_cons (p : CColRef × CColRef) (colref_mapping : ColRefMapping) (c : CColRef) :
    PcrRemap (p :: colref_mapping) c = if c = p.1 then p.2 else PcrRemap colref_mapping c := by
  rw [PcrRemap, List.lookup_cons]
  by_cases h : c = p.1
  · simp [h]
  · rw [if_neg h, beq_false_of_ne h, PcrRemap]

theorem pcrRemap_append_of_mem {l l' : ColRefMapping} (h : c ∈ l.map (·.1)) :
    PcrRemap (l ++ l') c = PcrRemap l c := by
  induction l with
  | nil => cases h
  | cons p l ih =>
    rw [List.cons_append, pcrRemap_cons, pcrRemap_cons]
    split
    · rfl
    · next hne => exact ih (by simpa [hne] using h)

theorem pcrRemap_append_of_notMem {l l' : ColRefMapping} (h : c ∉ l.map (·.1)) :
    PcrRemap (l ++ l') c = PcrRemap l' c := by
  induction l with
  | nil => rfl
  | cons p l ih =>
    rw [List.map_cons, List.mem_cons, not_or] at h
    rw [List.cons_append, pcrRemap_cons, if_neg h.1, ih h.2]

/-- A mapped column is an entry of the mapping. -/
theorem mem_of_mem_map_fst {l : ColRefMapping} (h : c ∈ l.map (·.1)) :
    (c, PcrRemap l c) ∈ l := by
  induction l with
  | nil => cases h
  | cons p l ih =>
    rw [pcrRemap_cons]
    split
    · next heq => exact heq ▸ List.mem_cons_self
    · next hne => exact List.mem_cons_of_mem _ (ih (by simpa [hne] using h))

variable {cols cols' : List CColRef}

/-- A mapping of an array maps the array. -/
theorem map_pcrRemap_zip (hnd : cols.Nodup)
    (hlen : cols.length = cols'.length) : cols.map (PcrRemap (cols.zip cols')) = cols' := by
  induction cols generalizing cols' with
  | nil => simpa using hlen.symm
  | cons c cols ih =>
    cases cols' with
    | nil => simp at hlen
    | cons c' cols' =>
      obtain ⟨hc, hnd⟩ := List.nodup_cons.1 hnd
      rw [List.zip_cons_cons, List.map_cons, pcrRemap_cons, if_pos rfl]
      refine congrArg _ (Eq.trans (List.map_congr_left fun d hd => ?_) (ih hnd (by simpa using hlen)))
      rw [pcrRemap_cons, if_neg]
      rintro rfl
      exact hc hd

theorem pcrRemap_zip_mem (hnd : cols.Nodup) (hlen : cols.length = cols'.length) (hc : c ∈ cols) :
    PcrRemap (cols.zip cols') c ∈ cols' := by
  have hmem := List.mem_map_of_mem (f := PcrRemap (cols.zip cols')) hc
  rwa [map_pcrRemap_zip hnd hlen] at hmem

/-- What a mapped array reads, by column. -/
theorem apply_pcrRemap_zip (hnd : cols.Nodup)
    (hlen : cols.length = cols'.length) {row row' : Row D}
    (h : cols'.map row' = cols.map row) : ∀ c ∈ cols, row' (PcrRemap (cols.zip cols') c) = row c := by
  have hmap : cols.map (fun c => row' (PcrRemap (cols.zip cols') c)) = cols.map row := by
    rw [← h, ← congrArg (List.map row') (map_pcrRemap_zip hnd hlen), List.map_map]
    rfl
  exact List.map_inj_left.1 hmap

/-! ## Producers -/

/-- A `CLogicalCTEProducer`: the expression it is a copy of, the columns of that expression, and
    those of the copy. -/
structure CTEProducer (D : Type) where
  id : ℕ
  pdrgpcr : List CColRef
  colref_array : List CColRef
  pexpr : XformExpr D

/-- `CXformUtils::PexprAddCTEProducer` (CXformUtils.cpp:2593), and the next column number. The copy
    has new columns for the columns below its output, too; how many is `ulBelow`. -/
def PexprAddCTEProducer (ulBelow : XformExpr D → ℕ) (m_aul ulCTEId : ℕ)
    (colref_array : List CColRef) (pexpr : XformExpr D) : Except CteFault (CTEProducer D × ℕ) :=
  if pexpr.outerReferences ≠ [] then .error .unboundColumn
  else .ok (⟨ulCTEId, PdrgpcrCopy m_aul colref_array, colref_array, pexpr⟩,
    m_aul + colref_array.length + ulBelow pexpr)

variable [LinearOrder D]

/-- The contents of the common table expressions, computed one after the other. -/
def contents (ex : Engine D) (env : Row D) (ctes : ℕ → List (List (Datum D)))
    (producers : List (CTEProducer D)) : ℕ → List (List (Datum D)) :=
  producers.foldl (fun ctes producer => Function.update ctes producer.id
    (tuplesOn producer.colref_array (producer.pexpr.rows ex ctes env))) ctes

/-- The rows of a consumer: those of the expression, on the columns of the consumer. -/
def consumerRow (cols cols' : List CColRef) (env row : Row D) : Row D :=
  assign cols' (cols.map row) env

section

variable {cols cols' : List CColRef} {env row : Row D} {c : CColRef}

omit [LinearOrder D] in
theorem map_consumerRow (hnd : cols'.Nodup) (hlen : cols.length = cols'.length) :
    cols'.map (consumerRow cols cols' env row) = cols.map row := by
  refine List.ext_getElem (by simp [hlen]) fun i hi hi' => ?_
  rw [List.length_map] at hi
  rw [List.getElem_map]
  exact (assign_getElem hnd hi).trans (List.getD_eq_getElem _ _ hi')

omit [LinearOrder D] in
theorem consumerRow_self (hnd : cols.Nodup) (hc : c ∈ cols) :
    consumerRow cols cols env row c = row c := List.map_inj_left.1 (map_consumerRow hnd rfl) c hc

end

theorem rows_cteConsumer (ex : Engine D) {ctes : ℕ → List (List (Datum D))} {env : Row D} {id : ℕ}
    {rows : List (Row D)} (h : ctes id = tuplesOn cols rows) :
    (XformExpr.cteConsumer id cols').rows ex ctes env = rows.map (consumerRow cols cols' env) := by
  rw [XformExpr.rows, h, tuplesOn, List.map_map]
  rfl

end BossOptimizer

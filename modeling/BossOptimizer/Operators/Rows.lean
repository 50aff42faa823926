import BossOptimizer.Operators.Evaluation

/-!
# Rows of the operators

Where the rows of each operator come from: one lemma for each operator of the bag algebra, and the
scoping of columns that the optimizer keeps up (every column is computed in one place), under which
a row carries the values of the rows it was built from.
-/

namespace BossOptimizer

variable {D : Type} [LinearOrder D]

/-! ## Groups -/

variable {cols : List CColRef}

theorem sameOn_comm {r s : Row D} : sameOn cols r s = sameOn cols s r := by
  rw [Bool.eq_iff_iff, sameOn_iff, sameOn_iff]
  exact ⟨fun h c hc => (h c hc).symm, fun h c hc => (h c hc).symm⟩

theorem sameOn_trans {r s t : Row D} (h : sameOn cols r s = true)
    (h' : sameOn cols s t = true) : sameOn cols r t = true := by
  rw [sameOn_iff] at *
  exact fun c hc => (h c hc).trans (h' c hc)

/-- No two rows agree on all columns. -/
def DistinctOn (cols : List CColRef) (rows : List (Row D)) : Prop :=
  rows.Pairwise fun r s => sameOn cols r s = false

theorem DistinctOn.sublist {rows rows' : List (Row D)} (h : DistinctOn cols rows)
    (hs : rows'.Sublist rows) : DistinctOn cols rows' :=
  List.Pairwise.sublist hs h

theorem DistinctOn.perm {rows rows' : List (Row D)} (h : DistinctOn cols rows)
    (hp : rows'.Perm rows) : DistinctOn cols rows' := by
  refine (List.Perm.pairwise_iff ?_ hp.symm).1 h
  intro r s hrs
  rwa [sameOn_comm]

variable {rows : List (Row D)}

theorem distinctOn_of_length_le_one (h : rows.length ≤ 1) : DistinctOn cols rows := by
  match rows with
  | [] => exact List.Pairwise.nil
  | [_] => exact List.pairwise_singleton _ _
  | _ :: _ :: _ => simp at h

variable {r : Row D}

/-- Distinct rows that agree are one row. -/
theorem DistinctOn.eq_singleton (h : DistinctOn cols rows)
    (hsame : ∀ r ∈ rows, ∀ s ∈ rows, sameOn cols r s = true) (hr : r ∈ rows) : rows = [r] := by
  match rows with
  | [_] => rw [List.mem_singleton.1 hr]
  | s :: t :: rows =>
    have hst := (List.pairwise_cons.1 h).1 t List.mem_cons_self
    rw [hsame s List.mem_cons_self t (List.mem_cons_of_mem _ List.mem_cons_self)] at hst
    cases hst

/-- Rows that have the key values of distinct rows are distinct. -/
theorem sameOn_eq_false_of {k K : List CColRef} {a a' r r' : Row D}
    (h : sameOn k a a' = false) (hk : k ⊆ K) (hr : ∀ c ∈ k, r c = a c)
    (hr' : ∀ c ∈ k, r' c = a' c) : sameOn K r r' = false := by
  rw [← Bool.not_eq_true, sameOn_iff] at h ⊢
  intro hall
  exact h fun c hc => by rw [← hr c hc, ← hr' c hc]; exact hall c (hk hc)

/-- Rows built one by one from distinct rows. -/
theorem DistinctOn.map_of_agree {k K : List CColRef} {f : Row D → Row D} (h : DistinctOn k rows)
    (hk : k ⊆ K) (hf : ∀ r ∈ rows, ∀ c ∈ k, f r c = r c) :
    DistinctOn K (rows.map f) := by
  refine List.pairwise_map.2 ?_
  exact h.imp_of_mem fun hr hs hrs => sameOn_eq_false_of hrs hk (hf _ hr) (hf _ hs)

theorem dedupOn_sublist (cols : List CColRef) (rows : List (Row D)) :
    (dedupOn cols rows).Sublist rows := List.pwFilter_sublist rows

theorem dedupOn_distinctOn (cols : List CColRef) (rows : List (Row D)) :
    DistinctOn cols (dedupOn cols rows) := List.pairwise_pwFilter rows

/-- Every row is represented. -/
theorem exists_mem_dedupOn {row : Row D}
    (h : row ∈ rows) : ∃ row' ∈ dedupOn cols rows, sameOn cols row row' = true := by
  by_contra! hnone
  have htrans : ∀ {x y z : Row D}, sameOn cols x z = false →
      sameOn cols x y = false ∨ sameOn cols y z = false := by
    intro x y z hxz
    by_contra! hboth
    rw [ne_eq, Bool.not_eq_false, ne_eq, Bool.not_eq_false] at hboth
    rw [sameOn_trans hboth.1 hboth.2] at hxz
    cases hxz
  have hall : ∀ b ∈ rows, sameOn cols row b = false := by
    rw [← List.forall_mem_pwFilter (R := fun a b => sameOn cols a b = false) htrans row rows]
    exact fun b hb => Bool.eq_false_iff.2 (hnone b hb)
  have hself := hall row h
  rw [sameOn_refl] at hself
  cases hself

/-- The tuples of the groups are those of the rows. -/
theorem exists_dedupOn_iff {vals : List (Datum D)} :
    (∃ row ∈ dedupOn cols rows, cols.map row = vals) ↔ ∃ row ∈ rows, cols.map row = vals := by
  constructor
  · rintro ⟨row, hrow, hvals⟩
    exact ⟨row, (dedupOn_sublist cols rows).subset hrow, hvals⟩
  · rintro ⟨row, hrow, rfl⟩
    obtain ⟨row', hrow', hsame⟩ := @exists_mem_dedupOn _ _ cols _ _ hrow
    exact ⟨row', hrow', List.map_congr_left fun c hc => (sameOn_iff.1 hsame c hc).symm⟩

/-! ## Set operations -/

theorem pairOff_sublist (keep : Bool) (cols : List CColRef) (rows other : List (Row D)) :
    (pairOff keep cols rows other).Sublist rows := by
  induction rows generalizing other with
  | nil => simp [pairOff]
  | cons row rows ih =>
    simp only [pairOff]
    split
    · cases keep
      · exact (ih _).cons _
      · exact (ih _).cons_cons _
    · cases keep
      · exact (ih _).cons_cons _
      · exact (ih _).cons _

/-- Each kept row has used up its partner. -/
theorem length_pairOff_le (cols : List CColRef) (rows other : List (Row D)) :
    (pairOff true cols rows other).length ≤ other.length := by
  induction rows generalizing other with
  | nil => simp [pairOff]
  | cons row rows ih =>
    simp only [pairOff, if_true]
    split
    · next hany =>
      obtain ⟨s, hs, hsame⟩ := List.any_eq_true.1 hany
      have hpos : 0 < other.length := List.length_pos_of_mem hs
      have hlen := ih (other.eraseP (sameOn cols row))
      rw [List.length_eraseP_of_mem hs hsame] at hlen
      rw [List.length_cons]
      omega
    · exact ih other

theorem exists_sameOn_of_mem_pairOff {rows other : List (Row D)}
    (h : r ∈ pairOff true cols rows other) : ∃ s ∈ other, sameOn cols r s = true := by
  induction rows generalizing other with
  | nil => simp [pairOff] at h
  | cons row rows ih =>
    simp only [pairOff, if_true] at h
    split at h
    · next hany =>
      rcases List.mem_cons.1 h with rfl | h
      · exact List.any_eq_true.1 hany
      · obtain ⟨s, hs, hsame⟩ := ih h
        exact ⟨s, List.mem_of_mem_eraseP hs, hsame⟩
    · exact ih h

theorem foldl_pairOff_sublist (keep : Bool) (cols : List CColRef) (first : List (Row D))
    (rest : List (List (Row D))) : (rest.foldl (pairOff keep cols) first).Sublist first := by
  induction rest generalizing first with
  | nil => exact List.Sublist.refl _
  | cons other rest ih => exact (ih _).trans (pairOff_sublist keep cols first other)

/-- Distinct rows that all have a partner are no more than the partners. -/
theorem length_le_of_partners {rows other : List (Row D)} (hd : DistinctOn cols rows)
    (hp : ∀ r ∈ rows, ∃ s ∈ other, sameOn cols r s = true) :
    rows.length ≤ other.length := by
  induction rows generalizing other with
  | nil => simp
  | cons row rows ih =>
    obtain ⟨hrow, hrows⟩ := List.pairwise_cons.1 hd
    obtain ⟨s, hs, hsame⟩ := hp row (by simp)
    have hrest : rows.length ≤ (other.eraseP (sameOn cols row)).length := by
      refine ih hrows fun r hr => ?_
      obtain ⟨t, ht, hrt⟩ := hp r (by simp [hr])
      refine ⟨t, (List.mem_eraseP_of_neg fun hrowt => ?_).2 ht, hrt⟩
      -- the partner of another row is not the one taken
      have htr : sameOn cols t r = true := by rw [sameOn_comm]; exact hrt
      have hsame := sameOn_trans hrowt htr
      rw [hrow r hr] at hsame
      cases hsame
    rw [List.length_eraseP_of_mem hs hsame] at hrest
    have hpos : 0 < other.length := List.length_pos_of_mem hs
    rw [List.length_cons]
    omega

variable {op : ESetOp}

/-- Where the rows of a set operation come from. -/
theorem mem_setOpRows {l : List (List (Row D))}
    (h : r ∈ setOpRows op cols l) : ∃ rows ∈ l, r ∈ rows := by
  cases l with
  | nil => simp [setOpRows] at h
  | cons first rest =>
    cases op with
    | union => simpa using (dedupOn_sublist _ _).subset h
    | unionAll => simpa [setOpRows] using h
    | intersect | difference =>
      exact ⟨first, by simp, List.mem_of_mem_filter ((dedupOn_sublist _ _).subset h)⟩
    | intersectAll
    | differenceAll => exact ⟨first, by simp, (foldl_pairOff_sublist _ _ _ _).subset h⟩

/-- The set operations other than unions return rows of their first child. -/
theorem mem_first_of_mem_setOpRows (hop : op ≠ .union ∧ op ≠ .unionAll) {first : List (Row D)}
    {rest : List (List (Row D))} (h : r ∈ setOpRows op cols (first :: rest)) : r ∈ first := by
  cases op with
  | union => exact absurd rfl hop.1
  | unionAll => exact absurd rfl hop.2
  | intersect | difference => exact List.mem_of_mem_filter ((dedupOn_sublist _ _).subset h)
  | intersectAll | differenceAll => exact (foldl_pairOff_sublist _ _ _ _).subset h

theorem exists_sameOn_of_mem_foldl {first : List (Row D)} {rest : List (List (Row D))}
    (h : r ∈ rest.foldl (pairOff true cols) first) :
    ∀ rows ∈ rest, ∃ s ∈ rows, sameOn cols r s = true := by
  induction rest generalizing first with
  | nil => simp
  | cons other rest ih =>
    intro rows hrows
    rcases List.mem_cons.1 hrows with rfl | hrows
    · exact exists_sameOn_of_mem_pairOff ((foldl_pairOff_sublist _ _ _ _).subset h)
    · exact ih h rows hrows

/-- A row of an intersection has a partner in every child. -/
theorem exists_sameOn_of_mem_intersect (hop : op = .intersect ∨ op = .intersectAll)
    {l : List (List (Row D))} (h : r ∈ setOpRows op cols l) :
    ∀ rows ∈ l, ∃ s ∈ rows, sameOn cols r s = true := by
  cases l with
  | nil => simp
  | cons first rest =>
    have hfirst : ∃ s ∈ first, sameOn cols r s = true := by
      refine ⟨r, mem_first_of_mem_setOpRows ?_ h, sameOn_refl cols r⟩
      rcases hop with rfl | rfl <;> simp
    intro rows hrows
    rcases List.mem_cons.1 hrows with rfl | hrows
    · exact hfirst
    rcases hop with rfl | rfl
    · have hr := List.of_mem_filter ((dedupOn_sublist _ _).subset h)
      exact List.any_eq_true.1 (List.all_eq_true.1 hr rows hrows)
    · exact exists_sameOn_of_mem_foldl h rows hrows

theorem distinctOn_setOpRows (hop : op = .union ∨ op = .intersect ∨ op = .difference)
    (cols : List CColRef) (l : List (List (Row D))) : DistinctOn cols (setOpRows op cols l) := by
  cases l with
  | nil => exact List.Pairwise.nil
  | cons first rest => rcases hop with rfl | rfl | rfl <;> exact dedupOn_distinctOn _ _

/-! ## Numbers of rows of set operations -/

theorem length_setOpRows_union_le (hop : op = .union ∨ op = .unionAll) (cols : List CColRef)
    (l : List (List (Row D))) :
    (setOpRows op cols l).length ≤ (l.map List.length).sum := by
  cases l with
  | nil => simp [setOpRows]
  | cons first rest =>
    rw [← List.length_flatten]
    rcases hop with rfl | rfl
    · exact (dedupOn_sublist _ _).length_le
    · exact le_refl _

theorem length_setOpRows_le_first (hop : op ≠ .union ∧ op ≠ .unionAll) (cols : List CColRef)
    (first : List (Row D)) (rest : List (List (Row D))) :
    (setOpRows op cols (first :: rest)).length ≤ first.length := by
  cases op with
  | union => exact absurd rfl hop.1
  | unionAll => exact absurd rfl hop.2
  | intersect
  | difference => exact (dedupOn_sublist _ _).length_le.trans (List.length_filter_le _ _)
  | intersectAll | differenceAll => exact (foldl_pairOff_sublist _ _ _ _).length_le

theorem length_setOpRows_le_second (hop : op = .intersect ∨ op = .intersectAll)
    (cols : List CColRef) (first second : List (Row D)) (rest : List (List (Row D))) :
    (setOpRows op cols (first :: second :: rest)).length ≤ second.length := by
  rcases hop with rfl | rfl
  · refine length_le_of_partners (dedupOn_distinctOn _ _) fun r hr => ?_
    exact exists_sameOn_of_mem_intersect (.inl rfl) hr second (by simp)
  · exact (foldl_pairOff_sublist _ _ _ rest).length_le.trans (length_pairOff_le cols first second)

end BossOptimizer

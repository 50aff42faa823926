import BossOptimizer.Operators.DerivedKeys

/-!
# Soundness of derived keys

No two rows of an expression agree on all columns of a derived key, as long as no projection
multiplies rows: `CLogicalProject::DeriveKeyCollection` passes the keys of its child on, and a
set-returning function in the project list repeats each key as often as it returns a value.
-/

namespace BossOptimizer

namespace LogicalExpr

variable {D : Type} [LinearOrder D] {ex : Execution D} {env : Row D}

/-- No two rows agree on all columns of a derived key. -/
def keysHold (ex : Execution D) (env : Row D) (e : LogicalExpr D) : Prop :=
  ∀ pkc ∈ e.deriveKeyCollection, ∀ key ∈ pkc, DistinctOn key (e.rows ex env)

/-- A projection over a child with a key returns at most one row for each row of the child. -/
def projectsOnce (ex : Execution D) (env : Row D) : LogicalExpr D → Prop
  | .project child pexprPrL => child.deriveKeyCollection ≠ none →
      ∀ row ∈ child.rows ex env, (projectRow ex pexprPrL row).length ≤ 1
  | _ => True

/-- The operator is not a full outer join. -/
def notFullOuter : LogicalExpr D → Prop
  | .join .fullOuter _ _ _ => False
  | _ => True

/-! ## Key columns -/

omit [LinearOrder D] in
theorem bind_head?_eq_some {pkc : Option CKeyCollection} {key : List CColRef}
    (h : pkc.bind List.head? = some key) : ∃ l, pkc = some l ∧ key ∈ l := by
  obtain ⟨l, rfl, hl⟩ := Option.bind_eq_some_iff.1 h
  exact ⟨l, rfl, List.mem_of_mem_head? hl⟩

omit [LinearOrder D] in
theorem firstKeys_cons {pkc : Option CKeyCollection} {rest : List (Option CKeyCollection)}
    {keys : List CColRef} (h : firstKeys (pkc :: rest) = some keys) :
    ∃ key ks, pkc.bind List.head? = some key ∧ firstKeys rest = some ks ∧ keys = key ++ ks := by
  simp only [firstKeys, Option.bind_eq_bind, Option.pure_def] at h
  obtain ⟨key, hkey, h⟩ := Option.bind_eq_some_iff.1 h
  obtain ⟨ks, hks, h⟩ := Option.bind_eq_some_iff.1 h
  exact ⟨key, ks, hkey, hks, (Option.some.inj h).symm⟩

omit [LinearOrder D] in
theorem mem_pkcCombineKeys {pkcs : List (Option CKeyCollection)} {pkc : CKeyCollection}
    (h : pkcCombineKeys pkcs = some pkc) : ∃ key, firstKeys pkcs = some key ∧ pkc = [key] := by
  obtain ⟨key, hkey, rfl⟩ := Option.map_eq_some_iff.1 h
  exact ⟨key, hkey, rfl⟩

omit [LinearOrder D] in
@[simp] theorem keysAll_eq_map (es : List (LogicalExpr D)) :
    keysAll es = es.map deriveKeyCollection := by
  induction es with
  | nil => rfl
  | cons e es ih => simp [keysAll, ih]

omit [LinearOrder D] in
/-- A key consists of output columns. -/
theorem deriveKeyCollection_subset {e : LogicalExpr D} (hs : Everywhere WellScoped e) :
    ∀ pkc ∈ e.deriveKeyCollection, ∀ key ∈ pkc, ∀ c ∈ key, c ∈ e.deriveOutputColumns := by
  induction e using LogicalExpr.induction with
  | get ptabdesc out unused =>
    intro pkc hpkc key hkey c hc
    simp only [deriveKeyCollection, pkcKeysBaseTable, Option.mem_def,
      Option.ite_none_left_eq_some, Option.some.injEq] at hpkc
    obtain ⟨-, rfl⟩ := hpkc
    obtain ⟨pbs, -, rfl⟩ := List.mem_map.1 hkey
    obtain ⟨i, -, hi⟩ := List.mem_filterMap.1 hc
    exact List.mem_of_getElem? hi
  | constTableGet => simp [deriveKeyCollection]
  | select child p ih | limit id child offset count ih => exact ih (hs.child (by simp [children]))
  | project child l ih =>
    exact fun pkc hpkc key hkey c hc =>
      List.mem_append_left _ (ih (hs.child (by simp [children])) pkc hpkc key hkey c hc)
  | gbAgg cols child l ih =>
    intro pkc hpkc key hkey c hc
    simp only [deriveKeyCollection, Option.mem_def] at hpkc
    split at hpkc
    · cases hpkc
      obtain rfl := List.mem_singleton.1 hkey
      exact List.mem_append_left _
        (List.mem_filter.2 ⟨hc, decide_eq_true (hs.here.1 c hc)⟩)
    · split at hpkc
      · cases hpkc
      · cases hpkc
        obtain rfl := List.mem_singleton.1 hkey
        exact List.mem_append_right _ hc
  | setOp op out input children ih =>
    intro pkc hpkc key hkey c hc
    obtain rfl : [out] = pkc := by
      cases op <;> simp_all only [deriveKeyCollection, Option.mem_def, Option.some.injEq,
        reduceCtorEq]
    rw [List.mem_singleton.1 hkey] at hc
    exact hc
  | join op left right p ihl ihr =>
    intro pkc hpkc key hkey c hc
    obtain ⟨ks, hks, rfl⟩ := mem_pkcCombineKeys hpkc
    obtain rfl := List.mem_singleton.1 hkey
    obtain ⟨kl, ks', hkl, hks', rfl⟩ := firstKeys_cons hks
    obtain ⟨kr, ks'', hkr, hks'', rfl⟩ := firstKeys_cons hks'
    obtain rfl : ks'' = [] := by simpa [firstKeys] using hks''.symm
    obtain ⟨pl, hpl, hkl⟩ := bind_head?_eq_some hkl
    obtain ⟨pr, hpr, hkr⟩ := bind_head?_eq_some hkr
    rcases List.mem_append.1 hc with hc | hc
    · exact List.mem_append_left _ (ihl (hs.child (by simp [children])) pl hpl kl hkl c hc)
    · refine List.mem_append_right _ (ihr (hs.child (by simp [children])) pr hpr kr hkr c ?_)
      simpa using hc
  | naryJoin es idx preds on ih =>
    intro pkc hpkc key hkey c hc
    obtain ⟨ks, hks, rfl⟩ := mem_pkcCombineKeys hpkc
    rw [List.mem_singleton.1 hkey] at hc
    replace hs : ∀ e ∈ es, Everywhere WellScoped e := fun e he => hs.child he
    clear hpkc hkey
    induction es generalizing ks with
    | nil => simp_all [firstKeys]
    | cons e es ihes =>
      obtain ⟨k, ks', hk, hks', rfl⟩ := firstKeys_cons hks
      obtain ⟨p, hp, hk⟩ := bind_head?_eq_some hk
      rcases List.mem_append.1 hc with hc | hc
      · exact List.mem_append_left _ (ih e (by simp) (hs e (by simp)) p hp k hk c hc)
      · exact List.mem_append_right _ (ihes (fun e he => ih e (by simp [he])) ks' hc hks'
          fun e he => hs e (by simp [he]))

/-! ## Distinct rows through the operators -/

section Join

variable {cols k₁ k₂ : List CColRef} {left right : List (Row D)} (hout : ∀ c ∈ k₁, c ∉ cols)
  (hin : ∀ c ∈ k₂, c ∈ cols) (hl : DistinctOn k₁ left) (hr : DistinctOn k₂ right)

include hin hr in
/-- The matches of one left row. -/
theorem distinctOn_matches (p : Row D → Bool) (l : Row D) :
    DistinctOn (k₁ ++ k₂) ((right.filter p).map (merge cols l)) := by
  have hfilter : DistinctOn k₂ (right.filter p) := hr.sublist List.filter_sublist
  exact hfilter.map_of_agree (List.subset_append_right _ _) fun s _ c hc =>
    merge_of_mem (hin c hc)

omit [LinearOrder D] in
include hout in
theorem merge_leftKey (l s : Row D) : ∀ c ∈ k₁, merge cols l s c = l c :=
  fun c hc => merge_of_notMem (hout c hc)

include hout hin hl hr

theorem distinctOn_inner (p : Row D → Row D → Bool) :
    DistinctOn (k₁ ++ k₂) (Joins.inner p (merge cols) left right) := by
  refine Joins.pairwise_flatMap_of hl (fun l _ => distinctOn_matches hin hr (p l) l) ?_
  intro l _ l' _ hll' r hr' s hs
  obtain ⟨t, -, rfl⟩ := List.mem_map.1 hr'
  obtain ⟨t', -, rfl⟩ := List.mem_map.1 hs
  exact sameOn_eq_false_of hll' (List.subset_append_left _ _) (merge_leftKey hout l t)
    (merge_leftKey hout l' t')

theorem distinctOn_leftOuter (p : Row D → Row D → Bool) :
    DistinctOn (k₁ ++ k₂) (Joins.leftOuter p (merge cols) (merge cols · nullRow) left right) := by
  have hkey : ∀ l, ∀ r ∈ Joins.matchesOrPad p (merge cols) (merge cols · nullRow) right l,
      ∀ c ∈ k₁, r c = l c := by
    intro l r hr
    obtain ⟨s, -, -, rfl⟩ | ⟨-, rfl⟩ := Joins.mem_matchesOrPad hr <;> exact merge_leftKey hout l _
  refine Joins.pairwise_flatMap_of hl (fun l _ => ?_) ?_
  · unfold Joins.matchesOrPad
    split
    · exact distinctOn_matches hin hr (p l) l
    · exact List.pairwise_singleton _ _
  · intro l _ l' _ hll' r hr s hs
    exact sameOn_eq_false_of hll' (List.subset_append_left _ _) (hkey l r hr) (hkey l' s hs)

end Join

/-- The n-ary join: every child adds its key. -/
theorem distinctOn_naryJoinRows {idx : Option (List ℕ)} {onPreds : List (ScalarExpr D)}
    {es : List (LogicalExpr D)} (hapart : es.Pairwise Apart)
    (hs : ∀ e ∈ es, Everywhere WellScoped e) (hkeys : ∀ e ∈ es, keysHold ex env e)
    {ks : List CColRef} (hks : firstKeys (es.map deriveKeyCollection) = some ks) {j : ℕ}
    {acc : List (Row D)} {k₀ : List CColRef} (hout : ∀ c ∈ k₀, c ∉ rowColumnsAll es)
    (hacc : DistinctOn k₀ acc) :
    DistinctOn (k₀ ++ ks) (naryJoinRows ex idx onPreds j acc (operands ex env es)) := by
  induction es generalizing j acc k₀ ks with
  | nil =>
    obtain rfl : ks = [] := by simpa [firstKeys] using hks.symm
    simpa [operands, naryJoinRows] using hacc
  | cons e es ih =>
    obtain ⟨hhead, hrest⟩ := List.pairwise_cons.1 hapart
    obtain ⟨key, ks', hkey, hks', rfl⟩ := firstKeys_cons hks
    obtain ⟨pkc, hpkc, hkey⟩ := bind_head?_eq_some hkey
    have hcols : ∀ c ∈ key, c ∈ e.rowColumns := fun c hc =>
      deriveOutputColumns_subset_rowColumns e c
        (deriveKeyCollection_subset (hs e (by simp)) pkc hpkc key hkey c hc)
    have hdist : DistinctOn key (e.rows ex env) := hkeys e (by simp) pkc hpkc key hkey
    have houte : ∀ c ∈ k₀, c ∉ e.rowColumns := fun c hc hmem =>
      hout c hc (List.mem_append_left _ hmem)
    rw [← List.append_assoc]
    refine ih hrest (fun e he => hs e (by simp [he])) (fun e he => hkeys e (by simp [he])) hks' ?_ ?_
    · intro c hc hmem
      rcases List.mem_append.1 hc with hc | hc
      · exact hout c hc (List.mem_append_right _ hmem)
      · obtain ⟨e', he', hc'⟩ := mem_rowColumnsAll.1 hmem
        exact (hhead e' he').1 c hc' (rowColumns_subset_colrefs e c (hcols c hc))
    · cases onPredicate idx onPreds j with
      | none => exact distinctOn_inner houte hcols hacc hdist _
      | some on => exact distinctOn_leftOuter houte hcols hacc hdist _

/-- Distinct table rows give distinct rows. -/
theorem distinctOn_get {ptabdesc : CTableDescriptor D} {out unused : List CColRef}
    (hs : WellScoped (.get ptabdesc out unused)) {pbs : List ℕ} (hpbs : pbs ∈ ptabdesc.pdrgpbsKeys)
    (hf : TableFacts ex ptabdesc out) :
    DistinctOn (pbs.filterMap (out[·]?)) ((get ptabdesc out unused).rows ex env) := by
  obtain ⟨hnd, -, -, hkey, -⟩ := hs
  refine List.pairwise_map.2 ((hf.keys pbs hpbs).imp fun {v w} hvw => ?_)
  obtain ⟨i, hi, hne⟩ := hvw
  have hlt : i < out.length := hkey pbs hpbs i hi
  rw [← Bool.not_eq_true, sameOn_iff]
  intro hall
  have hmem : out[i] ∈ pbs.filterMap (out[·]?) :=
    List.mem_filterMap.2 ⟨i, hi, List.getElem?_eq_getElem hlt⟩
  have heq := hall _ hmem
  rw [assign_getElem hnd hlt, assign_getElem hnd hlt] at heq
  exact hne heq

/-- Rows that agree on a key and are distinct on it are at most one. -/
theorem length_le_one_of_distinctOn {k : List CColRef} {rows : List (Row D)}
    (h : DistinctOn k rows) {r : Row D} (hr : ∀ s ∈ rows, ∀ c ∈ k, s c = r c) :
    rows.length ≤ 1 := by
  match rows, h with
  | [], _ => simp
  | [_], _ => simp
  | s :: t :: _, h =>
    have hst : sameOn k s t = false := (List.pairwise_cons.1 h).1 t (by simp)
    rw [← Bool.not_eq_true, sameOn_iff] at hst
    exact absurd (fun c hc => (hr s (by simp) c hc).trans (hr t (by simp) c hc).symm) hst

omit [LinearOrder D] in
/-- A key collection is not empty. -/
theorem deriveKeyCollection_ne_nil (e : LogicalExpr D) :
    ∀ pkc ∈ e.deriveKeyCollection, pkc ≠ [] := by
  induction e using LogicalExpr.induction with
  | get ptabdesc out unused =>
    intro pkc hpkc
    simp only [deriveKeyCollection, pkcKeysBaseTable, Option.mem_def,
      Option.ite_none_left_eq_some, Option.some.injEq] at hpkc
    obtain ⟨hne, rfl⟩ := hpkc
    simpa using hne
  | constTableGet => simp [deriveKeyCollection]
  | select child p ih => exact ih
  | project child l ih => exact ih
  | limit id child offset count ih => exact ih
  | gbAgg cols child l ih =>
    intro pkc hpkc
    simp only [deriveKeyCollection, Option.mem_def] at hpkc
    split at hpkc
    · cases hpkc; simp
    · split at hpkc <;> cases hpkc
      simp
  | setOp op out input children ih =>
    intro pkc hpkc
    obtain rfl : [out] = pkc := by
      cases op <;> simp_all only [deriveKeyCollection, Option.mem_def, Option.some.injEq,
        reduceCtorEq]
    simp
  | join op left right p ihl ihr | naryJoin es idx preds on ih =>
    intro pkc hpkc
    obtain ⟨ks, -, rfl⟩ := mem_pkcCombineKeys hpkc
    simp

/-- One operator: its keys hold where those of its children do. -/
theorem keysHold_step {e : LogicalExpr D} (hs : Everywhere WellScoped e) (hf : baseFacts ex e)
    (hfoj : notFullOuter e) (honce : projectsOnce ex env e)
    (ih : ∀ c ∈ e.children, keysHold ex env c) : keysHold ex env e := by
  intro pkc hpkc key hkey
  cases e with
  | get ptabdesc out unused =>
    simp only [deriveKeyCollection, pkcKeysBaseTable, Option.mem_def,
      Option.ite_none_left_eq_some, Option.some.injEq] at hpkc
    obtain ⟨-, rfl⟩ := hpkc
    obtain ⟨pbs, hpbs, rfl⟩ := List.mem_map.1 hkey
    exact distinctOn_get hs.here hpbs hf
  | constTableGet out data => simp [deriveKeyCollection] at hpkc
  | select child p =>
    exact (ih child (by simp [children]) pkc hpkc key hkey).sublist List.filter_sublist
  | project child l =>
    have hchild := ih child (by simp [children]) pkc hpkc key hkey
    have hsub := deriveKeyCollection_subset (hs.child (c := child) (by simp [children])) pkc hpkc
      key hkey
    have hagree : ∀ row, ∀ r ∈ projectRow ex l row, ∀ c ∈ key, r c = row c :=
      fun row r hr c hc => projectRow_agree hs.here hr c
        (deriveOutputColumns_subset_colrefs child c (hsub c hc))
    have hsome : child.deriveKeyCollection ≠ none := by
      rw [show child.deriveKeyCollection = some pkc from hpkc]
      simp
    refine Joins.pairwise_flatMap_of hchild ?_ ?_
    · exact fun row hrow => distinctOn_of_length_le_one (honce hsome row hrow)
    · intro row _ row' _ hne r hr r' hr'
      exact sameOn_eq_false_of hne (List.Subset.refl key) (hagree row r hr) (hagree row' r' hr')
  | limit id child offset count =>
    obtain ⟨l, hl, hsub⟩ := @limit_rows D _ ex env id child offset count
    exact ((ih child (by simp [children]) pkc hpkc key hkey).perm hl).sublist hsub
  | gbAgg cols child l =>
    rw [rows, gbAggRows]
    split
    · exact List.pairwise_singleton _ _
    · next hne =>
      rw [deriveKeyCollection, if_pos hne] at hpkc
      cases hpkc
      obtain rfl := List.mem_singleton.1 hkey
      refine (dedupOn_distinctOn key _).map_of_agree (List.Subset.refl key) fun r _ c hc => ?_
      rw [assign_of_notMem ?_, merge_of_mem hc]
      intro hmem
      obtain ⟨el, hel, rfl⟩ := List.mem_map.1 hmem
      exact hs.here.2 el hel (deriveOutputColumns_subset_colrefs child _ (hs.here.1 _ hc))
  | setOp op out input es =>
    have hop : (op = .union ∨ op = .intersect ∨ op = .difference) ∧ [out] = pkc := by
      cases op <;> simp [deriveKeyCollection] at hpkc ⊢ <;> exact hpkc
    obtain ⟨hop, rfl⟩ := hop
    obtain rfl := List.mem_singleton.1 hkey
    exact distinctOn_setOpRows hop _ _
  | join op left right p =>
    obtain ⟨ks, hks, rfl⟩ := mem_pkcCombineKeys hpkc
    obtain rfl := List.mem_singleton.1 hkey
    obtain ⟨kl, ks', hkl, hks', rfl⟩ := firstKeys_cons hks
    obtain ⟨kr, ks'', hkr, hks'', rfl⟩ := firstKeys_cons hks'
    obtain rfl : ks'' = [] := by simpa [firstKeys] using hks''.symm
    obtain ⟨pl, hpl, hkl⟩ := bind_head?_eq_some hkl
    obtain ⟨pr, hpr, hkr⟩ := bind_head?_eq_some hkr
    have hcl := deriveKeyCollection_subset (hs.child (c := left) (by simp [children])) pl hpl kl hkl
    have hcr : ∀ c ∈ kr, c ∈ right.rowColumns := fun c hc =>
      deriveOutputColumns_subset_rowColumns right c
        (deriveKeyCollection_subset (hs.child (by simp [children])) pr hpr kr hkr c hc)
    have hout : ∀ c ∈ kl, c ∉ right.rowColumns := fun c hc hmem =>
      hs.here.1 c hmem (deriveOutputColumns_subset_colrefs left c (hcl c hc))
    have hl := ih left (by simp [children]) pl hpl kl hkl
    have hr := ih right (by simp [children]) pr hpr kr hkr
    rw [List.append_nil]
    cases op with
    | inner => exact distinctOn_inner hout hcr hl hr _
    | leftOuter => exact distinctOn_leftOuter hout hcr hl hr _
    | fullOuter => exact hfoj.elim
  | naryJoin es idx preds on =>
    obtain ⟨ks, hks, rfl⟩ := mem_pkcCombineKeys hpkc
    obtain rfl := List.mem_singleton.1 hkey
    rw [keysAll_eq_map] at hks
    rw [rows, operands_eq_zip]
    have hstart : DistinctOn [] [env] := List.pairwise_singleton _ _
    have hall : DistinctOn ([] ++ key) (naryJoinRows ex idx on 0 [env] (operands ex env es)) :=
      distinctOn_naryJoinRows hs.here (fun e he => hs.child he) (fun e he => ih e he) hks
        (by simp) hstart
    exact DistinctOn.sublist hall List.filter_sublist

/-- **Derived keys are keys exactly where no projection over a keyed child repeats its rows**, over
    every tree without full outer joins and every database with the declared facts. -/
theorem keysHold_iff {e : LogicalExpr D} (hs : Everywhere WellScoped e)
    (hf : Everywhere (baseFacts ex) e) (hfoj : Everywhere notFullOuter e) :
    Everywhere (keysHold ex env) e ↔ Everywhere (projectsOnce ex env) e := by
  constructor
  · intro h s hsub
    cases s with
    | project child l =>
      intro hsome row hrow
      obtain ⟨pkc, hpkc⟩ := Option.ne_none_iff_exists'.1 hsome
      obtain ⟨key, hkey⟩ := List.exists_mem_of_ne_nil pkc (deriveKeyCollection_ne_nil child pkc hpkc)
      have hss : Everywhere WellScoped (.project child l) := hs.everywhere _ hsub
      have hcols := deriveKeyCollection_subset (hss.child (by simp [children])) pkc hpkc key hkey
      have hdist := (List.pairwise_flatMap.1 (h _ hsub pkc hpkc key hkey)).1 row hrow
      exact length_le_one_of_distinctOn hdist fun r hr c hc =>
        projectRow_agree hss.here hr c (deriveOutputColumns_subset_colrefs child c (hcols c hc))
    | _ => trivial
  · intro h
    refine everywhere_of_step (Q := fun e => Everywhere WellScoped e ∧ baseFacts ex e ∧
      notFullOuter e ∧ projectsOnce ex env e) (fun e he ih => ?_) e ?_
    · exact keysHold_step he.1 he.2.1 he.2.2.1 he.2.2.2 ih
    · exact fun s hsub => ⟨hs.everywhere s hsub, hf s hsub, hfoj s hsub, h s hsub⟩

end LogicalExpr

end BossOptimizer

import BossOptimizer.Lib.Refinement
import BossOptimizer.Operators.FreshColumns

/-!
# Columns that may be left out

A query whose operators read only some columns has the same rows on these columns when the other
columns are not computed. What is left out could have failed, so that the query without it may have
rows where the query with it has none.
-/

namespace BossOptimizer

section Preserved

variable {D W : Type} (p : CColRef → Prop) [DecidablePred p]

def Result.keep : Result D → Result D
  | .relation rows => .relation (rows.map (BossOptimizer.keep p))
  | result => result

/-- The same result on the columns of `p`, unless the first one is a failure. -/
def Result.Preserved (r r' : Result D) : Prop := r = .failure ∨ r.keep p = r'.keep p

/-- The same rows on the columns of `p`. -/
def SameKept (rows rows' : List (Row D)) : Prop :=
  rows.map (BossOptimizer.keep p) = rows'.map (BossOptimizer.keep p)

/-- Environments that agree on the columns of `p`, whose frames mention no other columns. -/
structure Env.Alike (usedByFrame : W → List CColRef) (env env' : Env D (RowGroup D W)) :
    Prop where
  keep : env.keep p = env'.keep p
  frames : ∀ w ∈ env.group.frames, ∀ c ∈ usedByFrame w, p c

/-- The second expression has the results of the first one on the columns of `p`. -/
def Preserves (usedByFrame : W → List CColRef) (f f' : Env D (RowGroup D W) → Result D) : Prop :=
  ∀ env env', Env.Alike p usedByFrame env env' → (f env).Preserved p (f' env')

/-- Project lists that extend a row by the same columns of `p`. -/
def ListsAlike (els els' : List (CColRef × List (Datum D))) : Prop :=
  ∀ row row', keep p row = keep p row' →
    SameKept p (Query.projectRow els row) (Query.projectRow els' row')

/-- The second project list extends rows by the columns of `p` that the first one does. -/
def PreservesList (usedByFrame : W → List CColRef) (list list' : Env D (RowGroup D W) → Result D) :
    Prop :=
  ∀ env env', Env.Alike p usedByFrame env env' →
    Refines (ListsAlike p) (list env).elements? (list' env').elements?

end Preserved

section Rules

variable {D W : Type} {p : CColRef → Prop} [DecidablePred p] {usedByFrame : W → List CColRef}
  {f f' list list' : Env D (RowGroup D W) → Result D} {env env' : Env D (RowGroup D W)}

namespace Env.Alike

theorem refl (h : ∀ w ∈ env.group.frames, ∀ c ∈ usedByFrame w, p c) :
    Alike p usedByFrame env env := ⟨rfl, h⟩

theorem keep_row (h : Alike p usedByFrame env env') :
    BossOptimizer.keep p env.row = BossOptimizer.keep p env'.row := congrArg Env.row h.keep

theorem row (h : Alike p usedByFrame env env') {c : CColRef} (hc : p c) :
    env.row c = env'.row c :=
  keep_eq_iff.1 h.keep_row c hc

theorem with_row (h : Alike p usedByFrame env env') {row row' : Row D}
    (hrow : BossOptimizer.keep p row = BossOptimizer.keep p row') :
    Alike p usedByFrame { env with row := row } { env' with row := row' } := by
  refine ⟨?_, h.frames⟩
  rw [Env.keep, Env.keep, hrow]
  exact congrArg (Env.mk _) (congrArg Env.group h.keep)

end Env.Alike

namespace Result.Preserved

variable {r r' : Result D}

theorem refl (r : Result D) : r.Preserved p r := .inr rfl

theorem value? (h : r.Preserved p r') : Refines Eq r.value? r'.value? := by
  obtain rfl | h := h
  · exact Refines.of_eq_none
  · refine Refines.of_eq ?_
    cases r <;> cases r' <;> simp_all [Result.keep, Result.value?]

theorem elements? (h : r.Preserved p r') : Refines Eq r.elements? r'.elements? := by
  obtain rfl | h := h
  · exact Refines.of_eq_none
  · refine Refines.of_eq ?_
    cases r <;> cases r' <;> simp_all [Result.keep, Result.elements?]

theorem rows? (h : r.Preserved p r') : Refines (SameKept p) r.rows? r'.rows? := by
  rintro rows hrows
  obtain rfl := Result.rows?_eq_some.1 hrows
  obtain h | h := h
  · cases h
  · cases r' <;> simp_all [Result.keep, SameKept]

theorem ofOption {o o' : Option (Result D)} (h : Refines (Result.Preserved p) o o') :
    (Result.ofOption o).Preserved p (Result.ofOption o') := by
  cases ho : o with
  | none => exact .inl rfl
  | some r =>
    obtain ⟨r', rfl, hr⟩ := h r ho
    exact hr

theorem relation {rows rows' : List (Row D)} (h : SameKept p rows rows') :
    (Result.relation rows).Preserved p (.relation rows') :=
  .inr (congrArg Result.relation h)

end Result.Preserved

theorem Preserves.preservesList (h : Preserves p usedByFrame list list') :
    PreservesList p usedByFrame list list' := by
  intro env env' henv
  refine (h env env' henv).elements?.mono ?_
  rintro els _ rfl row row' hrow
  exact map_keep_projectRow_congr els hrow

theorem sameKept_flatten {rs rs' : List (List (Row D))} (h : List.Forall₂ (SameKept p) rs rs') :
    SameKept p rs.flatten rs'.flatten := by
  rw [SameKept, List.map_flatten, List.map_flatten]
  exact congrArg List.flatten (map_eq_map_of_forall₂ h fun _ _ _ hab => hab)

theorem projectEach_refines (hlist : PreservesList p usedByFrame list list')
    {envs envs' : List (Env D (RowGroup D W))}
    (henvs : envs.map (Env.keep p) = envs'.map (Env.keep p))
    (hframes : ∀ env ∈ envs, ∀ w ∈ env.group.frames, ∀ c ∈ usedByFrame w, p c) :
    Refines (SameKept p) (GroupingSemantics.projectEach list envs)
      (GroupingSemantics.projectEach list' envs') := by
  have halike : List.Forall₂ (Env.Alike p usedByFrame) envs envs' :=
    forall₂_imp_of_mem (forall₂_of_map_eq henvs) fun env henv env' hkeep =>
      ⟨hkeep, hframes env henv⟩
  refine Refines.bind (Refines.mapM halike (Q := SameKept p) fun env env' henv => ?_)
    fun rs rs' hrs => Refines.intro (sameKept_flatten hrs)
  refine Refines.bind (hlist env env' henv) fun els els' hels => Refines.intro ?_
  exact hels env.row env'.row henv.keep_row

end Rules

/-! ## Operators -/

/-- What offers all columns but those of `X`, and uses no more. -/
structure DerivedColumns.Keeps (X : CColRef → Prop) (d d' : DerivedColumns) : Prop where
  output : ∀ c ∈ d.output, ¬X c → c ∈ d'.output
  used : ∀ c ∈ d'.used, c ∈ d.used
  defined : ∀ c ∈ d.defined, ¬X c → c ∈ d'.defined

/-- The other operators: which are relations, the columns that they read or produce, and those that
    a relation uses itself. -/
structure PrunableSemantics (D K W Op : Type) extends GroupingSemantics D K W Op where
  cols : GroupingColumns K W Op
  FLogical : Op → Bool
  PcrsLocalUsed : Op → List CColRef
  /-- `m_returns_set` of a function. -/
  returnsSet : Op → Option Bool
  mentions : Op → List CColRef
  key_used : ∀ k row row', (∀ c ∈ cols.PcrsUsedByKey k, row c = row' c) → key k row = key k row'
  preserves : ∀ (p : CColRef → Prop) [DecidablePred p] pop fs fs', (∀ c ∈ mentions pop, p c) →
    List.Forall₂ (Preserves p cols.PcrsUsedByFrame) fs fs' →
      Preserves p cols.PcrsUsedByFrame (other pop fs) (other pop fs')
  /-- A relation neither uses nor defines columns as a scalar does. -/
  relational : ∀ pop ds, FLogical pop →
    (cols.derive pop ds).used = [] ∧ (cols.derive pop ds).defined = []
  keeps : ∀ X pop ds ds', FLogical pop → List.Forall₂ (DerivedColumns.Keeps X) ds ds' →
    ∀ c ∈ (cols.derive pop ds).output, ¬X c → c ∈ (cols.derive pop ds').output

namespace PrunableSemantics

variable {D K W Op : Type} (S : PrunableSemantics D K W Op) {p : CColRef → Prop} [DecidablePred p]
  {child child' list list' : Env D (RowGroup D W) → Result D}
  {fs fs' : List (Env D (RowGroup D W) → Result D)}

/-- Functions that do the same on the columns of `p`. -/
abbrev Kept (p : CColRef → Prop) [DecidablePred p] : (Env D (RowGroup D W) → Result D) →
    (Env D (RowGroup D W) → Result D) → Prop := Preserves p S.cols.PcrsUsedByFrame

theorem values_refines (h : List.Forall₂ (S.Kept p) fs fs') {env env' : Env D (RowGroup D W)}
    (henv : env.Alike p S.cols.PcrsUsedByFrame env') :
    Refines Eq (fs.mapM fun f => (f env).value?) (fs'.mapM fun f => (f env').value?) :=
  (Refines.mapM h fun _ _ hf => (hf env env' henv).value?).mono fun _ _ hvs =>
    List.forall₂_eq_eq_eq ▸ hvs

theorem elementsEach_refines (h : List.Forall₂ (S.Kept p) fs fs') {env env' : Env D (RowGroup D W)}
    (henv : env.Alike p S.cols.PcrsUsedByFrame env') :
    Refines Eq (fs.mapM fun f => (f env).elements?) (fs'.mapM fun f => (f env').elements?) :=
  (Refines.mapM h fun _ _ hf => (hf env env' henv).elements?).mono fun _ _ hls =>
    List.forall₂_eq_eq_eq ▸ hls

/-- A projection evaluates its list for every row. -/
theorem op_logicalProject (Q : QuerySemantics D (RowGroup D W) (GroupingOp K W Op))
    (env : Env D (RowGroup D W)) :
    Q.op .logicalProject [child, list] env = Result.ofOption ((child env).rows?.bind fun rows =>
      (GroupingSemantics.projectEach list (rows.map fun row => { env with row := row })).bind
        fun projected => some (.relation projected)) := by
  have hmapM : ∀ rows : List (Row D),
      ((rows.map fun row => ({ env with row := row } : Env D (RowGroup D W))).mapM fun env => do
        let els ← (list env).elements?
        some (Query.projectRow els env.row)) =
      (rows.mapM fun row => do
        let l ← (list { env with row := row }).elements?
        some (Query.projectRow l row)) := by
    intro rows
    induction rows with
    | nil => rfl
    | cons row rows ih => rw [List.map_cons, List.mapM_cons, List.mapM_cons, ih]
  refine congrArg Result.ofOption (congrArg (Option.bind _) (funext fun rows => ?_))
  rw [GroupingSemantics.projectEach, hmapM]
  simp only [Option.bind_eq_bind, Option.bind_assoc, Option.bind_some]

theorem logicalProject_preserves (hchild : S.Kept p child child')
    (hlist : PreservesList p S.cols.PcrsUsedByFrame list list')
    (Q : QuerySemantics D (RowGroup D W) (GroupingOp K W Op)) :
    S.Kept p (Q.op .logicalProject [child, list]) (Q.op .logicalProject [child', list']) := by
  intro env env' henv
  rw [op_logicalProject, op_logicalProject]
  refine Result.Preserved.ofOption ((hchild env env' henv).rows?.bind fun rows rows' hrows => ?_)
  refine Refines.bind (projectEach_refines hlist ?_ ?_) fun _ _ h =>
    Refines.intro (Result.Preserved.relation h)
  · have hall := (forall₂_of_map_eq hrows).imp fun row row' hrow => (henv.with_row hrow).keep
    rw [List.map_map, List.map_map]
    exact map_eq_map_of_forall₂ hall fun _ _ _ h => h
  · intro e he
    obtain ⟨row, -, rfl⟩ := List.mem_map.1 he
    exact henv.frames

variable [LinearOrder D]

theorem logicalGbAgg_preserves {popAgg : CLogicalGbAgg} (hcols : ∀ c ∈ popAgg.pdrgpcr, p c)
    (hchild : S.Kept p child child')
    (hlist : PreservesList p S.cols.PcrsUsedByFrame list list') :
    S.Kept p (S.groupingOp (.logicalGbAgg popAgg) [child, list])
      (S.groupingOp (.logicalGbAgg popAgg) [child', list']) := by
  intro env env' henv
  refine Result.Preserved.ofOption ((hchild env env' henv).rows?.bind fun rows rows' hrows => ?_)
  refine Refines.bind (projectEach_refines hlist ?_ ?_) fun _ _ h =>
    Refines.intro (Result.Preserved.relation h)
  · rw [GroupingSemantics.map_keep_groupEnvs hcols, GroupingSemantics.map_keep_groupEnvs hcols,
      hrows, henv.keep_row]
  · intro e he w hw
    obtain ⟨group, -, rfl⟩ := List.mem_map.1 he
    cases hw

theorem logicalSequenceProject_preserves {pop : CLogicalSequenceProject K W}
    (hpop : ∀ c ∈ pop.pcrsLocalUsed S.cols, p c) (hchild : S.Kept p child child')
    (hlist : PreservesList p S.cols.PcrsUsedByFrame list list') :
    S.Kept p (S.groupingOp (.logicalSequenceProject pop) [child, list])
      (S.groupingOp (.logicalSequenceProject pop) [child', list']) := by
  intro env env' henv
  refine Result.Preserved.ofOption ((hchild env env' henv).rows?.bind fun rows rows' hrows => ?_)
  refine Refines.bind (projectEach_refines hlist ?_ ?_) fun _ _ h =>
    Refines.intro (Result.Preserved.relation h)
  · rw [S.map_keep_windowEnvs S.key_used hpop, S.map_keep_windowEnvs S.key_used hpop, hrows]
  · intro e he w hw c hc
    obtain ⟨row, -, rfl⟩ := List.mem_map.1 he
    exact hpop c (List.mem_append_right _ (List.mem_flatMap.2 ⟨w, hw, hc⟩))

/-- **An operator that reads only columns of `p` does the same with children that do the same on
these columns.** -/
theorem op_preserves {pop : QueryOp D (GroupingOp K W Op)}
    (hpop : ∀ c ∈ pop.mentions (GroupingOp.mentions S.cols S.mentions), p c)
    (h : List.Forall₂ (S.Kept p) fs fs') :
    S.Kept p (S.semantics.op pop fs) (S.semantics.op pop fs') := by
  intro env env' henv
  cases pop with
  | scalarIdent colref =>
    rcases h with _ | _
    · exact .inr (congrArg Result.value (henv.row (hpop colref (by simp [QueryOp.mentions]))))
    · exact .inl rfl
  | scalarCmp mdidOp =>
    rcases h with _ | ⟨hleft, _ | ⟨hright, _ | _⟩⟩ <;> try exact .inl rfl
    refine Result.Preserved.ofOption ((hleft env env' henv).value?.bind fun l _ hl => ?_)
    refine (hright env env' henv).value?.bind fun r _ hr => Refines.intro ?_
    exact hl ▸ hr ▸ .refl _
  | scalarBoolOp eboolop =>
    refine Result.Preserved.ofOption ((S.values_refines h henv).bind fun vs _ hvs => ?_)
    exact hvs ▸ Refines.intro (.refl _)
  | scalarProjectList =>
    refine Result.Preserved.ofOption ((S.elementsEach_refines h henv).bind fun ls _ hls => ?_)
    exact hls ▸ Refines.intro (.refl _)
  | scalarProjectElement colref =>
    rcases h with _ | @⟨f, f', _, _, hf, _ | _⟩ <;> try exact .inl rfl
    have hvalue := hf env env' henv
    simp only [QuerySemantics.op]
    obtain hfail | hvalue := hvalue
    · exact .inl (by rw [hfail])
    · cases hfenv : f env <;> cases hfenv' : f' env' <;>
        simp_all [Result.keep, Result.Preserved]
  | scalarSubquery colref b b' =>
    rcases h with _ | ⟨hinner, _ | _⟩ <;> try exact .inl rfl
    refine Result.Preserved.ofOption
      ((hinner env env' henv).rows?.bind fun rows rows' hrows => Refines.intro (.inr ?_))
    have hcolref : p colref := hpop colref (by simp [QueryOp.mentions])
    rw [onlyValue_congr (map_kept_column_congr hcolref hrows id)]
  | scalarSubqueryExists | scalarSubqueryNotExists =>
    rcases h with _ | ⟨hinner, _ | _⟩ <;> try exact .inl rfl
    refine Result.Preserved.ofOption
      ((hinner env env' henv).rows?.bind fun rows rows' hrows => Refines.intro (.inr ?_))
    rw [← List.isEmpty_map, hrows, List.isEmpty_map]
  | scalarSubqueryAny mdidOp colref | scalarSubqueryAll mdidOp colref =>
    rcases h with _ | ⟨hinner, _ | ⟨hleft, _ | _⟩⟩ <;> try exact .inl rfl
    refine Result.Preserved.ofOption ((hinner env env' henv).rows?.bind fun rows rows' hrows => ?_)
    refine (hleft env env' henv).value?.bind fun l _ hl => Refines.intro (.inr ?_)
    have hcolref : p colref := hpop colref (by simp [QueryOp.mentions])
    rw [← hl, map_kept_column_congr hcolref hrows (S.semantics.cmp mdidOp l)]
  | logicalProject =>
    rcases h with _ | ⟨hchild, _ | ⟨hlist, _ | _⟩⟩ <;> try exact .inl rfl
    exact S.logicalProject_preserves hchild hlist.preservesList S.semantics env env' henv
  | logicalConstTableGet out data =>
    refine Result.Preserved.relation ?_
    rw [SameKept, List.map_map, List.map_map]
    exact List.map_congr_left fun vals _ => keep_assign_congr out vals henv.keep_row
  | other pop =>
    cases pop with
    | logicalLimit popLimit =>
      rcases h with _ | ⟨hchild, _ | ⟨hoffset, _ | ⟨hcount, _ | _⟩⟩⟩ <;> try exact .inl rfl
      refine Result.Preserved.ofOption
        ((hchild env env' henv).rows?.bind fun rows rows' hrows => ?_)
      refine (hoffset env env' henv).value?.bind fun o _ ho => ?_
      refine (hcount env env' henv).value?.bind fun k _ hk => ?_
      refine Refines.intro (Result.Preserved.relation ?_)
      rw [SameKept, S.map_keep_limitRows hpop, S.map_keep_limitRows hpop, hrows, ho, hk]
    | logicalGbAgg popAgg =>
      rcases h with _ | ⟨hchild, _ | ⟨hlist, _ | _⟩⟩ <;> try exact .inl rfl
      exact S.logicalGbAgg_preserves hpop hchild hlist.preservesList env env' henv
    | logicalSequenceProject pop =>
      rcases h with _ | ⟨hchild, _ | ⟨hlist, _ | _⟩⟩ <;> try exact .inl rfl
      exact S.logicalSequenceProject_preserves hpop hchild hlist.preservesList env env' henv
    | other pop => exact S.preserves p pop fs fs' hpop h env env' henv

/-- The columns that an expression reads or produces. -/
def mentioned (pexpr : Query D (GroupingOp K W Op)) : List CColRef :=
  pexpr.fold fun pop children =>
    pop.mentions (GroupingOp.mentions S.cols S.mentions) ++ children.flatten

omit [LinearOrder D] in
theorem mentioned_node (pop : QueryOp D (GroupingOp K W Op))
    (l : List (Query D (GroupingOp K W Op))) :
    S.mentioned (.node pop l) =
      pop.mentions (GroupingOp.mentions S.cols S.mentions) ++ l.flatMap S.mentioned := by
  rw [mentioned, CExpression.fold_node, List.flatMap_def]
  rfl

/-- An expression reads no other columns than it mentions. -/
theorem eval_preserves {pexpr : Query D (GroupingOp K W Op)}
    (h : ∀ c ∈ S.mentioned pexpr, p c) :
    S.Kept p (Query.eval S.semantics pexpr) (Query.eval S.semantics pexpr) := by
  induction pexpr using CExpression.induction with
  | node pop l ih =>
    rw [S.mentioned_node] at h
    rw [Query.eval_node]
    refine S.op_preserves (fun c hc => h c (List.mem_append_left _ hc)) ?_
    rw [List.forall₂_map_left_iff, List.forall₂_map_right_iff, List.forall₂_same]
    exact fun e he => ih e he fun c hc =>
      h c (List.mem_append_right _ (List.mem_flatMap.2 ⟨e, he, hc⟩))

end PrunableSemantics

end BossOptimizer

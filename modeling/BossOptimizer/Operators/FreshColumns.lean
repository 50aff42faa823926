import BossOptimizer.Operators.KeptColumns

/-!
# Columns that a query does not mention

A query that mentions only columns below a number does the same whatever the columns from that
number on hold. The rows are compared by keeping the columns below the number.
-/

namespace BossOptimizer

/-- A row without the columns from `n` on. -/
def keepBelow {D : Type} (n : ℕ) (row : Row D) : Row D := fun c => if c.id < n then row c else ⊥

section Rows

variable {D : Type} {n : ℕ}

theorem keepBelow_eq_iff {row row' : Row D} :
    keepBelow n row = keepBelow n row' ↔ ∀ c : CColRef, c.id < n → row c = row' c :=
  keep_eq_iff (p := fun c => c.id < n)

@[simp] theorem keepBelow_keepBelow (row : Row D) :
    keepBelow n (keepBelow n row) = keepBelow n row :=
  keep_keep (p := fun c => c.id < n) row

theorem keepBelow_assign_congr (cols : List CColRef) (vals : List (Datum D)) {row row' : Row D}
    (h : keepBelow n row = keepBelow n row') :
    keepBelow n (assign cols vals row) = keepBelow n (assign cols vals row') :=
  keep_assign_congr (p := fun c => c.id < n) cols vals h

theorem map_keepBelow_projectRow_congr (els : List (CColRef × List (Datum D))) {row row' : Row D}
    (h : keepBelow n row = keepBelow n row') :
    (Query.projectRow els row).map (keepBelow n) =
      (Query.projectRow els row').map (keepBelow n) :=
  map_keep_projectRow_congr (p := fun c => c.id < n) els h

theorem map_column_congr {α : Type} {colref : CColRef} (hcolref : colref.id < n)
    {rows rows' : List (Row D)} (h : rows.map (keepBelow n) = rows'.map (keepBelow n))
    (g : Datum D → α) :
    rows.map (fun row => g (row colref)) = rows'.map fun row => g (row colref) :=
  map_kept_column_congr (p := fun c => c.id < n) hcolref h g

end Rows

/-! ## Results and environments -/

section Below

variable {D W : Type}

def WindowContext.below (n : ℕ) (context : WindowContext D) : WindowContext D :=
  { context with rows := context.rows.map fun p => (keepBelow n p.1, p.2) }

def RowGroup.below (n : ℕ) (group : RowGroup D W) : RowGroup D W :=
  { group with contexts := group.contexts.map (WindowContext.below n) }

def Env.below (n : ℕ) (env : Env D (RowGroup D W)) : Env D (RowGroup D W) :=
  { row := keepBelow n env.row, group := env.group.below n }

def Result.below (n : ℕ) : Result D → Result D
  | .relation rows => .relation (rows.map (keepBelow n))
  | result => result

variable {n : ℕ}

@[simp] theorem Result.value?_below (r : Result D) : (r.below n).value? = r.value? := by
  cases r <;> rfl

@[simp] theorem Result.elements?_below (r : Result D) : (r.below n).elements? = r.elements? := by
  cases r <;> rfl

@[simp] theorem Result.rows?_below (r : Result D) :
    (r.below n).rows? = r.rows?.map (List.map (keepBelow n)) := by
  cases r <;> rfl

@[simp] theorem Result.below_ofOption (o : Option (Result D)) :
    (ofOption o).below n = ofOption (o.map (below n)) := by
  cases o <;> rfl

/-- Two results that are computed from rows in the same way. -/
theorem below_ofOption_bind {rows rows' : Option (List (Row D))}
    (hrows : rows.map (List.map (keepBelow n)) = rows'.map (List.map (keepBelow n)))
    {g g' : List (Row D) → Option (Result D)}
    (h : ∀ rows rows', rows.map (keepBelow n) = rows'.map (keepBelow n) →
      (g rows).map (Result.below n) = (g' rows').map (Result.below n)) :
    (Result.ofOption (rows.bind g)).below n = (Result.ofOption (rows'.bind g')).below n := by
  rw [Result.below_ofOption, Result.below_ofOption]
  cases rows <;> cases rows' <;> simp only [Option.map_none, Option.map_some, reduceCtorEq,
    Option.some.injEq] at hrows
  · rfl
  · exact congrArg _ (h _ _ hrows)

theorem map_relation_congr {o o' : Option (List (Row D))}
    (h : o.map (List.map (keepBelow n)) = o'.map (List.map (keepBelow n))) :
    (o.bind fun rows => some (Result.relation rows)).map (Result.below n) =
      (o'.bind fun rows => some (Result.relation rows)).map (Result.below n) := by
  cases o <;> cases o' <;> simp only [Option.map_none, Option.map_some, reduceCtorEq,
    Option.some.injEq] at h
  · rfl
  · exact congrArg (some ∘ Result.relation) h

theorem map_flatten_congr {o o' : Option (List (List (Row D)))}
    (h : o.map (List.map (List.map (keepBelow n))) = o'.map (List.map (List.map (keepBelow n)))) :
    (o.bind fun l => some l.flatten).map (List.map (keepBelow n)) =
      (o'.bind fun l => some l.flatten).map (List.map (keepBelow n)) := by
  cases o <;> cases o' <;> simp only [Option.map_none, Option.map_some, reduceCtorEq,
    Option.some.injEq] at h
  · rfl
  · exact congrArg some (by rw [List.map_flatten, List.map_flatten, h])

/-- Environments with the same columns below `n`, whose frames mention no other columns. -/
structure Env.Agree (usedByFrame : W → List CColRef) (n : ℕ)
    (env env' : Env D (RowGroup D W)) : Prop where
  below : env.below n = env'.below n
  frames : ∀ w ∈ env.group.frames, ∀ c ∈ usedByFrame w, c.id < n

/-- Expressions with the same results, for the columns below `n`. -/
def Blind (usedByFrame : W → List CColRef) (n : ℕ) (f f' : Env D (RowGroup D W) → Result D) :
    Prop :=
  ∀ env env', Env.Agree usedByFrame n env env' → (f env).below n = (f' env').below n

variable {usedByFrame : W → List CColRef} {f f' f'' : Env D (RowGroup D W) → Result D}
  {env env' : Env D (RowGroup D W)}

namespace Env.Agree

theorem refl (h : ∀ w ∈ env.group.frames, ∀ c ∈ usedByFrame w, c.id < n) :
    Agree usedByFrame n env env := ⟨rfl, h⟩

theorem keepBelow_row (h : Agree usedByFrame n env env') :
    keepBelow n env.row = keepBelow n env'.row := congrArg Env.row h.below

theorem row (h : Agree usedByFrame n env env') {c : CColRef} (hc : c.id < n) :
    env.row c = env'.row c :=
  keepBelow_eq_iff.1 h.keepBelow_row c hc

theorem with_row (h : Agree usedByFrame n env env') {row row' : Row D}
    (hrow : keepBelow n row = keepBelow n row') :
    Agree usedByFrame n { env with row := row } { env' with row := row' } := by
  refine ⟨?_, h.frames⟩
  rw [Env.below, Env.below, hrow]
  exact congrArg (Env.mk _) (congrArg Env.group h.below)

end Env.Agree

namespace Blind

theorem value? (h : Blind usedByFrame n f f') (henv : env.Agree usedByFrame n env') :
    (f env).value? = (f' env').value? := by
  rw [← Result.value?_below, h env env' henv, Result.value?_below]

theorem elements? (h : Blind usedByFrame n f f') (henv : env.Agree usedByFrame n env') :
    (f env).elements? = (f' env').elements? := by
  rw [← Result.elements?_below, h env env' henv, Result.elements?_below]

theorem rows? (h : Blind usedByFrame n f f') (henv : env.Agree usedByFrame n env') :
    (f env).rows?.map (List.map (keepBelow n)) = (f' env').rows?.map (List.map (keepBelow n)) := by
  rw [← Result.rows?_below, h env env' henv, Result.rows?_below]

end Blind

end Below

/-! ## Operators commute with the restriction -/

namespace GroupingSemantics

variable {D K W Op : Type} (S : GroupingSemantics D K W Op) {n : ℕ}

theorem map_keepBelow_limitRows {popLimit : CLogicalLimit}
    (hpos : ∀ c ∈ popLimit.pos.PcrsUsed, c.id < n) (offset count : Option ℤ)
    (rows : List (Row D)) :
    (S.limitRows popLimit offset count rows).map (keepBelow n) =
      S.limitRows popLimit offset count (rows.map (keepBelow n)) :=
  S.map_keep_limitRows (p := fun c => c.id < n) hpos offset count rows

end GroupingSemantics

/-! ## Operators are blind -/

/-- The columns that an operator reads or produces. -/
def QueryOp.mentions {D Op : Type} (mentions : Op → List CColRef) : QueryOp D Op → List CColRef
  | .scalarIdent colref => [colref]
  | .scalarProjectElement colref => [colref]
  | .scalarSubquery colref _ _ => [colref]
  | .scalarSubqueryAny _ colref => [colref]
  | .scalarSubqueryAll _ colref => [colref]
  | .logicalConstTableGet out _ => out
  | .other pop => mentions pop
  | _ => []

def GroupingOp.mentions {K W Op : Type} (cols : GroupingColumns K W Op)
    (mentions : Op → List CColRef) : GroupingOp K W Op → List CColRef
  | .logicalLimit popLimit => popLimit.pos.PcrsUsed
  | .logicalGbAgg popAgg => popAgg.pdrgpcr
  | .logicalSequenceProject pop => pop.pcrsLocalUsed cols
  | .other pop => mentions pop

/-- Operators that touch only the columns they mention, and whose derived columns are right. -/
structure ColumnarSemantics (D K W Op : Type) extends GroupingSemantics D K W Op where
  cols : GroupingColumns K W Op
  mentions : Op → List CColRef
  key_used : ∀ k row row', (∀ c ∈ cols.PcrsUsedByKey k, row c = row' c) → key k row = key k row'
  blind : ∀ n pop fs fs', (∀ c ∈ mentions pop, c.id < n) →
    List.Forall₂ (Blind cols.PcrsUsedByFrame n) fs fs' →
      Blind cols.PcrsUsedByFrame n (other pop fs) (other pop fs')
  carries : ∀ pop ds fs, List.Forall₂ Carries ds fs → Carries (cols.derive pop ds) (other pop fs)
  narrows : ∀ pop ds ds', List.Forall₂ DerivedColumns.Narrows ds ds' →
    (cols.derive pop ds).Narrows (cols.derive pop ds')

namespace ColumnarSemantics

variable {D K W Op : Type} (S : ColumnarSemantics D K W Op) {n : ℕ}

attribute [local simp] QueryOp.mentions in
theorem projectEach_blind {list list' : Env D (RowGroup D W) → Result D}
    (hlist : Blind S.cols.PcrsUsedByFrame n list list')
    {envs envs' : List (Env D (RowGroup D W))}
    (henvs : envs.map (Env.below n) = envs'.map (Env.below n))
    (hframes : ∀ env ∈ envs, ∀ w ∈ env.group.frames, ∀ c ∈ S.cols.PcrsUsedByFrame w, c.id < n) :
    (GroupingSemantics.projectEach list envs).map (List.map (keepBelow n)) =
      (GroupingSemantics.projectEach list' envs').map (List.map (keepBelow n)) := by
  refine map_flatten_congr (mapM_image henvs fun env henv env' hbelow => ?_)
  have hagree : env.Agree S.cols.PcrsUsedByFrame n env' := ⟨hbelow, hframes env henv⟩
  rw [hlist.elements? hagree]
  cases (list' env').elements? with
  | none => rfl
  | some els => exact congrArg some (map_keepBelow_projectRow_congr els hagree.keepBelow_row)

variable {fs fs' : List (Env D (RowGroup D W) → Result D)}

theorem values_blind (h : List.Forall₂ (Blind S.cols.PcrsUsedByFrame n) fs fs')
    {env env' : Env D (RowGroup D W)} (henv : env.Agree S.cols.PcrsUsedByFrame n env') :
    (fs.mapM fun f => (f env).value?) = fs'.mapM fun f => (f env').value? := by
  induction h with
  | nil => rfl
  | cons hf _ ih => rw [List.mapM_cons, List.mapM_cons, hf.value? henv, ih]

theorem elementsEach_blind (h : List.Forall₂ (Blind S.cols.PcrsUsedByFrame n) fs fs')
    {env env' : Env D (RowGroup D W)} (henv : env.Agree S.cols.PcrsUsedByFrame n env') :
    (fs.mapM fun f => (f env).elements?) = fs'.mapM fun f => (f env').elements? := by
  induction h with
  | nil => rfl
  | cons hf _ ih => rw [List.mapM_cons, List.mapM_cons, hf.elements? henv, ih]

variable [LinearOrder D]

theorem map_below_groupEnvs {pdrgpcr : List CColRef} (hcols : ∀ c ∈ pdrgpcr, c.id < n)
    (outer : Row D) (rows : List (Row D)) :
    ((GroupingSemantics.groups pdrgpcr outer rows).map fun group =>
        ({ row := group.1, group := GroupingSemantics.aggregated group.2 } :
          Env D (RowGroup D W))).map (Env.below n) =
      (GroupingSemantics.groups pdrgpcr (keepBelow n outer) (rows.map (keepBelow n))).map
        fun group => { row := group.1, group := GroupingSemantics.aggregated group.2 } :=
  GroupingSemantics.map_keep_groupEnvs (p := fun c => c.id < n) hcols outer rows

theorem map_below_windowEnvs {pop : CLogicalSequenceProject K W}
    (hpop : ∀ c ∈ pop.pcrsLocalUsed S.cols, c.id < n) (rows : List (Row D)) :
    (rows.map fun row =>
        ({ row := row, group := S.windowed pop rows row } : Env D (RowGroup D W))).map
        (Env.below n) =
      (rows.map (keepBelow n)).map fun row =>
        { row := row, group := S.windowed pop (rows.map (keepBelow n)) row } :=
  S.map_keep_windowEnvs (p := fun c => c.id < n) S.key_used hpop rows

theorem groupingOp_blind {pop : GroupingOp K W Op}
    (hpop : ∀ c ∈ pop.mentions S.cols S.mentions, c.id < n)
    (h : List.Forall₂ (Blind S.cols.PcrsUsedByFrame n) fs fs') :
    Blind S.cols.PcrsUsedByFrame n (S.groupingOp pop fs) (S.groupingOp pop fs') := by
  intro env env' henv
  cases pop with
  | logicalLimit popLimit =>
    rcases h with _ | ⟨hchild, _ | ⟨hoffset, _ | ⟨hcount, _ | _⟩⟩⟩ <;> try rfl
    rw [GroupingSemantics.groupingOp, GroupingSemantics.groupingOp, hoffset.value? henv,
      hcount.value? henv]
    refine below_ofOption_bind (hchild.rows? henv) fun rows rows' hrows => ?_
    generalize (_ : Result D).value? = o, (_ : Result D).value? = k
    rcases o with _ | o <;> rcases k with _ | k <;> try rfl
    refine congrArg (some ∘ Result.relation) ?_
    rw [S.map_keepBelow_limitRows hpop, S.map_keepBelow_limitRows hpop, hrows]
  | logicalGbAgg popAgg =>
    rcases h with _ | ⟨hchild, _ | ⟨hlist, _ | _⟩⟩ <;> try rfl
    refine below_ofOption_bind (hchild.rows? henv) fun rows rows' hrows => ?_
    refine map_relation_congr (S.projectEach_blind hlist ?_ ?_)
    · have hcols : ∀ c ∈ popAgg.pdrgpcr, c.id < n := hpop
      rw [map_below_groupEnvs hcols, map_below_groupEnvs hcols, hrows, henv.keepBelow_row]
    · intro e he w hw
      obtain ⟨group, -, rfl⟩ := List.mem_map.1 he
      cases hw
  | logicalSequenceProject pop =>
    rcases h with _ | ⟨hchild, _ | ⟨hlist, _ | _⟩⟩ <;> try rfl
    refine below_ofOption_bind (hchild.rows? henv) fun rows rows' hrows => ?_
    refine map_relation_congr (S.projectEach_blind hlist ?_ ?_)
    · rw [S.map_below_windowEnvs hpop, S.map_below_windowEnvs hpop, hrows]
    · intro e he w hw c hc
      obtain ⟨row, -, rfl⟩ := List.mem_map.1 he
      exact hpop c (List.mem_append_right _ (List.mem_flatMap.2 ⟨w, hw, hc⟩))
  | other pop => exact S.blind n pop fs fs' hpop h env env' henv

/-- What an expression computes from columns below `n` does not depend on the other columns. -/
theorem op_blind {pop : QueryOp D (GroupingOp K W Op)}
    (hpop : ∀ c ∈ pop.mentions (GroupingOp.mentions S.cols S.mentions), c.id < n)
    (h : List.Forall₂ (Blind S.cols.PcrsUsedByFrame n) fs fs') :
    Blind S.cols.PcrsUsedByFrame n (S.semantics.op pop fs) (S.semantics.op pop fs') := by
  intro env env' henv
  cases pop with
  | scalarIdent colref =>
    rcases h with _ | _
    · exact congrArg Result.value (henv.row (hpop colref (by simp [QueryOp.mentions])))
    · rfl
  | scalarCmp mdidOp =>
    rcases h with _ | ⟨hleft, _ | ⟨hright, _ | _⟩⟩ <;> try rfl
    rw [QuerySemantics.op, QuerySemantics.op, hleft.value? henv, hright.value? henv]
  | scalarBoolOp eboolop =>
    rw [QuerySemantics.op, QuerySemantics.op, S.values_blind h henv]
  | scalarProjectList =>
    rw [QuerySemantics.op, QuerySemantics.op, S.elementsEach_blind h henv]
  | scalarProjectElement colref =>
    rcases h with _ | @⟨f, f', _, _, hf, _ | _⟩ <;> try rfl
    have hvalue := hf env env' henv
    simp only [QuerySemantics.op]
    cases hfenv : f env <;> cases hfenv' : f' env' <;>
      simp_all [Result.below]
  | scalarSubquery colref b b' =>
    rcases h with _ | ⟨hinner, _ | _⟩ <;> try rfl
    refine below_ofOption_bind (hinner.rows? henv) fun rows rows' hrows => ?_
    have hcolref : colref.id < n := hpop colref (by simp [QueryOp.mentions])
    rw [onlyValue_congr (map_column_congr hcolref hrows id)]
  | scalarSubqueryExists | scalarSubqueryNotExists =>
    rcases h with _ | ⟨hinner, _ | _⟩ <;> try rfl
    refine below_ofOption_bind (hinner.rows? henv) fun rows rows' hrows => ?_
    have hempty : rows.isEmpty = rows'.isEmpty := by
      rw [← List.isEmpty_map, hrows, List.isEmpty_map]
    rw [hempty]
  | scalarSubqueryAny mdidOp colref =>
    rcases h with _ | ⟨hinner, _ | ⟨hleft, _ | _⟩⟩ <;> try rfl
    rw [QuerySemantics.op, QuerySemantics.op, hleft.value? henv]
    refine below_ofOption_bind (hinner.rows? henv) fun rows rows' hrows => ?_
    have hcolref : colref.id < n := hpop colref (by simp [QueryOp.mentions])
    refine congrArg _ (bind_congr fun l => ?_)
    exact congrArg (fun ts => some (Result.value (S.ofTruth (Truth.any ts))))
      (map_column_congr hcolref hrows (S.cmp mdidOp l))
  | scalarSubqueryAll mdidOp colref =>
    rcases h with _ | ⟨hinner, _ | ⟨hleft, _ | _⟩⟩ <;> try rfl
    rw [QuerySemantics.op, QuerySemantics.op, hleft.value? henv]
    refine below_ofOption_bind (hinner.rows? henv) fun rows rows' hrows => ?_
    have hcolref : colref.id < n := hpop colref (by simp [QueryOp.mentions])
    refine congrArg _ (bind_congr fun l => ?_)
    exact congrArg (fun ts => some (Result.value (S.ofTruth (Truth.all ts))))
      (map_column_congr hcolref hrows (S.cmp mdidOp l))
  | logicalProject =>
    rcases h with _ | ⟨hchild, _ | @⟨list, list', _, _, hlist, _ | _⟩⟩ <;> try rfl
    refine below_ofOption_bind (hchild.rows? henv) fun rows rows' hrows => ?_
    have heach : ∀ row row', keepBelow n row = keepBelow n row' →
        ((list { env with row := row }).elements?.bind fun els =>
            some (Query.projectRow els row)).map (List.map (keepBelow n)) =
          ((list' { env' with row := row' }).elements?.bind fun els =>
            some (Query.projectRow els row')).map (List.map (keepBelow n)) := by
      intro row row' hrow
      rw [hlist.elements? (henv.with_row hrow)]
      cases (list' { env' with row := row' }).elements? with
      | none => rfl
      | some els => exact congrArg some (map_keepBelow_projectRow_congr els hrow)
    have hprojected := map_relation_congr (map_flatten_congr
      (mapM_image hrows fun row _ row' => heach row row'))
    simpa [Option.bind_assoc] using hprojected
  | logicalConstTableGet out data =>
    refine congrArg Result.relation ?_
    rw [List.map_map, List.map_map]
    exact List.map_congr_left fun vals _ => keepBelow_assign_congr out vals henv.keepBelow_row
  | other pop => exact S.groupingOp_blind hpop h env env' henv

end ColumnarSemantics

end BossOptimizer

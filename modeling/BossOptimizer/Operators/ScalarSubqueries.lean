import BossOptimizer.Operators.QueryColumns

/-!
# Scalar subqueries over constant tables

`PexprUnnestScalarSubqueries` (CExpressionPreprocessor.cpp:262) removes a scalar subquery over a
constant table in two shapes: one that returns an outer column becomes the identifier of that
column, and one whose project list is a single inner subquery is replaced by the inner subquery. The
rows of the constant table are not looked at.
-/

namespace BossOptimizer

namespace Query

variable {D G Op : Type}

/-! ## The tests -/

def FScalarSubquery : Query D Op → Bool
  | .node (.scalarSubquery ..) _ => true
  | _ => false

def FScalarIdent : Query D Op → Bool
  | .node (.scalarIdent _) _ => true
  | _ => false

/-- `CUtils::FProjectConstTableWithOneScalarSubq` (CUtils.cpp:1239): the columns of the constant
    table and the subquery of the project element. -/
def projectConstTableWithOneScalarSubq : Query D Op → Option (List CColRef × Query D Op)
  | .node .logicalProject [.node (.logicalConstTableGet out _) _,
      .node .scalarProjectList [.node (.scalarProjectElement _) [pexprInnerSubq]]] =>
    if FScalarSubquery pexprInnerSubq then some (out, pexprInnerSubq) else none
  | _ => none

variable (derive : Op → List DerivedColumns → DerivedColumns)

/-- The outer references of the relation of a subquery. -/
def relationOuterRefs : Query D Op → List CColRef
  | .node _ (pexpr :: _) => DeriveOuterReferences derive pexpr
  | _ => []

/-- The inner subquery that a scalar subquery is replaced by. -/
def innerSubquery : Query D Op → Option (Query D Op)
  | .node (.scalarSubquery ..) [pexprSubqChild] =>
    match projectConstTableWithOneScalarSubq pexprSubqChild with
    | some (pcrsConstTableOutput, pexprInnerSubq) =>
      let outer_refs := relationOuterRefs derive pexprInnerSubq
      if outer_refs.length == 0 || outer_refs.all (· ∉ pcrsConstTableOutput) then
        some pexprInnerSubq
      else none
    | none => none
  | _ => none

variable {pexpr pexprInnerSubq : Query D Op}

theorem projectConstTable_eq_some {out : List CColRef}
    (h : projectConstTableWithOneScalarSubq pexpr = some (out, pexprInnerSubq)) :
    FScalarSubquery pexprInnerSubq = true ∧ ∃ data l colref,
      pexpr = .node .logicalProject [.node (.logicalConstTableGet out data) l,
        .node .scalarProjectList [.node (.scalarProjectElement colref) [pexprInnerSubq]]] := by
  unfold projectConstTableWithOneScalarSubq at h
  split at h
  · split_ifs at h with hsubq
    cases h
    exact ⟨hsubq, _, _, _, rfl⟩
  · cases h

theorem innerSubquery_eq_some (h : innerSubquery derive pexpr = some pexprInnerSubq) :
    FScalarSubquery pexprInnerSubq = true ∧ ∃ c b b' out data l colref,
      pexpr = .node (.scalarSubquery c b b')
        [.node .logicalProject [.node (.logicalConstTableGet out data) l,
          .node .scalarProjectList [.node (.scalarProjectElement colref) [pexprInnerSubq]]]] := by
  unfold innerSubquery at h
  split at h
  · rename_i c b b' child
    cases hchild : projectConstTableWithOneScalarSubq child with
    | none => simp [hchild] at h
    | some p =>
      obtain ⟨out, inner⟩ := p
      simp only [hchild, Option.ite_none_right_eq_some, Option.some.injEq] at h
      obtain ⟨hsubq, data, l, colref, rfl⟩ := projectConstTable_eq_some hchild
      obtain ⟨-, rfl⟩ := h
      exact ⟨hsubq, c, b, b', out, data, l, colref, rfl⟩
  · cases h

theorem depth_innerSubquery_lt (h : innerSubquery derive pexpr = some pexprInnerSubq) :
    pexprInnerSubq.depth < pexpr.depth := by
  obtain ⟨-, c, b, b', out, data, l, colref, rfl⟩ := innerSubquery_eq_some derive h
  refine (CExpression.depth_lt (List.mem_singleton_self _)).trans <|
    (CExpression.depth_lt (List.mem_singleton_self _)).trans <|
    (CExpression.depth_lt (List.mem_cons_of_mem _ (List.mem_singleton_self _))).trans <|
    CExpression.depth_lt (List.mem_singleton_self _)

/-! ## The pass -/

theorem depth_node_le {pop : QueryOp D Op} {l l' : List (Query D Op)}
    (h : ∀ e ∈ l, ∃ e' ∈ l', e.depth ≤ e'.depth) :
    CExpression.depth (.node pop l) ≤ CExpression.depth (.node pop l') :=
  @CExpression.depth_le_of_forall _ pop pop l l' 0 h

theorem depth_singleton_le {pop : QueryOp D Op} {e e' : Query D Op} (h : e.depth ≤ e'.depth) :
    CExpression.depth (.node pop [e]) ≤ CExpression.depth (.node pop [e']) :=
  depth_node_le fun x hx => ⟨e', List.mem_singleton_self _, by
    cases List.mem_singleton.1 hx
    exact h⟩

/-- `PexprUnnestScalarSubqueries` (CExpressionPreprocessor.cpp:262), with the fact that it returns
    nothing higher than it is called for: it is called again on a part of what it returned. -/
def unnestScalarSubqueries (pexpr : Query D Op) : {e : Query D Op // e.depth ≤ pexpr.depth} :=
  match pexpr with
  | .node (.scalarProjectElement colref) [.node (.scalarSubquery c b b') l] =>
    let pexprSubq := unnestScalarSubqueries (.node (.scalarSubquery c b b') l)
    if FScalarIdent pexprSubq.1 then
      ⟨.node (.scalarProjectElement colref) [pexprSubq.1], depth_singleton_le pexprSubq.2⟩
    else
      match h : innerSubquery derive pexprSubq.1 with
      | some pexprInnerSubq =>
        have hlt := (depth_innerSubquery_lt derive h).trans_le pexprSubq.2
        let pexprUnnestedSubq := unnestScalarSubqueries pexprInnerSubq
        ⟨.node (.scalarProjectElement colref) [pexprUnnestedSubq.1],
          depth_singleton_le (pexprUnnestedSubq.2.trans hlt.le)⟩
      | none =>
        ⟨.node (.scalarProjectElement colref) [pexprSubq.1], depth_singleton_le pexprSubq.2⟩
  | .node (.scalarSubquery c b b') [.node (.logicalConstTableGet out data) l] =>
    if c ∉ out then ⟨.node (.scalarIdent c) [], by
      rw [CExpression.depth_node]
      exact CExpression.depth_pos _⟩
    else
      let pexprChild := unnestScalarSubqueries (.node (.logicalConstTableGet out data) l)
      ⟨.node (.scalarSubquery c b b') [pexprChild.1], depth_singleton_le pexprChild.2⟩
  | .node pop l =>
    ⟨.node pop (l.attach.map fun e => (unnestScalarSubqueries e.1).1),
      depth_node_le fun x hx => by
        obtain ⟨e, -, rfl⟩ := List.mem_map.1 hx
        exact ⟨e.1, e.2, (unnestScalarSubqueries e.1).2⟩⟩
termination_by pexpr.depth
decreasing_by
  · exact CExpression.depth_lt (List.mem_singleton_self _)
  · exact hlt.trans (CExpression.depth_lt (List.mem_singleton_self _))
  · exact CExpression.depth_lt (List.mem_singleton_self _)
  all_goals exact CExpression.depth_lt (Subtype.property _)

def PexprUnnestScalarSubqueries (pexpr : Query D Op) : Query D Op :=
  (unnestScalarSubqueries derive pexpr).1

section Equations

variable {derive}

theorem pexprUnnest_projectElement (colref c : CColRef) (b b' : Bool) (l : List (Query D Op)) :
    PexprUnnestScalarSubqueries derive
        (.node (.scalarProjectElement colref) [.node (.scalarSubquery c b b') l]) =
      let pexprSubq := PexprUnnestScalarSubqueries derive (.node (.scalarSubquery c b b') l)
      .node (.scalarProjectElement colref) [if FScalarIdent pexprSubq then pexprSubq else
        match innerSubquery derive pexprSubq with
        | some pexprInnerSubq => PexprUnnestScalarSubqueries derive pexprInnerSubq
        | none => pexprSubq] := by
  rw [PexprUnnestScalarSubqueries, unnestScalarSubqueries]
  dsimp only
  split
  · rename_i hident
    rw [if_pos (by exact hident)]
    rfl
  · rename_i hident
    rw [if_neg (by exact hident)]
    split
    · rename_i e he
      simp only [PexprUnnestScalarSubqueries, he]
    · rename_i he
      simp only [PexprUnnestScalarSubqueries, he]

theorem pexprUnnest_constTable (c : CColRef) (b b' : Bool) (out : List CColRef)
    (data : List (List (Datum D))) (l : List (Query D Op)) :
    PexprUnnestScalarSubqueries derive
        (.node (.scalarSubquery c b b') [.node (.logicalConstTableGet out data) l]) =
      if c ∉ out then .node (.scalarIdent c) [] else
        .node (.scalarSubquery c b b') [PexprUnnestScalarSubqueries derive
          (.node (.logicalConstTableGet out data) l)] := by
  rw [PexprUnnestScalarSubqueries, unnestScalarSubqueries]
  split_ifs <;> rfl

/-- The expressions that the pass only recurses into. -/
structure NoPattern (pop : QueryOp D Op) (l : List (Query D Op)) : Prop where
  element : ∀ colref c b b' l', pop = .scalarProjectElement colref →
    l ≠ [.node (.scalarSubquery c b b') l']
  constTable : ∀ c b b' out data l', pop = .scalarSubquery c b b' →
    l ≠ [.node (.logicalConstTableGet out data) l']

theorem pexprUnnest_node {pop : QueryOp D Op} {l : List (Query D Op)} (h : NoPattern pop l) :
    PexprUnnestScalarSubqueries derive (.node pop l) =
      .node pop (l.map (PexprUnnestScalarSubqueries derive)) := by
  rw [PexprUnnestScalarSubqueries, unnestScalarSubqueries]
  · simp [PexprUnnestScalarSubqueries]
  · exact fun colref c b b' l' hpop hl => h.element colref c b b' l' hpop hl
  · exact fun c b b' out data l' hpop hl => h.constTable c b b' out data l' hpop hl

theorem NoPattern.of_pop {pop : QueryOp D Op} {l : List (Query D Op)}
    (helement : ∀ colref, pop ≠ .scalarProjectElement colref)
    (hconst : ∀ c b b', pop ≠ .scalarSubquery c b b') : NoPattern pop l :=
  ⟨fun colref _ _ _ _ h => absurd h (helement colref),
    fun c b b' _ _ _ h => absurd h (hconst c b b')⟩

/-- The three branches of the pass. -/
inductive UnnestCase : QueryOp D Op → List (Query D Op) → Prop
  | element (colref c : CColRef) (b b' : Bool) (l : List (Query D Op)) :
    UnnestCase (.scalarProjectElement colref) [.node (.scalarSubquery c b b') l]
  | constTable (c : CColRef) (b b' : Bool) (out : List CColRef) (data : List (List (Datum D)))
      (l : List (Query D Op)) :
    UnnestCase (.scalarSubquery c b b') [.node (.logicalConstTableGet out data) l]
  | children {pop : QueryOp D Op} {l : List (Query D Op)} (h : NoPattern pop l) : UnnestCase pop l

theorem unnestCase (pop : QueryOp D Op) (l : List (Query D Op)) : UnnestCase pop l := by
  by_cases helement : ∃ colref c b b' l', pop = .scalarProjectElement colref ∧
      l = [.node (.scalarSubquery c b b') l']
  · obtain ⟨colref, c, b, b', l', rfl, rfl⟩ := helement
    exact .element ..
  by_cases hconst : ∃ c b b' out data l', pop = .scalarSubquery c b b' ∧
      l = [.node (.logicalConstTableGet out data) l']
  · obtain ⟨c, b, b', out, data, l', rfl, rfl⟩ := hconst
    exact .constTable ..
  · exact .children ⟨fun colref c b b' l' h h' => helement ⟨colref, c, b, b', l', h, h'⟩,
      fun c b b' out data l' h h' => hconst ⟨c, b, b', out, data, l', h, h'⟩⟩

/-! ## A second pass changes nothing -/

/-- The operator stays, unless the subquery becomes an identifier. -/
theorem pop_pexprUnnest (pexpr : Query D Op) :
    (PexprUnnestScalarSubqueries derive pexpr).Pop = pexpr.Pop ∨
      FScalarIdent (PexprUnnestScalarSubqueries derive pexpr) = true := by
  obtain ⟨pop, l⟩ := pexpr
  cases unnestCase pop l with
  | element colref c b b' l =>
    rw [pexprUnnest_projectElement]
    exact .inl rfl
  | constTable c b b' out data l =>
    rw [pexprUnnest_constTable]
    by_cases hout : c ∉ out
    · rw [if_pos hout]
      exact .inr rfl
    · rw [if_neg hout]
      exact .inl rfl
  | children h =>
    rw [pexprUnnest_node h]
    exact .inl rfl

theorem pop_of_pexprUnnest_eq {pexpr : Query D Op} {pop : QueryOp D Op} {l : List (Query D Op)}
    (h : PexprUnnestScalarSubqueries derive pexpr = .node pop l)
    (hpop : ∀ colref, pop ≠ .scalarIdent colref) : pexpr.Pop = pop := by
  rcases pop_pexprUnnest pexpr with hsame | hident
  · rw [← hsame, h]
    rfl
  · rw [h] at hident
    cases pop with
    | scalarIdent colref => exact absurd rfl (hpop colref)
    | _ => cases hident

theorem fScalarSubquery_iff {pexpr : Query D Op} :
    FScalarSubquery pexpr = true ↔ ∃ c b b' l, pexpr = .node (.scalarSubquery c b b') l := by
  obtain ⟨pop, l⟩ := pexpr
  cases pop <;> simp [FScalarSubquery]

/-- What is taken out of an expression that the pass leaves alone is left alone too, and nothing can
    be taken out of it. -/
theorem innerSubquery_settled {pexpr pexprInnerSubq : Query D Op}
    (hsettled : PexprUnnestScalarSubqueries derive pexpr = pexpr)
    (h : innerSubquery derive pexpr = some pexprInnerSubq) :
    PexprUnnestScalarSubqueries derive pexprInnerSubq = pexprInnerSubq ∧
      innerSubquery derive pexprInnerSubq = none := by
  obtain ⟨hsubq, c₀, b₀, b₀', out, data, l, colref, rfl⟩ := innerSubquery_eq_some derive h
  obtain ⟨c, b, b', l', rfl⟩ := fScalarSubquery_iff.1 hsubq
  -- the operators on the way down are not those the pass looks for
  rw [pexprUnnest_node ⟨by simp, by simp⟩, List.map_singleton] at hsettled
  simp only [CExpression.node.injEq, List.cons.injEq, true_and, and_true] at hsettled
  have hproject := hsettled
  rw [pexprUnnest_node (.of_pop (by simp) (by simp))] at hproject
  simp only [List.map_cons, List.map_nil, CExpression.node.injEq, List.cons.injEq,
    true_and, and_true] at hproject
  have hlist := hproject.2
  rw [pexprUnnest_node (.of_pop (by simp) (by simp))] at hlist
  simp only [List.map_cons, List.map_nil, CExpression.node.injEq, List.cons.injEq,
    true_and, and_true] at hlist
  rw [pexprUnnest_projectElement] at hlist
  simp only [CExpression.node.injEq, List.cons.injEq, true_and, and_true] at hlist
  have hheight := (unnestScalarSubqueries derive (.node (.scalarSubquery c b b') l')).2
  split_ifs at hlist with hident
  · rw [hlist] at hident
    cases hident
  · split at hlist
    · rename_i e he
      have hlower := depth_innerSubquery_lt derive he
      have hsame := (unnestScalarSubqueries derive e).2
      have heq : (unnestScalarSubqueries derive e).1 = .node (.scalarSubquery c b b') l' := hlist
      have hle : (PexprUnnestScalarSubqueries derive
        (.node (.scalarSubquery c b b') l')).depth ≤ _ := hheight
      rw [heq] at hsame
      omega
    · rename_i hnone
      rw [hlist] at hnone
      exact ⟨hlist, hnone⟩

theorem pexprUnnest_pexprUnnest (pexpr : Query D Op) :
    PexprUnnestScalarSubqueries derive (PexprUnnestScalarSubqueries derive pexpr) =
      PexprUnnestScalarSubqueries derive pexpr := by
  induction pexpr using CExpression.induction with
  | node pop l ih =>
    cases unnestCase pop l with
    | element colref c b b' l =>
      have hsubq := ih _ (List.mem_singleton_self _)
      rw [pexprUnnest_projectElement]
      generalize hp : PexprUnnestScalarSubqueries derive (.node (.scalarSubquery c b b') l) = p
        at hsubq
      dsimp only
      -- a subquery that stays is met again by the second pass
      have hagain : ∀ {e : Query D Op}, PexprUnnestScalarSubqueries derive e = e →
          FScalarSubquery e = true → innerSubquery derive e = none →
          PexprUnnestScalarSubqueries derive (.node (.scalarProjectElement colref) [e]) =
            .node (.scalarProjectElement colref) [e] := fun he hsubq hnone => by
        obtain ⟨c', d, d', l', rfl⟩ := fScalarSubquery_iff.1 hsubq
        rw [pexprUnnest_projectElement, he]
        dsimp only
        rw [hnone, ite_self]
      by_cases hident : FScalarIdent p = true
      · rw [if_pos hident, pexprUnnest_node, List.map_singleton, hsubq]
        refine ⟨fun colref' c' d d' l' _ hl => ?_, by simp⟩
        cases hl
        cases hident
      · rw [if_neg hident]
        cases hinner : innerSubquery derive p with
        | some pexprInnerSubq =>
          obtain ⟨hsettled, hnone⟩ := innerSubquery_settled hsubq hinner
          dsimp only
          rw [hsettled]
          exact hagain hsettled (innerSubquery_eq_some derive hinner).1 hnone
        | none =>
          refine hagain hsubq ?_ hinner
          obtain ⟨pop, l'⟩ := p
          rcases pop_pexprUnnest (.node (.scalarSubquery c b b') l) with h | h
          · rw [hp] at h
            cases h
            rfl
          · exact absurd (hp ▸ h) hident
    | constTable c b b' out data l =>
      rw [pexprUnnest_constTable]
      by_cases hout : c ∉ out
      · rw [if_pos hout]
        exact pexprUnnest_node (.of_pop (by simp) (by simp))
      · have htable : NoPattern (.logicalConstTableGet out data) l := .of_pop (by simp) (by simp)
        have hchild := ih _ (List.mem_singleton_self _)
        rw [pexprUnnest_node htable] at hchild
        rw [if_neg hout, pexprUnnest_node htable, pexprUnnest_constTable, if_neg hout, hchild]
    | children h =>
      have hagain : NoPattern pop (l.map (PexprUnnestScalarSubqueries derive)) := by
        constructor
        · intro colref c b b' l' hpop hl
          obtain ⟨e, rfl, he⟩ := List.map_eq_singleton_iff.1 hl
          obtain ⟨pop', l''⟩ := e
          cases pop_of_pexprUnnest_eq he (by simp)
          exact h.element colref c b b' l'' hpop rfl
        · intro c b b' out data l' hpop hl
          obtain ⟨e, rfl, he⟩ := List.map_eq_singleton_iff.1 hl
          obtain ⟨pop', l''⟩ := e
          cases pop_of_pexprUnnest_eq he (by simp)
          exact h.constTable c b b' out data l'' hpop rfl
      rw [pexprUnnest_node h, pexprUnnest_node hagain, List.map_map]
      exact congrArg _ (List.map_congr_left ih)

end Equations

/-! ## What the pass removes -/

section Removed

variable {derive}

/-- A scalar subquery on a projection of a constant table by one scalar subquery: the column it
    returns, the columns and rows of the table, and the project element. -/
structure OverConstTable (pexpr : Query D Op) where
  c : CColRef
  b : Bool
  b' : Bool
  out : List CColRef
  data : List (List (Datum D))
  l : List (Query D Op)
  colref : CColRef
  inner : Query D Op
  inner_subquery : FScalarSubquery inner = true
  eq : pexpr = .node (.scalarSubquery c b b')
    [.node .logicalProject [.node (.logicalConstTableGet out data) l,
      .node .scalarProjectList [.node (.scalarProjectElement colref) [inner]]]]

theorem pexprUnnest_eq_node {pexpr : Query D Op} {pop : QueryOp D Op} {l : List (Query D Op)}
    (h : PexprUnnestScalarSubqueries derive pexpr = .node pop l)
    (hident : ∀ colref, pop ≠ .scalarIdent colref)
    (helement : ∀ colref, pop ≠ .scalarProjectElement colref)
    (hconst : ∀ c b b', pop ≠ .scalarSubquery c b b') :
    ∃ l', pexpr = .node pop l' ∧ l'.map (PexprUnnestScalarSubqueries derive) = l := by
  have hpop := pop_of_pexprUnnest_eq h hident
  obtain ⟨pop', l'⟩ := pexpr
  obtain rfl : pop' = pop := hpop
  rw [pexprUnnest_node (.of_pop helement hconst)] at h
  cases h
  exact ⟨l', rfl, rfl⟩

/-- A subquery is removed only where the expression the pass is called for has this shape, and the
    inner subquery comes from the project element. -/
theorem overConstTable_of_innerSubquery {c : CColRef} {b b' : Bool} {l₀ : List (Query D Op)}
    {pexprInnerSubq : Query D Op}
    (h : innerSubquery derive (PexprUnnestScalarSubqueries derive
      (.node (.scalarSubquery c b b') l₀)) = some pexprInnerSubq) :
    ∃ o : OverConstTable (.node (.scalarSubquery c b b') l₀),
      PexprUnnestScalarSubqueries derive (.node (.scalarProjectElement o.colref) [o.inner]) =
        .node (.scalarProjectElement o.colref) [pexprInnerSubq] := by
  obtain ⟨hsubq, c₁, d, d', out, data, l, colref, heq⟩ := innerSubquery_eq_some derive h
  have hl₀ : ∃ e, l₀ = [e] ∧ PexprUnnestScalarSubqueries derive e =
      .node .logicalProject [.node (.logicalConstTableGet out data) l,
        .node .scalarProjectList [.node (.scalarProjectElement colref) [pexprInnerSubq]]] := by
    cases unnestCase (.scalarSubquery c b b') l₀ with
    | constTable c b b' out' data' l' =>
      rw [pexprUnnest_constTable] at heq
      split_ifs at heq with hout
      · simp only [CExpression.node.injEq, List.cons.injEq, and_true] at heq
        exact ⟨_, rfl, heq.2⟩
      · cases heq
    | children hchildren =>
      rw [pexprUnnest_node hchildren] at heq
      simp only [CExpression.node.injEq] at heq
      exact List.map_eq_singleton_iff.1 heq.2
  obtain ⟨e, rfl, he⟩ := hl₀
  obtain ⟨le, rfl, hle⟩ := pexprUnnest_eq_node he (by simp) (by simp) (by simp)
  obtain ⟨table, rest, rfl, htable, hrest⟩ := List.map_eq_cons_iff.1 hle
  obtain ⟨list, rfl, hlist⟩ := List.map_eq_singleton_iff.1 hrest
  obtain ⟨lt, rfl, -⟩ := pexprUnnest_eq_node htable (by simp) (by simp) (by simp)
  obtain ⟨ll, rfl, hll⟩ := pexprUnnest_eq_node hlist (by simp) (by simp) (by simp)
  obtain ⟨element, rfl, helement⟩ := List.map_eq_singleton_iff.1 hll
  have hpop := pop_of_pexprUnnest_eq helement (by simp)
  obtain ⟨pop, lel⟩ := element
  cases hpop
  cases unnestCase (.scalarProjectElement colref) lel with
  | element _ c₂ d₂ d₂' l₂ =>
    exact ⟨⟨c, b, b', out, data, lt, colref, _, rfl, rfl⟩, helement⟩
  | children hchildren =>
    -- only a subquery becomes one
    rw [pexprUnnest_node hchildren] at helement
    simp only [CExpression.node.injEq, true_and] at helement
    obtain ⟨x, rfl, hx⟩ := List.map_eq_singleton_iff.1 helement
    obtain ⟨c₂, d₂, d₂', l₂, rfl⟩ := fScalarSubquery_iff.1 hsubq
    have hpop := pop_of_pexprUnnest_eq hx (by simp)
    obtain ⟨pop, lx⟩ := x
    cases hpop
    exact absurd rfl (hchildren.element _ _ _ _ lx rfl)

end Removed

/-! ## Values -/

section Values

variable (S : QuerySemantics D G Op) {derive}

/-- The environment of a row of a constant table. -/
def constRow (out : List CColRef) (vals : List (Datum D)) (env : Env D G) : Env D G :=
  { env with row := assign out vals env.row }

/-- Another value in the place of a value. -/
def replaceValue (v : Datum D) : Result D → Result D
  | .value _ => .value v
  | _ => .failure

variable {pexpr : Query D Op}

theorem eval_scalarSubquery (h : FScalarSubquery pexpr = true)
    (env : Env D G) : (∃ v, eval S pexpr env = .value v) ∨ eval S pexpr env = .failure := by
  obtain ⟨c, b, b', l, rfl⟩ := fScalarSubquery_iff.1 h
  rw [eval_node]
  rcases l with _ | ⟨child, _ | ⟨child', l⟩⟩
  · exact .inr rfl
  · simp only [List.map_cons, List.map_nil, QuerySemantics.op]
    cases (eval S child env).rows? with
    | none => exact .inr rfl
    | some rows =>
      rcases rows with _ | ⟨row, _ | ⟨row', rows⟩⟩
      · exact .inl ⟨_, rfl⟩
      · exact .inl ⟨_, rfl⟩
      · exact .inr rfl
  · exact .inr rfl

/-- A project element tells the value of a subquery. -/
theorem eval_projectElement_inj {colref : CColRef} {e e' : Query D Op}
    (he : FScalarSubquery e = true) (he' : FScalarSubquery e' = true) (env : Env D G) :
    eval S (.node (.scalarProjectElement colref) [e]) env =
        eval S (.node (.scalarProjectElement colref) [e']) env ↔
      eval S e env = eval S e' env := by
  simp only [eval_node, List.map_cons, List.map_nil, QuerySemantics.op]
  rcases eval_scalarSubquery S he env with ⟨v, h⟩ | h <;>
    rcases eval_scalarSubquery S he' env with ⟨v', h'⟩ | h' <;> simp [h, h']

/-- A subquery on a column that the constant table does not have. -/
theorem eval_scalarSubquery_constTable {c : CColRef} {b b' : Bool} {out : List CColRef}
    {data : List (List (Datum D))} {l : List (Query D Op)} (hout : c ∉ out) (env : Env D G) :
    eval S (.node (.scalarSubquery c b b') [.node (.logicalConstTableGet out data) l]) env =
        .value (env.row c) ↔
      data.length = 1 ∨ data = [] ∧ env.row c = ⊥ := by
  simp only [eval_node, List.map_cons, List.map_nil, QuerySemantics.op]
  rcases data with _ | ⟨vals, _ | ⟨vals', data⟩⟩
  · simp [Result.rows?, Result.ofOption, onlyValue, eq_comm]
  · simp [Result.rows?, Result.ofOption, onlyValue, assign_of_notMem hout]
  · simp [Result.rows?, Result.ofOption, onlyValue]

/-- A subquery on a projection of a constant table: NULL without rows, the projected value or the
    column of the table for one row, an error for several. -/
def projectedValue (c colref : CColRef) (out : List CColRef) (inner : Env D G → Result D)
    (env : Env D G) : List (List (Datum D)) → Result D
  | [] => .value ⊥
  | [vals] =>
    if c = colref then inner (constRow out vals env)
    else replaceValue (assign out vals env.row c) (inner (constRow out vals env))
  | _ => .failure

theorem eval_projected {c colref : CColRef} {b b' : Bool} {out : List CColRef}
    {data : List (List (Datum D))} {l : List (Query D Op)} {pexprInnerSubq : Query D Op}
    (hinner : FScalarSubquery pexprInnerSubq = true) (env : Env D G) :
    eval S (.node (.scalarSubquery c b b')
      [.node .logicalProject [.node (.logicalConstTableGet out data) l,
        .node .scalarProjectList [.node (.scalarProjectElement colref) [pexprInnerSubq]]]]) env =
      projectedValue c colref out (eval S pexprInnerSubq) env data := by
  have helement : ∀ env' : Env D G,
      (S.op (.scalarProjectElement colref) [eval S pexprInnerSubq] env').elements? =
        (eval S pexprInnerSubq env').value?.map fun v => [(colref, [v])] := fun env' => by
    simp only [QuerySemantics.op]
    rcases eval_scalarSubquery S hinner env' with ⟨v, h⟩ | h <;> rw [h] <;> rfl
  have hlist : ∀ env' : Env D G,
      (S.op .scalarProjectList [S.op (.scalarProjectElement colref) [eval S pexprInnerSubq]]
        env').elements? =
        (eval S pexprInnerSubq env').value?.map fun v => [(colref, [v])] := fun env' => by
    simp only [QuerySemantics.op.eq_4, List.mapM_cons, List.mapM_nil, helement]
    cases (eval S pexprInnerSubq env').value? <;>
      simp [Result.elements?, Result.ofOption]
  have hrow : ∀ (v : Datum D) (row : Row D),
      projectRow [(colref, [v])] row = [assign [colref] [v] row] := fun v row =>
    projectRow_single [(colref, v)] row
  simp only [eval_node, List.map_cons, List.map_nil]
  generalize S.op .scalarProjectList _ = list at hlist
  simp only [QuerySemantics.op, Result.rows?, Option.bind_eq_bind, Option.bind_some, hlist]
  rcases data with _ | ⟨vals, _ | ⟨vals', data⟩⟩
  · rfl
  · simp only [projectedValue, constRow, List.map_cons, List.map_nil, List.mapM_cons, List.mapM_nil]
    rcases eval_scalarSubquery S hinner { env with row := assign out vals env.row }
      with ⟨v, h⟩ | h
    · by_cases hc : c = colref
      · simp [h, hc, hrow, Result.value?, Result.ofOption, onlyValue, assign]
      · simp [h, hc, hrow, Result.value?, Result.ofOption, onlyValue, assign, replaceValue]
    · by_cases hc : c = colref <;>
        simp [h, hc, Result.value?, Result.ofOption, replaceValue]
  · -- every row that is projected gives one row
    simp only [List.map_cons, List.mapM_cons, projectedValue]
    generalize (List.mapM _ (data.map _) : Option (List (List (Row D)))) = rest
    rcases (eval S pexprInnerSubq _).value? with _ | v <;>
      rcases (eval S pexprInnerSubq _).value? with _ | v' <;> rcases rest with _ | rest <;>
      simp [Result.ofOption, onlyValue, hrow]

variable (derive) in
/-- The rows that a scalar subquery ranges over allow its removal, on an outer row: one row of the
    constant table, on which the inner subquery has the value it has on the outer row. Otherwise the
    values have to agree by accident. -/
def RemovableOn (env : Env D G) : Query D Op → Prop
  | .node (.scalarSubquery c _ _) [.node (.logicalConstTableGet out data) _] =>
    c ∉ out → data.length = 1 ∨ data = [] ∧ env.row c = ⊥
  | .node (.scalarProjectElement _) [pexprSubq] =>
    (innerSubquery derive (PexprUnnestScalarSubqueries derive pexprSubq)).isSome = true →
      ∀ o : OverConstTable pexprSubq, match o.data with
        | [] => eval S o.inner env = .value ⊥
        | [vals] =>
          if o.c = o.colref then eval S o.inner env = eval S o.inner (constRow o.out vals env)
          else eval S o.inner env =
            replaceValue (assign o.out vals env.row o.c) (eval S o.inner (constRow o.out vals env))
        | _ => eval S o.inner env = .failure
  | _ => True

theorem eval_overConstTable (o : OverConstTable pexpr) (env : Env D G) :
    eval S pexpr env = projectedValue o.c o.colref o.out (eval S o.inner) env o.data := by
  obtain ⟨c, b, b', out, data, l, colref, inner, hinner, rfl⟩ := o
  exact eval_projected S hinner env

theorem OverConstTable.eq_of (o o' : OverConstTable pexpr) : o = o' := by
  obtain ⟨c, b, b', out, data, l, colref, inner, hinner, heq⟩ := o
  obtain ⟨c', d, d', out', data', l', colref', inner', hinner', heq'⟩ := o'
  subst heq
  cases heq'
  rfl

theorem OverConstTable.subexpression (o : OverConstTable pexpr) :
    CExpression.SubexpressionOf (.node (.scalarProjectElement o.colref) [o.inner]) pexpr := by
  obtain ⟨c, b, b', out, data, l, colref, inner, hinner, rfl⟩ := o
  exact .child (List.mem_singleton_self _) <|
    .child (List.mem_cons_of_mem _ (List.mem_singleton_self _)) <|
      .child (List.mem_singleton_self _) .refl

/-- One removal keeps the value on an outer row exactly when the constant table allows it there. -/
theorem eval_eq_projectedValue_iff (o : OverConstTable pexpr) (env : Env D G) :
    eval S o.inner env = eval S pexpr env ↔ match o.data with
      | [] => eval S o.inner env = .value ⊥
      | [vals] =>
        if o.c = o.colref then eval S o.inner env = eval S o.inner (constRow o.out vals env)
        else eval S o.inner env =
          replaceValue (assign o.out vals env.row o.c) (eval S o.inner (constRow o.out vals env))
      | _ => eval S o.inner env = .failure := by
  rw [eval_overConstTable S o]
  rcases o.data with _ | ⟨vals, _ | ⟨vals', data⟩⟩
  · rfl
  · by_cases hc : o.c = o.colref <;> simp [projectedValue, hc]
  · rfl

/-- **The pass keeps the value of every expression on every row exactly when each subquery it
removes ranges over one row** of a constant table, with the projected value as its own. -/
theorem eval_pexprUnnestScalarSubqueries_iff (pexpr : Query D Op) :
    (∀ s, CExpression.SubexpressionOf s pexpr → ∀ env,
      eval S (PexprUnnestScalarSubqueries derive s) env = eval S s env) ↔
    ∀ s, CExpression.SubexpressionOf s pexpr → ∀ env, RemovableOn derive S env s := by
  refine CExpression.forall_subexpressions_iff (fun pop l hbelow => forall_congr' fun env => ?_) pexpr
  have hchildren : ∀ e ∈ l, eval S (PexprUnnestScalarSubqueries derive e) = eval S e :=
    fun e he => funext (hbelow e he e .refl)
  cases unnestCase pop l with
  | element colref c b b' l =>
    have hsubq := hchildren _ (List.mem_singleton_self _)
    rw [pexprUnnest_projectElement]
    cases hinner : innerSubquery derive
        (PexprUnnestScalarSubqueries derive (.node (.scalarSubquery c b b') l)) with
    | none =>
      simp [hinner, eval_node, hsubq, RemovableOn]
    | some pexprInnerSubq =>
      obtain ⟨o, ho⟩ := overConstTable_of_innerSubquery hinner
      obtain ⟨hsettled, -⟩ := innerSubquery_settled (pexprUnnest_pexprUnnest _) hinner
      obtain ⟨hfound, _, _, _, _, _, _, _, hp⟩ := innerSubquery_eq_some derive hinner
      have hident : FScalarIdent
          (PexprUnnestScalarSubqueries derive (.node (.scalarSubquery c b b') l)) = false := by
        rw [hp]
        rfl
      -- the inner subquery that the second call returns is the one of the project element
      have hsame : ∀ env, eval S pexprInnerSubq env = eval S o.inner env := fun env => by
        have helement := hbelow _ (List.mem_singleton_self _) _ o.subexpression env
        rwa [ho, eval_projectElement_inj S hfound o.inner_subquery] at helement
      dsimp only
      rw [hident, if_neg Bool.false_ne_true, hinner]
      dsimp only
      rw [hsettled, eval_projectElement_inj S hfound rfl, hsame, eval_eq_projectedValue_iff S o]
      simp only [RemovableOn, hinner, Option.isSome_some, true_implies]
      exact ⟨fun h o' => o.eq_of o' ▸ h, fun h => h o⟩
  | constTable c b b' out data l =>
    rw [pexprUnnest_constTable]
    by_cases hout : c ∉ out
    · rw [if_pos hout, eq_comm]
      exact (eval_scalarSubquery_constTable S hout env).trans ⟨fun h _ => h, fun h => h hout⟩
    · rw [if_neg hout]
      simp only [eval_node, List.map_singleton, RemovableOn, hout, false_implies, iff_true]
      rw [hchildren _ (List.mem_singleton_self _)]
      simp [eval_node]
  | children h =>
    rw [pexprUnnest_node h, eval_node_congr pop hchildren]
    unfold RemovableOn
    split
    · rename_i hpattern
      cases hpattern
      exact (h.constTable _ _ _ _ _ _ rfl rfl).elim
    · rename_i colref pexprSubq hpattern
      cases hpattern
      refine iff_of_true rfl fun hsome => ?_
      obtain ⟨pexprInnerSubq, hinner⟩ := Option.isSome_iff_exists.1 hsome
      obtain ⟨-, c, b, b', _, _, _, _, hp⟩ := innerSubquery_eq_some derive hinner
      have hpop := pop_of_pexprUnnest_eq hp (by simp)
      obtain ⟨pop', l'⟩ := pexprSubq
      obtain rfl : pop' = .scalarSubquery c b b' := hpop
      exact (h.element _ _ _ _ _ rfl rfl).elim
    · simp

end Values

/-! ## A constant table of two rows -/

/-- `(SELECT y FROM (VALUES (1), (2)) t(c))`. -/
def onTwoRows : Query ℕ Unit :=
  .node (.scalarSubquery colY false false)
    [.node (.logicalConstTableGet [colC] [[some 1], [some 2]]) []]

/-- **The subquery is an error, and the identifier has the value of the outer row.** -/
theorem not_eval_pexprUnnestScalarSubqueries :
    let env : Env ℕ Unit := ⟨fun _ => some 7, ()⟩
    eval selections onTwoRows env = .failure ∧
      eval selections (PexprUnnestScalarSubqueries (fun _ _ => ⟨[], [], [], []⟩) onTwoRows) env =
        .value (some 7) := by
  refine ⟨rfl, ?_⟩
  rw [onTwoRows, pexprUnnest_constTable, if_pos (by decide)]
  rfl

end Query

end BossOptimizer

import BossOptimizer.Operators.CExpressionFactorizer

/-!
# When factorization keeps the truth value

Factors are counted over all disjuncts together, so a conjunct that one disjunct repeats and another
one lacks can be counted as often as there are disjuncts. What is taken out of a disjunction is then
its conjunction with all the factors, which is the disjunction where every disjunct implies every
factor. In a disjunction without repeated conjuncts each factor is a conjunct of each disjunct.
-/

namespace BossOptimizer

namespace Predicate

variable {Op : Type} {ops : PredicateOperators Op}

/-! ## Factors and residuals -/

/-- What is left of a conjunct. -/
def residual (ops : PredicateOperators Op) (exprmap : ExprMap Op) (pexpr : Predicate Op) :
    Predicate Op :=
  if (FindCount ops exprmap pexpr).isSome then PexprConjDisj true [] else pexpr

/-- What is left of a disjunct. -/
def residualDisjunct (ops : PredicateOperators Op) (exprmap : ExprMap Op)
    (pexprDisj : Predicate Op) : Predicate Op :=
  if FAnd pexprDisj then PexprConjDisj true (pexprDisj.PdrgPexpr.map (residual ops exprmap))
  else residual ops exprmap pexprDisj

/-- The factors among some conjuncts have been added. -/
structure Gathers (ops : PredicateOperators Op) (exprmap : ExprMap Op)
    (conjs factors factors' : List (Predicate Op)) : Prop where
  keep : ∀ f ∈ factors, f ∈ factors'
  sub : ∀ f ∈ factors', f ∈ factors ∨ f ∈ conjs ∧ (FindCount ops exprmap f).isSome
  all : ∀ c ∈ conjs, (FindCount ops exprmap c).isSome → ∃ f ∈ factors', Equals ops c f = true

theorem Gathers.nil (exprmap : ExprMap Op) (factors : List (Predicate Op)) :
    Gathers ops exprmap [] factors factors :=
  ⟨fun _ h => h, fun _ h => .inl h, by simp⟩

theorem Gathers.append {exprmap : ExprMap Op} {conjs conjs' factors factors' factors'' :
    List (Predicate Op)} (h : Gathers ops exprmap conjs factors factors')
    (h' : Gathers ops exprmap conjs' factors' factors'') :
    Gathers ops exprmap (conjs ++ conjs') factors factors'' where
  keep f hf := h'.keep f (h.keep f hf)
  sub f hf := by
    rcases h'.sub f hf with hf | ⟨hf, hcount⟩
    · exact (h.sub f hf).imp_right fun hf => ⟨List.mem_append_left _ hf.1, hf.2⟩
    · exact .inr ⟨List.mem_append_right _ hf, hcount⟩
  all c hc hcount := by
    rcases List.mem_append.1 hc with hc | hc
    · obtain ⟨f, hf, heq⟩ := h.all c hc hcount
      exact ⟨f, h'.keep f hf, heq⟩
    · exact h'.all c hc hcount

theorem addFactor_spec (exprmap : ExprMap Op) (arrays : List (Predicate Op) × List (Predicate Op))
    (pexpr : Predicate Op) :
    (AddFactor ops exprmap arrays pexpr).2 = arrays.2 ++ [residual ops exprmap pexpr] ∧
      Gathers ops exprmap [pexpr] arrays.1 (AddFactor ops exprmap arrays pexpr).1 := by
  unfold AddFactor residual
  split
  · rename_i hcount
    refine ⟨rfl, ?_⟩
    dsimp only
    split
    · rename_i hfound
      obtain ⟨f, hf, heq⟩ := List.any_eq_true.1 hfound
      exact ⟨fun _ h => h, fun _ h => .inl h, fun c hc _ => ⟨f, hf, List.mem_singleton.1 hc ▸ heq⟩⟩
    · refine ⟨fun f hf => List.mem_append_left _ hf, fun f hf => ?_, fun c hc _ => ?_⟩
      · exact (List.mem_append.1 hf).imp_right fun hf =>
          ⟨hf, (List.mem_singleton.1 hf).symm ▸ hcount⟩
      · exact ⟨c, List.mem_append_right _ hc, CExpression.equals_self c⟩
  · rename_i hcount
    exact ⟨rfl, fun _ h => h, fun _ h => .inl h,
      fun c hc h => absurd (List.mem_singleton.1 hc ▸ h) hcount⟩

theorem foldl_addFactor_spec (exprmap : ExprMap Op) (l : List (Predicate Op)) :
    ∀ arrays : List (Predicate Op) × List (Predicate Op),
      (l.foldl (AddFactor ops exprmap) arrays).2 = arrays.2 ++ l.map (residual ops exprmap) ∧
        Gathers ops exprmap l arrays.1 (l.foldl (AddFactor ops exprmap) arrays).1 := by
  induction l with
  | nil => exact fun arrays => ⟨by simp, .nil _ _⟩
  | cons e l ih =>
    intro arrays
    obtain ⟨hresidual, hgathers⟩ := addFactor_spec exprmap arrays e
    obtain ⟨hrest, hgathersRest⟩ := ih (AddFactor ops exprmap arrays e)
    exact ⟨by simp [hrest, hresidual], hgathers.append hgathersRest⟩

/-- A disjunction has disjuncts, and an AND among them has conjuncts. -/
def Populated (pexpr : Predicate Op) : Prop :=
  pexpr.PdrgPexpr ≠ [] ∧ ∀ pexprDisj ∈ pexpr.PdrgPexpr, conjuncts pexprDisj ≠ []

theorem factorizeDisjunct_spec (exprmap : ExprMap Op)
    (arrays : List (Predicate Op) × List (Predicate Op)) {pexprDisj : Predicate Op}
    (h : conjuncts pexprDisj ≠ []) :
    (factorizeDisjunct ops exprmap arrays pexprDisj).2 =
        arrays.2 ++ [residualDisjunct ops exprmap pexprDisj] ∧
      Gathers ops exprmap (conjuncts pexprDisj) arrays.1
        (factorizeDisjunct ops exprmap arrays pexprDisj).1 := by
  unfold factorizeDisjunct residualDisjunct conjuncts at *
  split
  · rename_i hand
    rw [if_pos hand] at h
    obtain ⟨hresidual, hgathers⟩ :=
      @foldl_addFactor_spec Op ops exprmap pexprDisj.PdrgPexpr (arrays.1, [])
    dsimp only
    rw [hresidual, if_neg (by simpa using h), List.nil_append]
    exact ⟨rfl, hgathers⟩
  · exact addFactor_spec exprmap arrays pexprDisj

theorem foldl_factorizeDisjunct_spec (exprmap : ExprMap Op) {l : List (Predicate Op)}
    (h : ∀ d ∈ l, conjuncts d ≠ []) :
    ∀ arrays : List (Predicate Op) × List (Predicate Op),
      (l.foldl (factorizeDisjunct ops exprmap) arrays).2 =
          arrays.2 ++ l.map (residualDisjunct ops exprmap) ∧
        Gathers ops exprmap (l.flatMap conjuncts) arrays.1
          (l.foldl (factorizeDisjunct ops exprmap) arrays).1 := by
  induction l with
  | nil => exact fun arrays => ⟨by simp, .nil _ _⟩
  | cons d l ih =>
    intro arrays
    obtain ⟨hresidual, hgathers⟩ :=
      @factorizeDisjunct_spec Op ops exprmap arrays d (h d List.mem_cons_self)
    obtain ⟨hrest, hgathersRest⟩ :=
      ih (fun d hd => h d (List.mem_cons_of_mem _ hd)) (factorizeDisjunct ops exprmap arrays d)
    exact ⟨by simp [hrest, hresidual], hgathers.append hgathersRest⟩

/-- A disjunction that is factorized, as factors and what is left of the disjuncts. -/
theorem pexprFactorizeDisj_eq {pexpr : Predicate Op} (h : Populated pexpr) :
    ∃ factors, Gathers ops (PexprmapFactors ops pexpr) (pexpr.PdrgPexpr.flatMap conjuncts) []
        factors ∧
      PexprFactorizeDisj ops pexpr = PexprConjDisj true (factors ++ [PexprConjDisj false
        (pexpr.PdrgPexpr.map (residualDisjunct ops (PexprmapFactors ops pexpr)))]) := by
  obtain ⟨hresidual, hgathers⟩ :=
    @foldl_factorizeDisjunct_spec Op ops (PexprmapFactors ops pexpr) _ h.2 ([], [])
  refine ⟨_, hgathers, ?_⟩
  unfold PexprFactorizeDisj
  dsimp only
  rw [hresidual, if_neg (by simpa using h.1), List.nil_append]

/-! ## Truth values -/

section Truth

variable {X Env : Type} (S : Semantics ops.toScalarOperators X Env)

/-- Every disjunct implies every factor. -/
def Implied (ops : PredicateOperators Op) {X Env : Type}
    (S : Semantics ops.toScalarOperators X Env) (pexpr : Predicate Op) (env : Env) : Prop :=
  ∀ pexprConj ∈ pexpr.PdrgPexpr.flatMap conjuncts,
    (FindCount ops (PexprmapFactors ops pexpr) pexprConj).isSome →
      ∀ pexprDisj ∈ pexpr.PdrgPexpr, Truth.Le (truth S pexprDisj env) (truth S pexprConj env)

theorem truth_residualDisjunct (exprmap : ExprMap Op) (pexprDisj : Predicate Op) (env : Env) :
    truth S (residualDisjunct ops exprmap pexprDisj) env =
      Truth.all ((conjuncts pexprDisj).map fun c => truth S (residual ops exprmap c) env) := by
  unfold residualDisjunct conjuncts
  split
  · rw [truth_pexprConjDisj, List.map_map]
    rfl
  · rw [List.map_singleton, Truth.all_singleton]

variable {exprmap : ExprMap Op} {c : Predicate Op}

theorem holds_residual {env : Env} {m : Bool} :
    Truth.holds m (truth S (residual ops exprmap c) env) ↔
      ((FindCount ops exprmap c).isSome ∨ Truth.holds m (truth S c env)) := by
  unfold residual
  split
  · rename_i hcount
    simp [hcount, Truth.joined]
  · rename_i hcount
    simp [hcount]

variable {pexpr : Predicate Op}

/-- **A disjunction that is factorized is its conjunction with the factors.** -/
theorem holds_pexprFactorizeDisj (lawful : ops.toScalarOperators.Lawful) (hor : FOr pexpr = true)
    (h : Populated pexpr) {env : Env} {m : Bool} :
    Truth.holds m (truth S (PexprFactorizeDisj ops pexpr) env) ↔
      (∀ c ∈ pexpr.PdrgPexpr.flatMap conjuncts,
        (FindCount ops (PexprmapFactors ops pexpr) c).isSome → Truth.holds m (truth S c env)) ∧
      Truth.holds m (truth S pexpr env) := by
  obtain ⟨factors, hgathers, heq⟩ := @pexprFactorizeDisj_eq Op ops pexpr h
  have hfactors : (∀ f ∈ factors, Truth.holds m (truth S f env)) ↔
      ∀ c ∈ pexpr.PdrgPexpr.flatMap conjuncts,
        (FindCount ops (PexprmapFactors ops pexpr) c).isSome → Truth.holds m (truth S c env) := by
    constructor
    · intro hall c hc hcount
      obtain ⟨f, hf, hequal⟩ := hgathers.all c hc hcount
      have hsame : truth S c env = truth S f env := by
        rw [truth, truth, eval_eq_of_equals S lawful hequal]
      exact hsame ▸ hall f hf
    · intro hall f hf
      obtain ⟨hc, hcount⟩ := (hgathers.sub f hf).resolve_left (by simp)
      exact hall f hc hcount
  have hresidual : (∀ f ∈ factors, Truth.holds m (truth S f env)) → ∀ d ∈ pexpr.PdrgPexpr,
      (Truth.holds m (truth S (residualDisjunct ops (PexprmapFactors ops pexpr) d) env) ↔
        Truth.holds m (truth S d env)) := by
    intro hall d hd
    rw [truth_residualDisjunct, truth_eq_conjuncts S d]
    simp only [Truth.holds_all, List.forall_mem_map, holds_residual]
    refine forall₂_congr fun c hc => or_iff_right_of_imp fun hcount => ?_
    exact hfactors.1 hall c (List.mem_flatMap.2 ⟨d, hd, hc⟩) hcount
  rw [heq, holds_conjunction, List.forall_mem_append, List.forall_mem_singleton,
    holds_disjunction, holds_or_iff S hor, ← hfactors]
  simp only [List.mem_map, exists_exists_and_eq_and]
  exact and_congr_right fun hall =>
    exists_congr fun d => and_congr_right fun hd => hresidual hall d hd

/-- **A disjunction keeps its truth value exactly where every disjunct implies every factor.** -/
theorem truth_pexprFactorizeDisj_iff (lawful : ops.toScalarOperators.Lawful)
    (hor : FOr pexpr = true) (h : Populated pexpr) (env : Env) :
    truth S (PexprFactorizeDisj ops pexpr) env = truth S pexpr env ↔ Implied ops S pexpr env := by
  rw [Truth.eq_iff_holds]
  simp only [holds_pexprFactorizeDisj S lawful hor h, and_iff_right_iff_imp, holds_or_iff S hor]
  constructor
  · exact fun himp c hc hcount d hd m hholds => himp m ⟨d, hd, hholds⟩ c hc hcount
  · rintro himp m ⟨d, hd, hholds⟩ c hc hcount
    exact himp c hc hcount d hd m hholds

/-! ## Disjunctions without repeated conjuncts -/

/-- The counts are at most the numbers of occurrences. -/
def Counted (ops : PredicateOperators Op) (l : List (Predicate Op)) (exprmap : ExprMap Op) : Prop :=
  ∀ entry ∈ exprmap, entry.2 ≤ l.countP (Equals ops entry.1)

theorem exists_of_findCount {n : ℕ} (h : FindCount ops exprmap c = some n) :
    ∃ key, (key, n) ∈ exprmap ∧ FMatchesKey ops key c = true := by
  obtain ⟨⟨key, n'⟩, hfind, rfl⟩ := Option.map_eq_some_iff.1 h
  have hmatch : FMatchesKey ops key c = true := by simpa using List.find?_some hfind
  exact ⟨key, List.mem_of_find?_eq_some hfind, hmatch⟩

theorem equals_of_fMatchesKey {key c : Predicate Op} (h : FMatchesKey ops key c = true) :
    Equals ops key c = true :=
  (Bool.and_eq_true _ _ ▸ h).2

theorem mem_incrementCount {entry : Predicate Op × ℕ}
    (h : entry ∈ incrementCount ops c exprmap) : entry ∈ exprmap ∨
      ∃ n, entry = (entry.1, n + 1) ∧ (entry.1, n) ∈ exprmap ∧ FMatchesKey ops entry.1 c = true := by
  induction exprmap with
  | nil => simp [incrementCount] at h
  | cons first exprmap ih =>
    obtain ⟨key, count⟩ := first
    rw [incrementCount] at h
    split at h
    · rename_i hmatch
      rcases List.mem_cons.1 h with rfl | h
      · exact .inr ⟨count, rfl, List.mem_cons_self, hmatch⟩
      · exact .inl (List.mem_cons_of_mem _ h)
    · rcases List.mem_cons.1 h with rfl | h
      · exact .inl List.mem_cons_self
      · refine (ih h).imp (List.mem_cons_of_mem _) ?_
        rintro ⟨n, heq, hmem, hmatch⟩
        exact ⟨n, heq, List.mem_cons_of_mem _ hmem, hmatch⟩

theorem mem_insertCount {n : ℕ} {entry : Predicate Op × ℕ}
    (h : entry ∈ InsertCount ops exprmap c n) :
    entry ∈ exprmap ∨ entry = (c, n) := by
  unfold InsertCount at h
  split at h
  · exact .inl h
  · exact (List.mem_append.1 h).imp_right List.mem_singleton.1

/-- The factors have a key that occurs as often as there are disjuncts. -/
def Frequent (ops : PredicateOperators Op) (ulDisjuncts : ℕ) (l : List (Predicate Op))
    (exprmap : ExprMap Op) : Prop :=
  ∀ entry ∈ exprmap, ∃ key, Equals ops key entry.1 = true ∧
    ulDisjuncts ≤ l.countP (Equals ops key)

theorem countConjunct_spec {ulDisjuncts : ℕ} {l : List (Predicate Op)}
    {maps : ExprMap Op × ExprMap Op} (c : Predicate Op) (h : Counted ops l maps.1)
    (h' : Frequent ops ulDisjuncts l maps.2) :
    Counted ops (l ++ [c]) (countConjunct ops ulDisjuncts maps c).1 ∧
      Frequent ops ulDisjuncts (l ++ [c]) (countConjunct ops ulDisjuncts maps c).2 := by
  have hcount : ∀ key : Predicate Op, l.countP (Equals ops key) +
      (if Equals ops key c = true then 1 else 0) = (l ++ [c]).countP (Equals ops key) :=
    fun key => by rw [List.countP_append, List.countP_singleton]
  have hglobal : Counted ops (l ++ [c])
      (if (FindCount ops maps.1 c).isSome then incrementCount ops c maps.1
        else InsertCount ops maps.1 c 1) := by
    intro entry hentry
    rw [← hcount]
    split at hentry
    · rcases mem_incrementCount hentry with hmem | ⟨n, heq, hmem, hmatch⟩
      · exact (h entry hmem).trans (Nat.le_add_right _ _)
      · rw [if_pos (equals_of_fMatchesKey hmatch), heq]
        exact Nat.succ_le_succ (h _ hmem)
    · rcases mem_insertCount hentry with hmem | rfl
      · exact (h entry hmem).trans (Nat.le_add_right _ _)
      · rw [if_pos (CExpression.equals_self c)]
        exact Nat.le_add_left _ _
  have hold : Frequent ops ulDisjuncts (l ++ [c]) maps.2 := fun entry hentry => by
    obtain ⟨key, hequal, hle⟩ := h' entry hentry
    exact ⟨key, hequal, hle.trans (hcount key ▸ Nat.le_add_right _ _)⟩
  unfold countConjunct
  dsimp only
  generalize (if (FindCount ops maps.1 c).isSome then incrementCount ops c maps.1
    else InsertCount ops maps.1 c 1) = global at hglobal ⊢
  split
  · rename_i hreached
    refine ⟨hglobal, fun entry hentry => ?_⟩
    rcases mem_insertCount hentry with hmem | rfl
    · exact hold entry hmem
    · obtain ⟨key, hmem, hmatch⟩ := exists_of_findCount hreached
      exact ⟨key, equals_of_fMatchesKey hmatch, hglobal _ hmem⟩
  · exact ⟨hglobal, hold⟩

/-- What the loop counts, by induction on the conjuncts. -/
theorem foldl_countConjunct_spec {ulDisjuncts : ℕ} (l : List (Predicate Op)) :
    ∀ {before : List (Predicate Op)} {maps : ExprMap Op × ExprMap Op},
      Counted ops before maps.1 → Frequent ops ulDisjuncts before maps.2 →
        Frequent ops ulDisjuncts (before ++ l)
          (l.foldl (countConjunct ops ulDisjuncts) maps).2 := by
  induction l with
  | nil =>
    intro before maps _ h'
    rwa [List.append_nil]
  | cons c l ih =>
    intro before maps h h'
    obtain ⟨hcounted, hfrequent⟩ := countConjunct_spec c h h'
    rw [List.append_cons before c l, List.foldl_cons]
    exact ih hcounted hfrequent

/-- Members that occur at most once in each list, and as often as there are lists, occur in each. -/
theorem exists_of_countP_flatMap {α β : Type} {p : β → Bool} {f : α → List β} {l : List α}
    (hone : ∀ a ∈ l, (f a).countP p ≤ 1) (hall : l.length ≤ (l.flatMap f).countP p) :
    ∀ a ∈ l, ∃ b ∈ f a, p b = true := by
  have hle : ∀ l : List α, (∀ a ∈ l, (f a).countP p ≤ 1) → (l.flatMap f).countP p ≤ l.length := by
    intro l hone
    induction l with
    | nil => simp
    | cons a l ih =>
      have htail := ih fun a ha => hone a (List.mem_cons_of_mem _ ha)
      have hhead := hone a List.mem_cons_self
      rw [List.flatMap_cons, List.countP_append, List.length_cons]
      omega
  induction l with
  | nil => simp
  | cons a l ih =>
    have htail := hle l fun a ha => hone a (List.mem_cons_of_mem _ ha)
    have hhead := hone a List.mem_cons_self
    rw [List.flatMap_cons, List.countP_append, List.length_cons] at hall
    refine List.forall_mem_cons.2 ⟨List.countP_pos_iff.1 (by omega),
      ih (fun a ha => hone a (List.mem_cons_of_mem _ ha)) (by omega)⟩

/-- **Where no disjunct repeats a conjunct, every disjunct implies every factor**: the factor is one
of its conjuncts. -/
theorem implied_of_pairwise (lawful : ops.toScalarOperators.Lawful)
    (h : ∀ d ∈ pexpr.PdrgPexpr, (conjuncts d).Pairwise fun c c' => Equals ops c c' = false)
    (env : Env) : Implied ops S pexpr env := by
  intro c _ hcount d hd m hholds
  obtain ⟨n, hn⟩ := Option.isSome_iff_exists.1 hcount
  obtain ⟨factor, hmem, hmatch⟩ := exists_of_findCount hn
  have hfrequent : Frequent ops pexpr.PdrgPexpr.length ([] ++ pexpr.PdrgPexpr.flatMap conjuncts)
      (PexprmapFactors ops pexpr) :=
    foldl_countConjunct_spec _ (by simp [Counted]) (by simp [Frequent])
  obtain ⟨key, hkey, hle⟩ := hfrequent _ hmem
  have hone : ∀ d ∈ pexpr.PdrgPexpr, (conjuncts d).countP (Equals ops key) ≤ 1 := fun d hd => by
    rw [List.countP_eq_length_filter]
    by_contra hmany
    obtain ⟨c₁, c₂, rest, heq⟩ : ∃ c₁ c₂ rest,
        (conjuncts d).filter (Equals ops key) = c₁ :: c₂ :: rest := by
      match hl : (conjuncts d).filter (Equals ops key) with
      | [] => simp [hl] at hmany
      | [_] => simp [hl] at hmany
      | c₁ :: c₂ :: rest => exact ⟨c₁, c₂, rest, rfl⟩
    have hpair := heq ▸ (h d hd).filter (Equals ops key)
    have hboth : ∀ c ∈ c₁ :: c₂ :: rest, Equals ops key c = true := fun c hc =>
      (List.mem_filter.1 (heq ▸ hc)).2
    have hlawful := PredicateOp.lawful_operators lawful
    have hsame := CExpression.equals_trans hlawful
      (CExpression.equals_symm hlawful (hboth c₁ (by simp))) (hboth c₂ (by simp))
    have hdiffer : Equals ops c₁ c₂ = false :=
      List.rel_of_pairwise_cons hpair List.mem_cons_self
    exact absurd (hsame.symm.trans hdiffer) (by decide)
  obtain ⟨c', hc', hkey'⟩ := exists_of_countP_flatMap hone hle d hd
  have hvalue : truth S c env = truth S c' env := by
    rw [truth, truth, ← eval_eq_of_equals S lawful (equals_of_fMatchesKey hmatch),
      ← eval_eq_of_equals S lawful hkey, eval_eq_of_equals S lawful hkey']
  rw [truth_eq_conjuncts, Truth.holds_all] at hholds
  exact hvalue ▸ hholds _ (List.mem_map_of_mem hc')

/-! ## Whole expressions -/

/-- The disjunction that is factorized is a truth value. -/
theorem wellTyped_pexprFactorizeDisj (hor : FOr pexpr = true) (hpop : Populated pexpr)
    (h : WellTyped ops.toScalarOperators pexpr) :
    WellTyped ops.toScalarOperators (PexprFactorizeDisj ops pexpr) ∧
      CExpression.MdidType (PredicateOp.operators ops.toScalarOperators)
        (PexprFactorizeDisj ops pexpr) = GPDB_BOOL := by
  obtain ⟨factors, hgathers, heq⟩ := @pexprFactorizeDisj_eq Op ops pexpr hpop
  have hconj := wellTyped_conjuncts hor h
  have hbuilt : ∀ {fConjunction : Bool} {l : List (Predicate Op)},
      (∀ e ∈ l, WellTyped ops.toScalarOperators e ∧
        CExpression.MdidType (PredicateOp.operators ops.toScalarOperators) e = GPDB_BOOL) →
      WellTyped ops.toScalarOperators (PexprConjDisj fConjunction l) ∧
        CExpression.MdidType (PredicateOp.operators ops.toScalarOperators)
          (PexprConjDisj fConjunction l) = GPDB_BOOL := fun hl =>
    ⟨wellTyped_pexprConjDisj _ hl, mdidType_pexprConjDisj _ fun e he => (hl e he).2⟩
  have hresidual : ∀ c ∈ pexpr.PdrgPexpr.flatMap conjuncts, WellTyped ops.toScalarOperators
        (residual ops (PexprmapFactors ops pexpr) c) ∧
      CExpression.MdidType (PredicateOp.operators ops.toScalarOperators)
        (residual ops (PexprmapFactors ops pexpr) c) = GPDB_BOOL := fun c hc => by
    unfold residual
    split
    · exact hbuilt (by simp)
    · exact hconj c hc
  rw [heq]
  refine hbuilt fun f hf => ?_
  rcases List.mem_append.1 hf with hf | hf
  · exact hconj f ((hgathers.sub f hf).resolve_left (by simp)).1
  · obtain rfl := List.mem_singleton.1 hf
    refine hbuilt fun r hr => ?_
    obtain ⟨d, hd, rfl⟩ := List.mem_map.1 hr
    have hmem : ∀ c ∈ conjuncts d, c ∈ pexpr.PdrgPexpr.flatMap conjuncts := fun c hc =>
      List.mem_flatMap.2 ⟨d, hd, hc⟩
    unfold residualDisjunct conjuncts at *
    split
    · rename_i hand
      rw [if_pos hand] at hmem
      refine hbuilt fun e he => ?_
      obtain ⟨c, hc, rfl⟩ := List.mem_map.1 he
      exact hresidual c (hmem c hc)
    · rename_i hand
      rw [if_neg hand] at hmem
      exact hresidual d (hmem d (List.mem_singleton_self d))

/-- Unnesting and de-duplication after the factors have been discovered. -/
theorem truth_pexprFactorize_of_replaces (lawful : ops.toScalarOperators.Lawful)
    {FLogical : PredicateOp Op → Bool} {e e' : Predicate Op}
    (h : PexprDiscoverFactors ops FLogical e = some e') (htyped : WellTyped ops.toScalarOperators e') :
    ∃ pexpr, PexprFactorize ops FLogical e = some pexpr ∧
      ∀ env, truth S pexpr env = truth S e' env := by
  refine ⟨PexprDedupChildren ops (PexprUnnest e'), by rw [PexprFactorize, h, Option.map_some],
    fun env => ?_⟩
  rw [truth, (pexprDedupChildren_spec S lawful (wellTyped_pexprUnnest htyped)).2,
    eval_pexprUnnest S htyped, truth]

theorem discoverFactors_of_fOr (FLogical : PredicateOp Op → Bool) {e : Predicate Op}
    (hor : FOr e = true) :
    PexprDiscoverFactors ops FLogical e = some (PexprFactorizeDisj ops e) := by
  obtain ⟨pop, l⟩ := e
  rw [PexprDiscoverFactors, PexprProcessDisjDescendents, if_pos hor]

/-- A disjunction, factorized, unnested and without repetitions. -/
theorem truth_pexprFactorize_or (lawful : ops.toScalarOperators.Lawful)
    (FLogical : PredicateOp Op → Bool) {e : Predicate Op}
    (h : WellTyped ops.toScalarOperators e) (hor : FOr e = true) (hpop : Populated e) :
    ∃ pexpr, PexprFactorize ops FLogical e = some pexpr ∧
      ∀ env, truth S pexpr env = truth S e env ↔ Implied ops S e env := by
  obtain ⟨pexpr, hpexpr, htruth⟩ := truth_pexprFactorize_of_replaces S lawful
    (discoverFactors_of_fOr FLogical hor) (wellTyped_pexprFactorizeDisj hor hpop h).1
  exact ⟨pexpr, hpexpr, fun env => by rw [htruth, truth_pexprFactorizeDisj_iff S lawful hor hpop]⟩

/-- The disjunctions that are visited are factorized, and the result is unnested and without
    repetitions. -/
theorem truth_pexprFactorize_of_implied (lawful : ops.toScalarOperators.Lawful)
    (FLogical : PredicateOp Op → Bool) {e : Predicate Op}
    (h : WellTyped ops.toScalarOperators e)
    (himplied : ∀ d ∈ disjunctions FLogical e none, Populated d.1 ∧ ∀ env, Implied ops S d.1 env) :
    ∃ pexpr, PexprFactorize ops FLogical e = some pexpr ∧
      ∀ env, truth S pexpr env = truth S e env := by
  have hdiscover : ∃ e', PexprDiscoverFactors ops FLogical e = some e' ∧ Replaces S e e' :=
    process_replaces S h none fun d hd htyped => by
      have hor := fOr_of_mem_disjunctions hd
      obtain ⟨hpop, himp⟩ := himplied d hd
      obtain ⟨htyped', hbool⟩ := wellTyped_pexprFactorizeDisj hor hpop htyped
      have hboolOr := @mdidType_of_fOr Op ops.toScalarOperators _ hor
      exact ⟨_, rfl, htyped', hbool.trans hboolOr.symm, eval_eq_of_truth S hbool hboolOr fun env =>
        (truth_pexprFactorizeDisj_iff S lawful hor hpop env).2 (himp env)⟩
  obtain ⟨e', he', hrep⟩ := hdiscover
  obtain ⟨pexpr, hpexpr, htruth⟩ := truth_pexprFactorize_of_replaces S lawful he' hrep.typed
  exact ⟨pexpr, hpexpr, fun env => by rw [htruth, truth, hrep.value, truth]⟩

end Truth

end Predicate

end BossOptimizer

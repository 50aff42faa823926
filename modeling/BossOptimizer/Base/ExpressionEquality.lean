import BossOptimizer.Base.CExpression
import BossOptimizer.Lib.Matching
import Mathlib.Order.MinMax

/-!
# Equal expressions

`CUtils::Equals` compares the children of an operator in order, or by their numbers of occurrences
where the operator does not care about order. When `Matches` is an equivalence, so is `Equals`, and
equal expressions have one value under every evaluation that goes by the operators.
-/

namespace BossOptimizer

/-- `Matches` is an equivalence between operators that treat the order of their inputs alike. -/
structure ScalarOperators.Lawful {Op : Type} (ops : ScalarOperators Op) : Prop where
  symm : ∀ pop pop', ops.Matches pop pop' = true → ops.Matches pop' pop = true
  trans : ∀ pop pop' pop'', ops.Matches pop pop' = true → ops.Matches pop' pop'' = true →
    ops.Matches pop pop'' = true
  sensitive : ∀ pop pop', ops.Matches pop pop' = true →
    ops.FInputOrderSensitive pop = ops.FInputOrderSensitive pop'

namespace CExpression

variable {Op V : Type}

/-! ## Evaluation operator by operator -/

/-- `Pop`. -/
def Pop : CExpression Op → Op
  | .node pop _ => pop

/-- `PdrgPexpr`. -/
def PdrgPexpr : CExpression Op → List (CExpression Op)
  | .node _ pdrgpexpr => pdrgpexpr

mutual

/-- The value of an expression, from the values of the children. -/
def fold (sem : Op → List V → V) : CExpression Op → V
  | .node pop pdrgpexpr => sem pop (foldEach sem pdrgpexpr)

def foldEach (sem : Op → List V → V) : List (CExpression Op) → List V
  | [] => []
  | pexpr :: pdrgpexpr => fold sem pexpr :: foldEach sem pdrgpexpr

end

attribute [local simp] fold foldEach in
theorem foldEach_eq_map (sem : Op → List V → V) (pdrgpexpr : List (CExpression Op)) :
    foldEach sem pdrgpexpr = pdrgpexpr.map (fold sem) := by
  induction pdrgpexpr with
  | nil => rfl
  | cons pexpr pdrgpexpr ih => rw [foldEach, ih, List.map_cons]

@[simp] theorem fold_node (sem : Op → List V → V) (pop : Op) (pdrgpexpr : List (CExpression Op)) :
    fold sem (.node pop pdrgpexpr) = sem pop (pdrgpexpr.map (fold sem)) := by
  rw [fold, foldEach_eq_map]

/-- Induction over expressions: the children are a list. -/
theorem induction {P : CExpression Op → Prop}
    (node : ∀ pop pdrgpexpr, (∀ pexpr ∈ pdrgpexpr, P pexpr) → P (.node pop pdrgpexpr))
    (pexpr : CExpression Op) : P pexpr := by
  cases pexpr with
  | node pop pdrgpexpr => exact node pop pdrgpexpr fun pexpr _ => induction node pexpr

/-- The height of the tree. -/
def depth (pexpr : CExpression Op) : ℕ := pexpr.fold fun _ ds => ds.foldr max 0 + 1

theorem le_foldr_max {n : ℕ} {ds : List ℕ} (h : n ∈ ds) : n ≤ ds.foldr max 0 := by
  induction ds with
  | nil => simp at h
  | cons d ds ih =>
    rw [List.foldr_cons]
    rcases List.mem_cons.1 h with rfl | h
    · exact le_max_left _ _
    · exact (ih h).trans (le_max_right _ _)

theorem depth_node (pop : Op) (pdrgpexpr : List (CExpression Op)) :
    (CExpression.node pop pdrgpexpr).depth = (pdrgpexpr.map depth).foldr max 0 + 1 :=
  fold_node ..

theorem depth_pos (pexpr : CExpression Op) : 0 < pexpr.depth := by
  cases pexpr
  rw [depth_node]
  exact Nat.succ_pos _

theorem depth_lt {pop : Op} {pdrgpexpr : List (CExpression Op)} {pexpr : CExpression Op}
    (h : pexpr ∈ pdrgpexpr) : pexpr.depth < (CExpression.node pop pdrgpexpr).depth := by
  rw [depth_node]
  exact Nat.lt_succ_of_le (le_foldr_max (List.mem_map_of_mem h))

/-- A node whose children are no higher, up to `n`, than those of another is no higher itself. -/
theorem depth_le_of_forall {pop pop' : Op} {l l' : List (CExpression Op)} {n : ℕ}
    (h : ∀ e ∈ l, ∃ e' ∈ l', e.depth ≤ e'.depth + n) :
    depth (.node pop l) ≤ depth (.node pop' l') + n := by
  have hmax : (l.map depth).foldr max 0 ≤ (l'.map depth).foldr max 0 + n := by
    induction l with
    | nil => simp
    | cons e l ih =>
      obtain ⟨e', he', hle⟩ := h e List.mem_cons_self
      have hhead := le_foldr_max (List.mem_map_of_mem (f := depth) he')
      have htail := ih fun e he => h e (List.mem_cons_of_mem _ he)
      exact max_le (by omega) htail
  rw [depth_node, depth_node]
  omega

/-! ## Comparison -/

variable {ops : ScalarOperators Op}

theorem fMatchChildrenOrdered_iff {l l' : List (CExpression Op)} (hlen : l.length = l'.length) :
    FMatchChildrenOrdered (equalsEach ops l) l' = true ↔
      Matching.Alike (Equals ops) l l' := by
  induction l generalizing l' with
  | nil =>
    rw [List.length_eq_zero_iff.1 hlen.symm]
    simp [equalsEach, FMatchChildrenOrdered]
  | cons e l ih =>
    cases l' with
    | nil => simp at hlen
    | cons e' l' =>
      rw [equalsEach, FMatchChildrenOrdered, Bool.and_eq_true, ih (by simpa using hlen)]
      exact ⟨fun ⟨h, hl⟩ => .cons h hl, fun | .cons h hl => ⟨h, hl⟩⟩

theorem equalsEach_eq_map (l : List (CExpression Op)) : equalsEach ops l = l.map (Equals ops) := by
  induction l with
  | nil => rfl
  | cons e l ih => rw [equalsEach, ih, List.map_cons]

/-- `Equals` on the root and the children. -/
theorem equals_node_iff {pop pop' : Op} {l l' : List (CExpression Op)} :
    Equals ops (.node pop l) (.node pop' l') = true ↔
      l.length = l'.length ∧ ops.Matches pop pop' = true ∧
        if 0 < l.length ∧ ops.FInputOrderSensitive pop = true then
          Matching.Alike (Equals ops) l l'
        else ∀ e ∈ l, l.countP (Equals ops e) = l'.countP (Equals ops e) := by
  rw [Equals]
  by_cases hlen : l.length = l'.length
  · cases hmatch : ops.Matches pop pop'
    · simp [hlen]
    · rw [if_neg (by simp [hlen])]
      by_cases hord : 0 < l.length ∧ ops.FInputOrderSensitive pop = true
      · rw [if_pos (by simpa using hord), if_pos hord, fMatchChildrenOrdered_iff hlen]
        simp [hlen]
      · rw [if_neg (by simpa using hord), if_neg hord, FMatchChildrenUnordered, equalsEach_eq_map]
        simp [hlen, UlOccurrences]
  · simp [hlen]

/-- Members of a set on which `Equals` is an equivalence, compared by an operator above them. -/
theorem equals_node_iff_of_equivOn {S : CExpression Op → Prop}
    (h : Matching.EquivOn (Equals ops) S) {pop pop' : Op} {l l' : List (CExpression Op)}
    (hl : ∀ e ∈ l, S e) (hl' : ∀ e ∈ l', S e) :
    Equals ops (.node pop l) (.node pop' l') = true ↔
      ops.Matches pop pop' = true ∧
        if ops.FInputOrderSensitive pop = true then Matching.Alike (Equals ops) l l'
        else Matching.Matched (Equals ops) l l' := by
  rw [equals_node_iff]
  have hmatched : (l.length = l'.length ∧
      ∀ e ∈ l, l.countP (Equals ops e) = l'.countP (Equals ops e)) ↔
        Matching.Matched (Equals ops) l l' :=
    ⟨fun ⟨hlen, hcount⟩ => Matching.matched_of_countP h hl hl' hlen hcount,
      fun hm => ⟨hm.length_eq, fun e he => hm.countP_eq h hl hl' (hl e he)⟩⟩
  by_cases hord : ops.FInputOrderSensitive pop = true
  · rw [if_pos hord]
    by_cases hpos : 0 < l.length
    · rw [if_pos ⟨hpos, hord⟩]
      exact ⟨fun hroot => hroot.2, fun hroot => ⟨hroot.2.length_eq, hroot⟩⟩
    · have hnil : l = [] := List.length_eq_zero_iff.1 (by omega)
      subst hnil
      rw [if_neg fun hand => hpos hand.1]
      refine ⟨fun ⟨hlen, hmatch, _⟩ => ⟨hmatch, ?_⟩, fun ⟨hmatch, hm⟩ => ?_⟩
      · rw [List.length_eq_zero_iff.1 hlen.symm]
        exact .nil
      · exact ⟨hm.length_eq, hmatch, by simp⟩
  · rw [if_neg fun hpos => hord hpos.2, if_neg hord, ← hmatched]
    tauto

section Equivalence

variable (lawful : ops.Lawful)
include lawful

/-- **`Equals` is an equivalence**, by induction on the height of the trees it compares. -/
theorem equals_equivOn (n : ℕ) :
    Matching.EquivOn (Equals ops) fun e : CExpression Op => e.depth < n := by
  induction n with
  | zero => exact ⟨fun _ h => absurd h (by omega), fun _ _ h => absurd h (by omega),
      fun _ _ _ h => absurd h (by omega)⟩
  | succ n ih =>
    have hchild : ∀ {pop : Op} {l : List (CExpression Op)},
        (CExpression.node pop l).depth < n + 1 → ∀ e ∈ l, e.depth < n := fun {pop l} h e he => by
      have hlt : e.depth < (CExpression.node pop l).depth := depth_lt he
      omega
    refine ⟨fun e _ => equals_self e, ?_, ?_⟩
    · rintro ⟨pop, l⟩ ⟨pop', l'⟩ hd hd' heq
      have hl := hchild hd
      have hl' := hchild hd'
      rw [equals_node_iff_of_equivOn ih hl hl'] at heq
      rw [equals_node_iff_of_equivOn ih hl' hl, ← lawful.sensitive _ _ heq.1]
      refine ⟨lawful.symm _ _ heq.1, ?_⟩
      split
      · rename_i hord
        rw [if_pos hord] at heq
        exact heq.2.symm ih hl hl'
      · rename_i hord
        rw [if_neg hord] at heq
        exact heq.2.symm ih hl hl'
    · rintro ⟨pop, l⟩ ⟨pop', l'⟩ ⟨pop'', l''⟩ hd hd' hd'' heq heq'
      have hl := hchild hd
      have hl' := hchild hd'
      have hl'' := hchild hd''
      rw [equals_node_iff_of_equivOn ih hl hl'] at heq
      rw [equals_node_iff_of_equivOn ih hl' hl'', ← lawful.sensitive _ _ heq.1] at heq'
      rw [equals_node_iff_of_equivOn ih hl hl'']
      refine ⟨lawful.trans _ _ _ heq.1 heq'.1, ?_⟩
      split
      · rename_i hord
        rw [if_pos hord] at heq heq'
        exact heq.2.trans heq'.2 ih hl hl' hl''
      · rename_i hord
        rw [if_neg hord] at heq heq'
        exact heq.2.trans heq'.2 ih hl hl' hl''

theorem equals_symm {e e' : CExpression Op} (h : Equals ops e e' = true) :
    Equals ops e' e = true :=
  (equals_equivOn lawful (max e.depth e'.depth + 1)).symm e e' (by omega) (by omega) h

theorem equals_trans {e e' e'' : CExpression Op} (h : Equals ops e e' = true)
    (h' : Equals ops e' e'' = true) : Equals ops e e'' = true :=
  (equals_equivOn lawful (max e.depth (max e'.depth e''.depth) + 1)).trans e e' e'' (by omega)
    (by omega) (by omega) h h'

/-- **Equal expressions have one value**, where operators that match do the same and those that do
not care about the order of their inputs give one value for every order. -/
theorem fold_eq_of_equals {sem : Op → List V → V}
    (matches_eq : ∀ pop pop', ops.Matches pop pop' = true → sem pop = sem pop')
    (unordered : ∀ pop, ops.FInputOrderSensitive pop = false →
      ∀ vs vs', vs.Perm vs' → sem pop vs = sem pop vs') :
    ∀ {e e' : CExpression Op}, Equals ops e e' = true → e.fold sem = e'.fold sem := by
  intro e
  induction e using CExpression.induction with
  | node pop l ih =>
    rintro ⟨pop', l'⟩ heq
    have hequiv := equals_equivOn lawful
      (max (CExpression.node pop l).depth (CExpression.node pop' l').depth)
    rw [equals_node_iff_of_equivOn hequiv
      (fun e he => lt_max_of_lt_left (depth_lt he))
      (fun e he => lt_max_of_lt_right (depth_lt he))] at heq
    rw [fold_node, fold_node, ← matches_eq _ _ heq.1]
    by_cases hord : ops.FInputOrderSensitive pop = true
    · rw [if_pos hord] at heq
      rw [heq.2.map_eq fun e he e' _ => ih e he]
    · rw [if_neg hord] at heq
      exact unordered pop (by simpa using hord) _ _ (heq.2.map_perm fun e he e' _ => ih e he)

end Equivalence

end CExpression

end BossOptimizer

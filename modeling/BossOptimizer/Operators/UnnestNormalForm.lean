import BossOptimizer.Operators.CExpressionUtils

/-!
# The normal form of unnesting

In normal form no AND stands directly below an AND, no OR below an OR, and no NOT above a Boolean
operator. `PexprUnnest` decides whether a child is pulled up before the child is unnested. A child
that turns into its parent's own connective when its NOT is pushed down stays where it is, and so
does a child that is bared by two NOT that cancel each other; two NOT on top of one another are
kept unless a third one stands above them.
-/

namespace BossOptimizer

namespace Predicate

variable {Op : Type}

/-! ## Normal forms -/

/-- The lower operator should not stand directly below the upper one. -/
def nested : PredicateOp Op → PredicateOp Op → Bool
  | .boolOp .and, .boolOp .and => true
  | .boolOp .or, .boolOp .or => true
  | .boolOp .not, .boolOp _ => true
  | _, _ => false

/-- The normal form. -/
inductive Normal : Predicate Op → Prop
  | node (pop : PredicateOp Op) (pdrgpexpr : List (Predicate Op))
    (each : ∀ pexpr ∈ pdrgpexpr, Normal pexpr)
    (clear : ∀ pexpr ∈ pdrgpexpr, nested pop pexpr.Pop = false) : Normal (.node pop pdrgpexpr)

/-- `nested`, or a NOT above an existential subquery, which takes the NOT in. -/
def reducible (pop popChild : PredicateOp Op) : Bool :=
  nested pop popChild ||
    match pop, popChild with
    | .boolOp .not, .subqueryExists => true
    | .boolOp .not, .subqueryNotExists => true
    | _, _ => false

/-- The normal form in which unnesting finds nothing to do. -/
inductive Settled : Predicate Op → Prop
  | node (pop : PredicateOp Op) (pdrgpexpr : List (Predicate Op))
    (one : pop = .boolOp .not → pdrgpexpr.length ≤ 1)
    (each : ∀ pexpr ∈ pdrgpexpr, Settled pexpr)
    (clear : ∀ pexpr ∈ pdrgpexpr, reducible pop pexpr.Pop = false) : Settled (.node pop pdrgpexpr)

/-- The tree whose children `PexprUnnest` goes on with: a NOT on top is pushed down. -/
def pushed : Predicate Op → Predicate Op
  | .node (.boolOp .not) (pexprChild :: _) => PexprPushNotOneLevel pexprChild
  | pexpr => pexpr

/-- `UnnestChild` pulls the children of this child up. -/
def pulledUp (pexpr pexprChild : Predicate Op) : Bool :=
  (FAnd pexpr && FAnd pexprChild) || (FOr pexpr && FOr pexprChild)

/-- What `PexprUnnest` makes of the children of a pushed tree fits below its root: the children of a
    child that is pulled up do, and any other child has, once two NOT have cancelled and its own NOT
    has been pushed down, a root that may stand there, over children that fit below it. -/
inductive Fits : Predicate Op → Prop
  | intro (pexpr : Predicate Op)
    (up : ∀ pexprChild ∈ pexpr.PdrgPexpr, pulledUp pexpr pexprChild = true → Fits pexprChild)
    (clear : ∀ pexprChild ∈ pexpr.PdrgPexpr, pulledUp pexpr pexprChild = false →
      reducible pexpr.Pop (pushed (cancelNots (FHasNegatedChild pexpr) pexprChild)).Pop = false)
    (down : ∀ pexprChild ∈ pexpr.PdrgPexpr, pulledUp pexpr pexprChild = false →
      Fits (pushed (cancelNots (FHasNegatedChild pexpr) pexprChild))) : Fits pexpr

/-! ## Reading the definitions -/

theorem pexprUnnest_eq (pexpr : Predicate Op) :
    PexprUnnest pexpr = .node (pushed pexpr).Pop (PdrgpexprUnnestChildren (pushed pexpr)) := by
  fun_cases pushed pexpr with
  | case1 pexprChild rest => exact PexprUnnest.eq_1 pexprChild rest
  | case2 _ hother => exact PexprUnnest.eq_2 _ hother

theorem depth_pushed_le (pexpr : Predicate Op) : (pushed pexpr).depth ≤ pexpr.depth := by
  unfold pushed
  split
  · rename_i pexprChild rest
    have hlt : pexprChild.depth < CExpression.depth (.node (.boolOp .not) (pexprChild :: rest)) :=
      CExpression.depth_lt List.mem_cons_self
    exact (depth_pexprPushNotOneLevel_le pexprChild).trans hlt
  · exact le_rfl

/-- A NOT that is left on top has one child. -/
theorem length_pushed_le (pexpr : Predicate Op) (h : (pushed pexpr).Pop = .boolOp .not) :
    (pushed pexpr).PdrgPexpr.length ≤ 1 := by
  unfold pushed at h ⊢
  split at h
  · unfold PexprPushNotOneLevel at h ⊢
    split at h <;> simp_all [CExpression.Pop, CExpression.PdrgPexpr, PexprNegate]
  · rename_i hother
    obtain ⟨pop, l⟩ := pexpr
    cases l with
    | nil => simp [CExpression.PdrgPexpr]
    | cons e l => exact absurd (h ▸ rfl) (hother e l)

theorem mem_pdrgpexprUnnestChildren {pexpr x : Predicate Op} :
    x ∈ PdrgpexprUnnestChildren pexpr ↔ ∃ c ∈ pexpr.PdrgPexpr,
      if pulledUp pexpr c then x ∈ PdrgpexprUnnestChildren c
      else x = PexprUnnest (cancelNots (FHasNegatedChild pexpr) c) := by
  rw [pdrgpexprUnnestChildren_eq, List.mem_flatMap]
  refine exists_congr fun c => and_congr_right fun _ => ?_
  rw [UnnestChild, pulledUp]
  split <;> simp

theorem pulledUp_iff {pexpr c : Predicate Op} : pulledUp pexpr c = true ↔
    (pexpr.Pop = .boolOp .and ∧ c.Pop = .boolOp .and) ∨
      pexpr.Pop = .boolOp .or ∧ c.Pop = .boolOp .or := by
  simp only [pulledUp, Bool.or_eq_true, Bool.and_eq_true, fAnd_iff, fOr_iff]

/-- Children that may stand where they are need not be pulled up. -/
theorem pulledUp_of_nested {pexpr c : Predicate Op} (h : nested pexpr.Pop c.Pop = false) :
    pulledUp pexpr c = false := by
  rw [← Bool.not_eq_true, pulledUp_iff]
  rintro (⟨hp, hc⟩ | ⟨hp, hc⟩) <;> simp [hp, hc, nested] at h

theorem nested_of_reducible {pop pop' : PredicateOp Op} (h : reducible pop pop' = false) :
    nested pop pop' = false :=
  (Bool.or_eq_false_iff.1 h).1

/-! ## What unnesting settles -/

theorem settled_node_iff {pop : PredicateOp Op} {l : List (Predicate Op)} :
    Settled (.node pop l) ↔ (pop = .boolOp .not → l.length ≤ 1) ∧ (∀ e ∈ l, Settled e) ∧
      ∀ e ∈ l, reducible pop e.Pop = false :=
  ⟨fun h => by cases h; exact ⟨‹_›, ‹_›, ‹_›⟩, fun h => .node pop l h.1 h.2.1 h.2.2⟩

/-- NOT keeps one child for each child. -/
theorem length_pdrgpexprUnnestChildren {pexpr : Predicate Op} (h : pexpr.Pop = .boolOp .not) :
    (PdrgpexprUnnestChildren pexpr).length = pexpr.PdrgPexpr.length := by
  obtain ⟨pop, l⟩ := pexpr
  obtain rfl : pop = .boolOp .not := h
  rw [pdrgpexprUnnestChildren_eq]
  have hone : ∀ e : Predicate Op, (UnnestChild false false
      (FHasNegatedChild (.node (.boolOp .not) l)) e).length = 1 := fun e => by
    rw [unnestChild_neither, List.length_singleton]
  simp only [FAnd, FOr, CExpression.PdrgPexpr, List.length_flatMap, hone]
  simp

/-- **The unnested children settle below their parent exactly when they fit**, by induction on the
height of the tree. -/
theorem settled_unnestedChildren_iff (n : ℕ) : ∀ e : Predicate Op, e.depth < n →
    (e.Pop = .boolOp .not → e.PdrgPexpr.length ≤ 1) →
      (Settled (.node e.Pop (PdrgpexprUnnestChildren e)) ↔ Fits e) := by
  induction n with
  | zero => exact fun e h => absurd h (Nat.not_lt_zero _)
  | succ n ih =>
    intro e hd hone
    have hlt : ∀ c ∈ e.PdrgPexpr, c.depth < n := fun c hc => by
      have := depth_lt_of_mem hc
      omega
    have hup : ∀ c ∈ e.PdrgPexpr, pulledUp e c = true →
        (Settled (.node e.Pop (PdrgpexprUnnestChildren c)) ↔ Fits c) := fun c hc hup => by
      have hpop : c.Pop = e.Pop ∧ c.Pop ≠ .boolOp .not := by
        rcases pulledUp_iff.1 hup with h | h <;> simp [h.1, h.2]
      rw [← hpop.1]
      exact ih c (hlt c hc) fun hnot => absurd hnot hpop.2
    have hdown : ∀ c ∈ e.PdrgPexpr,
        (Settled (PexprUnnest (cancelNots (FHasNegatedChild e) c)) ↔
          Fits (pushed (cancelNots (FHasNegatedChild e) c))) := fun c hc => by
      rw [pexprUnnest_eq]
      refine ih _ ?_ (length_pushed_le _)
      exact ((depth_pushed_le _).trans (depth_cancelNots_le _ c)).trans_lt (hlt c hc)
    have hroot : ∀ c : Predicate Op, (PexprUnnest (cancelNots (FHasNegatedChild e) c)).Pop =
        (pushed (cancelNots (FHasNegatedChild e) c)).Pop := fun c => by
      rw [pexprUnnest_eq]
      rfl
    constructor
    · intro h
      obtain ⟨harity, heach, hclear⟩ := settled_node_iff.1 h
      have hmem : ∀ c ∈ e.PdrgPexpr, pulledUp e c = false →
          PexprUnnest (cancelNots (FHasNegatedChild e) c) ∈ PdrgpexprUnnestChildren e :=
        fun c hc hnup => mem_pdrgpexprUnnestChildren.2 ⟨c, hc, by simp [hnup]⟩
      refine .intro e (fun c hc hcup => (hup c hc hcup).1 ?_) (fun c hc hnup => ?_)
        fun c hc hnup => (hdown c hc).1 (heach _ (hmem c hc hnup))
      · have hsub : ∀ x ∈ PdrgpexprUnnestChildren c, x ∈ PdrgpexprUnnestChildren e := fun x hx =>
          mem_pdrgpexprUnnestChildren.2 ⟨c, hc, by simpa [hcup] using hx⟩
        refine settled_node_iff.2 ⟨fun hnot => ?_, fun x hx => heach x (hsub x hx),
          fun x hx => hclear x (hsub x hx)⟩
        rcases pulledUp_iff.1 hcup with h | h <;> simp [h.1] at hnot
      · rw [← hroot]
        exact hclear _ (hmem c hc hnup)
    · rintro ⟨_, up, clear, down⟩
      have hall : ∀ x ∈ PdrgpexprUnnestChildren e, Settled x ∧ reducible e.Pop x.Pop = false := by
        intro x hx
        obtain ⟨c, hc, hx⟩ := mem_pdrgpexprUnnestChildren.1 hx
        split at hx
        · rename_i hcup
          obtain ⟨-, heach, hclear⟩ := settled_node_iff.1 ((hup c hc hcup).2 (up c hc hcup))
          exact ⟨heach x hx, hclear x hx⟩
        · rename_i hnup
          rw [Bool.not_eq_true] at hnup
          subst hx
          exact ⟨(hdown c hc).2 (down c hc hnup), hroot c ▸ clear c hc hnup⟩
      exact settled_node_iff.2 ⟨fun hnot => length_pdrgpexprUnnestChildren hnot ▸ hone hnot,
        fun x hx => (hall x hx).1, fun x hx => (hall x hx).2⟩

/-! ## Fixed points -/

/-- A settled child is not two NOT. -/
theorem cancelNots_of_nested {c : Predicate Op} (fHasNegatedChild : Bool)
    (h : ∀ e ∈ c.PdrgPexpr, nested c.Pop e.Pop = false) : cancelNots fHasNegatedChild c = c := by
  unfold cancelNots
  split
  · exact absurd (h _ List.mem_cons_self) (by simp [CExpression.Pop, nested])
  · rfl

/-- Children that may stay where they are, and stay as they are. -/
theorem pdrgpexprUnnestChildren_of_nested {e : Predicate Op}
    (hclear : ∀ c ∈ e.PdrgPexpr, nested e.Pop c.Pop = false)
    (hchild : ∀ c ∈ e.PdrgPexpr, ∀ x ∈ c.PdrgPexpr, nested c.Pop x.Pop = false) :
    PdrgpexprUnnestChildren e = e.PdrgPexpr.map PexprUnnest := by
  rw [pdrgpexprUnnestChildren_eq, List.map_eq_flatMap]
  refine List.flatMap_congr fun c hc => ?_
  have hnup := pulledUp_of_nested (hclear c hc)
  rw [UnnestChild, if_neg (by simpa [pulledUp] using hnup),
    cancelNots_of_nested _ (hchild c hc)]

/-- A NOT that stays on top when it is pushed down has only that to do. -/
theorem pexprPushNotOneLevel_of_reducible {c : Predicate Op}
    (h : reducible (.boolOp .not) c.Pop = false) : PexprPushNotOneLevel c = PexprNegate c := by
  unfold PexprPushNotOneLevel
  split <;> simp_all [CExpression.Pop, reducible, nested]

theorem reducible_of_pexprPushNotOneLevel {c : Predicate Op}
    (hclear : nested (.boolOp .not) c.Pop = false)
    (h : (PexprPushNotOneLevel c).Pop = .boolOp .not) :
    reducible (.boolOp .not) c.Pop = false := by
  obtain ⟨pop, l⟩ := c
  cases pop <;> simp_all [PexprPushNotOneLevel, CExpression.Pop, reducible, nested]

/-- A settled tree is left alone. -/
theorem pexprUnnest_of_settled {e : Predicate Op} (h : Settled e) : PexprUnnest e = e := by
  induction h with
  | node pop l one each clear ih =>
    have hpushed : pushed (.node pop l) = .node pop l := by
      unfold pushed
      split
      · rename_i c rest heq
        obtain ⟨rfl, rfl⟩ := CExpression.node.inj heq
        obtain rfl : rest = [] := by simpa using one rfl
        exact pexprPushNotOneLevel_of_reducible (clear c List.mem_cons_self)
      · rfl
    rw [pexprUnnest_eq, hpushed, pdrgpexprUnnestChildren_of_nested]
    · exact congrArg _ ((List.map_congr_left ih).trans (List.map_id' l))
    · exact fun c hc => nested_of_reducible (clear c hc)
    · rintro c hc x hx
      cases each c hc with
      | node _ _ _ _ clear => exact nested_of_reducible (clear x hx)

theorem normal_of_settled {e : Predicate Op} (h : Settled e) : Normal e := by
  induction h with
  | node pop l _ _ clear ih => exact .node pop l ih fun c hc => nested_of_reducible (clear c hc)

theorem nested_of_normal {e : Predicate Op} (h : Normal e) :
    ∀ c ∈ e.PdrgPexpr, nested e.Pop c.Pop = false := by
  cases h
  assumption

/-- A tree in normal form that is left alone is settled. -/
theorem settled_of_pexprUnnest {e : Predicate Op} (h : Normal e) (hfix : PexprUnnest e = e) :
    Settled e := by
  induction h with
  | node pop l each clear ih =>
    rw [pexprUnnest_eq] at hfix
    have hchild : ∀ c ∈ l, ∀ x ∈ c.PdrgPexpr, nested c.Pop x.Pop = false :=
      fun c hc => nested_of_normal (each c hc)
    by_cases hnot : ∃ c rest, CExpression.node pop l = .node (.boolOp .not) (c :: rest)
    · obtain ⟨c, rest, heq⟩ := hnot
      obtain ⟨rfl, rfl⟩ := CExpression.node.inj heq
      obtain ⟨hpop, hl⟩ := CExpression.node.inj hfix
      have hred := reducible_of_pexprPushNotOneLevel (clear c List.mem_cons_self) hpop
      -- the one child of the NOT that has been pushed down is `c`
      rw [pushed, pexprPushNotOneLevel_of_reducible hred, PexprNegate,
        pdrgpexprUnnestChildren_of_nested (fun x hx => ?_) fun x hx => ?_] at hl
      · obtain ⟨hc, rfl⟩ : PexprUnnest c = c ∧ rest = [] := by
          simpa [CExpression.PdrgPexpr, eq_comm] using hl
        refine .node _ _ (fun _ => le_rfl) (fun x hx => ?_) fun x hx => ?_
        · exact ih x hx (List.mem_singleton.1 hx ▸ hc)
        · exact List.mem_singleton.1 hx ▸ hred
      · obtain rfl := List.mem_singleton.1 hx
        exact nested_of_reducible hred
      · exact List.mem_singleton.1 hx ▸ hchild c List.mem_cons_self
    · have hpushed : pushed (.node pop l) = .node pop l := by
        unfold pushed
        split
        · exact absurd ⟨_, _, ‹_›⟩ hnot
        · rfl
      rw [hpushed, pdrgpexprUnnestChildren_of_nested clear hchild] at hfix
      have hmap : l.map PexprUnnest = l.map id := by
        rw [List.map_id]
        exact (CExpression.node.inj hfix).2
      have hfixed : ∀ c ∈ l, PexprUnnest c = c := List.map_inj_left.1 hmap
      have hother : pop = .boolOp .not → l = [] := fun hpop => by
        cases l with
        | nil => rfl
        | cons c rest => exact absurd ⟨c, rest, by rw [hpop]⟩ hnot
      refine .node pop l (fun hpop => by simp [hother hpop])
        (fun c hc => ih c hc (hfixed c hc)) fun c hc => ?_
      have hclear : nested pop c.Pop = false := clear c hc
      have hne : pop ≠ .boolOp .not := fun hpop => by simp [hother hpop] at hc
      cases pop <;> simp_all [reducible]

/-! ## When unnesting reaches the normal form -/

/-- **Unnesting reaches the normal form, and leaves its result alone, exactly when the children fit
below what they are put under.** -/
theorem normal_pexprUnnest_iff (e : Predicate Op) :
    (Normal (PexprUnnest e) ∧ PexprUnnest (PexprUnnest e) = PexprUnnest e) ↔ Fits (pushed e) := by
  have hsettled : Settled (PexprUnnest e) ↔ Fits (pushed e) := by
    rw [pexprUnnest_eq]
    exact settled_unnestedChildren_iff _ (pushed e) (Nat.lt_succ_self _) (length_pushed_le e)
  rw [← hsettled]
  exact ⟨fun h => settled_of_pexprUnnest h.1 h.2,
    fun h => ⟨normal_of_settled h, pexprUnnest_of_settled h⟩⟩

/-- `p AND NOT (q OR r)` becomes `p AND (NOT q AND NOT r)`. -/
theorem not_normal_pexprUnnest : ¬∀ e : Predicate ℕ,
    Normal (PexprUnnest e) ∧ PexprUnnest (PexprUnnest e) = PexprUnnest e := by
  intro hall
  have hresult : PexprUnnest (.node (.boolOp .and) [leaf 0, PexprNegate (.node (.boolOp .or)
      [leaf 1, leaf 2])]) = .node (.boolOp .and) [leaf 0, .node (.boolOp .and)
        [PexprNegate (leaf 1), PexprNegate (leaf 2)]] := by
    simp [pexprUnnest_eq, pushed, pdrgpexprUnnestChildren_eq, UnnestChild, cancelNots,
      PexprPushNotOneLevel, PexprNegate, leaf, FAnd, FOr, CExpression.Pop, CExpression.PdrgPexpr]
  have h := nested_of_normal (hresult ▸ (hall _).1)
  exact absurd (h (.node (.boolOp .and) [PexprNegate (leaf 1), PexprNegate (leaf 2)])
    (by simp [CExpression.PdrgPexpr])) (by decide)

end Predicate

end BossOptimizer

import BossOptimizer.Operators.Scoping

/-!
# Cross products of operands

An n-ary join without outer joins is the cross product of its children, filtered. The rows of the
product do not depend on the order of operands with different columns, and a product is the product
of any two parts of its operands.
-/

namespace BossOptimizer

variable {D : Type}

/-- The rows of an operand and the columns they carry. -/
abbrev Operand (D : Type) : Type := List (Row D) × List CColRef

/-- One operand after the other. -/
def crossRows (acc : List (Row D)) (operands : List (Operand D)) : List (Row D) :=
  operands.foldl (fun acc operand => acc.flatMap fun a => operand.1.map (merge operand.2 a)) acc

def operandColumns (operands : List (Operand D)) : List CColRef := operands.flatMap (·.2)

@[simp] theorem operandColumns_cons (operand : Operand D) (operands : List (Operand D)) :
    operandColumns (operand :: operands) = operand.2 ++ operandColumns operands := rfl

variable {acc acc' : List (Row D)} {operands operands' : List (Operand D)}

theorem crossRows_cons (operand : Operand D) : crossRows acc (operand :: operands) =
    crossRows (acc.flatMap fun a => operand.1.map (merge operand.2 a)) operands := rfl

theorem crossRows_append :
    crossRows acc (operands ++ operands') = crossRows (crossRows acc operands) operands' :=
  List.foldl_append

/-- The product starts from each row on its own. -/
theorem crossRows_eq_flatMap (acc : List (Row D)) (operands : List (Operand D)) :
    crossRows acc operands = acc.flatMap fun a => crossRows [a] operands := by
  induction operands generalizing acc with
  | nil => simp [crossRows]
  | cons operand operands ih =>
    rw [crossRows_cons, ih, List.flatMap_assoc]
    refine List.flatMap_congr fun a _ => ?_
    rw [crossRows_cons, ih]
    simp

/-- Outside the columns of the operands a row is the row it started from. -/
theorem crossRows_of_notMem {a x : Row D} (hx : x ∈ crossRows [a] operands) {c : CColRef}
    (hc : c ∉ operandColumns operands) : x c = a c := by
  induction operands generalizing a with
  | nil => rw [List.mem_singleton.1 hx]
  | cons operand operands ih =>
    rw [operandColumns_cons, List.mem_append, not_or] at hc
    rw [crossRows_cons, crossRows_eq_flatMap] at hx
    obtain ⟨b, hb, hx⟩ := List.mem_flatMap.1 hx
    simp only [List.flatMap_cons, List.flatMap_nil, List.append_nil] at hb
    obtain ⟨r, -, rfl⟩ := List.mem_map.1 hb
    rw [ih hx hc.2, merge_of_notMem hc.1]

/-- The rows from another start differ from these outside the columns of the operands only. -/
theorem crossRows_start (u v : Row D) (operands : List (Operand D)) :
    crossRows [u] operands = (crossRows [v] operands).map (merge (operandColumns operands) u) := by
  induction operands generalizing u v with
  | nil =>
    have hmerge : merge [] u v = u := funext fun c => merge_of_notMem List.not_mem_nil
    simp [crossRows, operandColumns, hmerge]
  | cons operand operands ih =>
    have hstep : ∀ w : Row D, crossRows [w] (operand :: operands) =
        operand.1.flatMap fun r => crossRows [merge operand.2 w r] operands := by
      intro w
      rw [crossRows_cons, crossRows_eq_flatMap]
      simp [List.flatMap_map]
    rw [hstep, hstep, List.map_flatMap]
    refine List.flatMap_congr fun r _ => ?_
    rw [ih (merge operand.2 u r) (merge operand.2 v r)]
    rw [operandColumns_cons]
    refine List.map_congr_left fun x hx => funext fun c => ?_
    by_cases hc : c ∈ operandColumns operands
    · rw [merge_of_mem hc, merge_of_mem (List.mem_append_right _ hc)]
    · rw [merge_of_notMem hc]
      by_cases hhead : c ∈ operand.2
      · rw [merge_of_mem hhead, merge_of_mem (List.mem_append_left _ hhead),
          crossRows_of_notMem hx hc, merge_of_mem hhead]
      · rw [merge_of_notMem hhead, merge_of_notMem]
        rw [List.mem_append, not_or]
        exact ⟨hhead, hc⟩

/-- **The product of two parts**: each row of the first part with each of the second. -/
theorem crossRows_append_eq (env : Row D) : crossRows acc (operands ++ operands') =
    (crossRows acc operands).flatMap fun u =>
      (crossRows [env] operands').map (merge (operandColumns operands') u) := by
  rw [crossRows_append, crossRows_eq_flatMap]
  exact List.flatMap_congr fun u _ => crossRows_start u env operands'

/-! ## The order of the operands -/

theorem crossRows_perm_acc (h : acc.Perm acc') (operands : List (Operand D)) :
    (crossRows acc operands).Perm (crossRows acc' operands) := by
  rw [crossRows_eq_flatMap acc, crossRows_eq_flatMap acc']
  exact h.flatMap_right _

/-- Pairs can be made from either side. -/
theorem flatMap_map_comm {α β γ : Type*} (l : List α) (l' : List β) (f : α → β → γ) :
    (l.flatMap fun a => l'.map (f a)).Perm (l'.flatMap fun b => l.map (f · b)) := by
  have hcomm := Multiset.bind_map_comm (l : Multiset α) (l' : Multiset β) (f := f)
  exact Multiset.coe_eq_coe.1 (by simpa using hcomm)

theorem filter_flatMap_eq {α β : Type*} (p : α → Bool) (f : α → List β) (l : List α) :
    (l.filter p).flatMap f = l.flatMap fun a => if p a then f a else [] := by
  induction l with
  | nil => rfl
  | cons a l ih =>
    rw [List.filter_cons, List.flatMap_cons, ← ih]
    split <;> simp

/-- Two operands with different columns can change places. -/
theorem crossRows_swap {operand operand' : Operand D} (hdisj : ∀ c ∈ operand.2, c ∉ operand'.2) :
    (crossRows acc (operand :: operand' :: operands)).Perm
      (crossRows acc (operand' :: operand :: operands)) := by
  rw [crossRows_cons, crossRows_cons, crossRows_cons, crossRows_cons]
  refine crossRows_perm_acc ?_ operands
  rw [List.flatMap_assoc, List.flatMap_assoc]
  refine List.Perm.flatMap_left _ fun a _ => ?_
  have hmerge : ∀ r r' : Row D, merge operand'.2 (merge operand.2 a r) r' =
      merge operand.2 (merge operand'.2 a r') r := by
    intro r r'
    funext c
    by_cases hc : c ∈ operand.2
    · rw [merge_of_notMem (hdisj c hc), merge_of_mem hc, merge_of_mem hc]
    · by_cases hc' : c ∈ operand'.2
      · rw [merge_of_mem hc', merge_of_notMem hc, merge_of_mem hc']
      · rw [merge_of_notMem hc', merge_of_notMem hc, merge_of_notMem hc, merge_of_notMem hc']
  rw [List.flatMap_map, List.flatMap_map]
  refine (flatMap_map_comm operand.1 operand'.1 _).trans (List.Perm.of_eq ?_)
  exact List.flatMap_congr fun r' _ => List.map_congr_left fun r _ => hmerge r r'

/-- **The order of operands with different columns does not matter.** -/
theorem crossRows_perm (h : operands.Perm operands')
    (hdisj : operands.Pairwise fun o o' => ∀ c ∈ o.2, c ∉ o'.2) :
    (crossRows acc operands).Perm (crossRows acc operands') := by
  induction h generalizing acc with
  | nil => exact List.Perm.refl _
  | cons operand _ ih => exact ih (List.pairwise_cons.1 hdisj).2
  | swap operand operand' _ =>
    refine crossRows_swap fun c hc => ?_
    exact (List.pairwise_cons.1 hdisj).1 operand (by simp) c hc
  | trans h _ ih ih' =>
    refine (ih hdisj).trans (ih' ((h.pairwise_iff ?_).1 hdisj))
    intro o o' hoo c hc hmem
    exact hoo c hmem hc

/-! ## N-ary joins without outer joins -/

variable [LinearOrder D] {ex : Execution D}

theorem naryJoinRows_none (onPreds : List (ScalarExpr D)) (j : ℕ) :
    naryJoinRows ex none onPreds j acc operands = crossRows acc operands := by
  induction operands generalizing j acc with
  | nil => rfl
  | cons operand operands ih =>
    have hinner : Joins.inner (fun _ _ => true) (merge operand.2) acc operand.1 =
        acc.flatMap fun a => operand.1.map (merge operand.2 a) := by
      simp [Joins.inner]
    rw [naryJoinRows, ih, crossRows_cons, ← hinner]
    rfl

end BossOptimizer

import Mathlib.Data.Multiset.Bind
import Mathlib.Tactic.Linarith

/-!
# Joins and groups of lists

The operators of a bag algebra over arbitrary rows. `p` says which rows match, `pair` builds the
row of a match, and `pad` the row of a row without a match. Results are lists up to order: nothing
here depends on the order of the rows of an operand.
-/

namespace Joins

variable {α β γ : Type*}

/-- One row for each matching pair. -/
def inner (p : α → β → Bool) (pair : α → β → γ) (l : List α) (r : List β) : List γ :=
  l.flatMap fun a => (r.filter (p a)).map (pair a)

/-- The rows of `a`: its matches or, without one, the padded row. -/
def matchesOrPad (p : α → β → Bool) (pair : α → β → γ) (pad : α → γ) (r : List β) (a : α) :
    List γ :=
  if r.any (p a) then (r.filter (p a)).map (pair a) else [pad a]

/-- The left rows are preserved. -/
def leftOuter (p : α → β → Bool) (pair : α → β → γ) (pad : α → γ) (l : List α) (r : List β) :
    List γ :=
  l.flatMap (matchesOrPad p pair pad r)

/-- Both sides are preserved. -/
def fullOuter (p : α → β → Bool) (pair : α → β → γ) (padLeft : α → γ) (padRight : β → γ)
    (l : List α) (r : List β) : List γ :=
  leftOuter p pair padLeft l r ++ (r.filter fun b => !l.any (p · b)).map padRight

variable {p : α → β → Bool} {pair : α → β → γ} {pad padLeft : α → γ} {padRight : β → γ}
  {l : List α} {r : List β}

/-! ## Rows -/

theorem mem_inner {c : γ} :
    c ∈ inner p pair l r ↔ ∃ a ∈ l, ∃ b ∈ r, p a b = true ∧ pair a b = c := by
  simp only [inner, List.mem_flatMap, List.mem_map, List.mem_filter, and_assoc]

theorem mem_matchesOrPad {a : α} {c : γ} (h : c ∈ matchesOrPad p pair pad r a) :
    (∃ b ∈ r, p a b = true ∧ pair a b = c) ∨ ((∀ b ∈ r, p a b = false) ∧ c = pad a) := by
  unfold matchesOrPad at h
  split at h
  · obtain ⟨b, hb, rfl⟩ := List.mem_map.1 h
    exact .inl ⟨b, (List.mem_filter.1 hb).1, (List.mem_filter.1 hb).2, rfl⟩
  · next hany => exact .inr ⟨by simpa using hany, List.mem_singleton.1 h⟩

theorem mem_leftOuter {c : γ} (h : c ∈ leftOuter p pair pad l r) :
    ∃ a ∈ l, (∃ b ∈ r, p a b = true ∧ pair a b = c) ∨
      ((∀ b ∈ r, p a b = false) ∧ c = pad a) := by
  obtain ⟨a, ha, hc⟩ := List.mem_flatMap.1 h
  exact ⟨a, ha, mem_matchesOrPad hc⟩

/-- Only the matches of the rows of the operands count. -/
theorem leftOuter_congr {p' : α → β → Bool} (h : ∀ a ∈ l, ∀ b ∈ r, p a b = p' a b) :
    leftOuter p pair pad l r = leftOuter p' pair pad l r := by
  have hrow : ∀ a ∈ l, matchesOrPad p pair pad r a = matchesOrPad p' pair pad r a := by
    intro a ha
    have hany : r.any (p a) = r.any (p' a) := by
      rw [Bool.eq_iff_iff, List.any_eq_true, List.any_eq_true]
      exact exists_congr fun b => and_congr_right fun hb => by rw [h a ha b hb]
    rw [matchesOrPad, matchesOrPad, hany, List.filter_congr (h a ha)]
  rw [leftOuter, leftOuter, List.flatMap_def, List.flatMap_def, List.map_congr_left hrow]

/-! ## Other rows with the same matches -/

section

variable {α' β' γ' δ : Type*} {p' : α' → β' → Bool} {pair' : α' → β' → γ'} {pad' : α' → γ'}
  {f : α → α'} {g : β → β'} {h : γ → δ} {h' : γ' → δ}

theorem any_map_match {a : α} {a' : α'} (hp : ∀ b ∈ r, p' a' (g b) = p a b) :
    (r.map g).any (p' a') = r.any (p a) := by
  rw [List.any_map, Bool.eq_iff_iff, List.any_eq_true, List.any_eq_true]
  exact exists_congr fun b => and_congr_right fun hb => by rw [Function.comp_apply, hp b hb]

theorem map_matchesOrPad {a : α} {a' : α'} (hp : ∀ b ∈ r, p' a' (g b) = p a b)
    (hpair : ∀ b ∈ r, h' (pair' a' (g b)) = h (pair a b)) (hpad : h' (pad' a') = h (pad a)) :
    (matchesOrPad p' pair' pad' (r.map g) a').map h' = (matchesOrPad p pair pad r a).map h := by
  rw [matchesOrPad, matchesOrPad, any_map_match hp]
  split
  · rw [List.filter_map, List.map_map, List.map_map, List.map_map]
    have hfilter : r.filter (p' a' ∘ g) = r.filter (p a) := List.filter_congr hp
    rw [hfilter]
    exact List.map_congr_left fun b hb => hpair b (List.mem_of_mem_filter hb)
  · rw [List.map_singleton, List.map_singleton, hpad]

/-- The rows of another row with the same matches. -/
theorem matchesOrPad_eq_map {p' : α' → β → Bool} {pair' : α' → β → γ'} {pad' : α' → γ'}
    {f : γ → γ'} {a : α} {a' : α'} (hp : ∀ b ∈ r, p' a' b = p a b)
    (hpair : ∀ b ∈ r, pair' a' b = f (pair a b)) (hpad : pad' a' = f (pad a)) :
    matchesOrPad p' pair' pad' r a' = (matchesOrPad p pair pad r a).map f := by
  have hmap : (matchesOrPad p' pair' pad' (r.map id) a').map id =
      (matchesOrPad p pair pad r a).map f := map_matchesOrPad hp hpair hpad
  simpa using hmap

/-- **Joins of other rows with the same matches** have the same results, as far as these agree. -/
theorem map_leftOuter (hp : ∀ a ∈ l, ∀ b ∈ r, p' (f a) (g b) = p a b)
    (hpair : ∀ a ∈ l, ∀ b ∈ r, h' (pair' (f a) (g b)) = h (pair a b))
    (hpad : ∀ a ∈ l, h' (pad' (f a)) = h (pad a)) :
    (leftOuter p' pair' pad' (l.map f) (r.map g)).map h' = (leftOuter p pair pad l r).map h := by
  rw [leftOuter, leftOuter, List.map_flatMap, List.map_flatMap, List.flatMap_map]
  exact List.flatMap_congr fun a ha => map_matchesOrPad (hp a ha) (hpair a ha) (hpad a ha)

theorem map_inner (hp : ∀ a ∈ l, ∀ b ∈ r, p' (f a) (g b) = p a b)
    (hpair : ∀ a ∈ l, ∀ b ∈ r, h' (pair' (f a) (g b)) = h (pair a b)) :
    (inner p' pair' (l.map f) (r.map g)).map h' = (inner p pair l r).map h := by
  rw [inner, inner, List.map_flatMap, List.map_flatMap, List.flatMap_map]
  refine List.flatMap_congr fun a ha => ?_
  have hfilter : r.filter (p' (f a) ∘ g) = r.filter (p a) := List.filter_congr (hp a ha)
  rw [List.filter_map, List.map_map, List.map_map, List.map_map, hfilter]
  exact List.map_congr_left fun b hb => hpair a ha b (List.mem_of_mem_filter hb)

end

/-- Only the rows of the operands count. -/
theorem inner_congr {p' : α → β → Bool} {pair' : α → β → γ}
    (hp : ∀ a ∈ l, ∀ b ∈ r, p' a b = p a b) (hpair : ∀ a ∈ l, ∀ b ∈ r, pair' a b = pair a b) :
    inner p' pair' l r = inner p pair l r := by
  refine List.flatMap_congr fun a ha => ?_
  rw [List.filter_congr (hp a ha)]
  exact List.map_congr_left fun b hb => hpair a ha b (List.mem_of_mem_filter hb)

theorem inner_cons {a : α} : inner p pair (a :: l) r =
    (r.filter (p a)).map (pair a) ++ inner p pair l r := List.flatMap_cons

/-- **A join on a key** that no two rows share pairs the rows built from the same element. -/
theorem inner_map_map {δ κ : Type*} [DecidableEq κ] {L : List δ} {key : δ → κ} {f : δ → α}
    {g : δ → β} (hnd : (L.map key).Nodup)
    (hp : ∀ a ∈ L, ∀ b ∈ L, p (f a) (g b) = decide (key a = key b)) :
    inner p pair (L.map f) (L.map g) = L.map fun a => pair (f a) (g a) := by
  have hone : ∀ a ∈ L, (L.filter fun b => key a = key b) = [a] := by
    intro a ha
    obtain ⟨s, t, rfl⟩ := List.append_of_mem ha
    have hpair := List.pairwise_map.1 hnd
    rw [List.pairwise_append, List.pairwise_cons] at hpair
    obtain ⟨-, ⟨ht, -⟩, hs⟩ := hpair
    have hleft : (s.filter fun b => key a = key b) = [] := by
      refine List.filter_eq_nil_iff.2 fun b hb => ?_
      simpa using (hs b hb a List.mem_cons_self).symm
    have hright : (t.filter fun b => key a = key b) = [] := by
      refine List.filter_eq_nil_iff.2 fun b hb => ?_
      simpa using ht b hb
    rw [List.filter_append, hleft, List.filter_cons_of_pos (by simp), hright, List.nil_append]
  rw [inner, List.flatMap_map]
  refine Eq.trans (List.flatMap_congr fun a ha => ?_) List.map_eq_flatMap.symm
  have hmatch : (L.filter (p (f a) ∘ g)) = [a] := (List.filter_congr (hp a ha)).trans (hone a ha)
  rw [List.filter_map, hmatch]
  rfl

theorem inner_eq_flatMap (p : α → β → Bool) (pair : α → β → γ) (l : List α) (r : List β) :
    inner p pair l r = l.flatMap fun a => r.flatMap fun b => if p a b then [pair a b] else [] := by
  refine List.flatMap_congr fun a _ => ?_
  induction r with
  | nil => rfl
  | cons b r ih =>
    rw [List.filter_cons, List.flatMap_cons, ← ih]
    split <;> simp

/-- A condition on the left rows can be checked on the matches. -/
theorem inner_filter_left {q : α → Bool} {q' : γ → Bool}
    (h : ∀ a ∈ l, ∀ b ∈ r, q' (pair a b) = q a) :
    inner p pair (l.filter q) r = (inner p pair l r).filter q' := by
  induction l with
  | nil => rfl
  | cons a l ih =>
    have hblock : ((r.filter (p a)).map (pair a)).filter q' =
        if q a then (r.filter (p a)).map (pair a) else [] := by
      have hconst : ∀ c ∈ (r.filter (p a)).map (pair a), q' c = q a := by
        intro c hc
        obtain ⟨b, hb, rfl⟩ := List.mem_map.1 hc
        exact h a (by simp) b (List.mem_of_mem_filter hb)
      rw [List.filter_congr hconst]
      cases q a <;> simp
    rw [inner_cons, List.filter_append, hblock, ← ih fun a ha => h a (by simp [ha]),
      List.filter_cons]
    cases q a with
    | true => exact inner_cons
    | false => rfl

/-- The matches can be found from either side. -/
theorem inner_swap :
    (inner p pair l r).Perm (inner (fun b a => p a b) (fun b a => pair a b) r l) := by
  rw [inner_eq_flatMap, inner_eq_flatMap]
  refine Multiset.coe_eq_coe.1 ?_
  have hcomm := Multiset.bind_bind (l : Multiset α) (r : Multiset β)
    (f := fun a b => ((if p a b then [pair a b] else [] : List γ) : Multiset γ))
  simpa using hcomm

/-- **A left outer join is the matches and the rows without one.** -/
theorem leftOuter_perm : (leftOuter p pair pad l r).Perm
    (inner p pair l r ++ (l.filter fun a => !r.any (p a)).map pad) := by
  induction l with
  | nil => exact List.Perm.refl _
  | cons a l ih =>
    rw [leftOuter, inner, List.flatMap_cons, List.flatMap_cons, List.filter_cons]
    by_cases hany : r.any (p a) = true
    · rw [matchesOrPad, if_pos hany, if_neg (by simp [hany]), List.append_assoc]
      exact ih.append_left _
    · have hnone : r.filter (p a) = [] := List.filter_eq_nil_iff.2 (by simpa using hany)
      rw [matchesOrPad, if_neg hany, if_pos (by simpa using hany), hnone, List.map_nil,
        List.nil_append, List.map_cons]
      exact (ih.cons _).trans List.perm_middle.symm

/-- Summing up over the selected matches counts each left row as often as it has one. -/
theorem sum_filter_inner {M : Type*} [AddCommMonoid M] (q : γ → Bool) {F : γ → M} {F' : α → M}
    (hF : ∀ a ∈ l, ∀ b ∈ r, F (pair a b) = F' a) :
    (((inner p pair l r).filter q).map F).sum =
      (l.map fun a => (r.countP fun b => p a b && q (pair a b)) • F' a).sum := by
  induction l with
  | nil => simp [inner]
  | cons a l ih =>
    have hone : ((((r.filter (p a)).map (pair a)).filter q).map F).sum =
        (r.countP fun b => p a b && q (pair a b)) • F' a := by
      have hconst : ∀ m ∈ (((r.filter (p a)).map (pair a)).filter q).map F, m = F' a := by
        intro m hm
        obtain ⟨c, hc, rfl⟩ := List.mem_map.1 hm
        obtain ⟨b, hb, rfl⟩ := List.mem_map.1 (List.mem_of_mem_filter hc)
        exact hF a (by simp) b (List.mem_of_mem_filter hb)
      rw [List.sum_eq_card_nsmul _ _ hconst, List.length_map, List.filter_map, List.length_map,
        List.filter_filter, List.countP_eq_length_filter]
      simp only [Function.comp_apply, Bool.and_comm]
    rw [inner_cons, List.filter_append, List.map_append, List.sum_append, hone,
      ih fun a ha => hF a (by simp [ha]), List.map_cons, List.sum_cons]

/-- Without a condition every row of the other side matches. -/
theorem matchesOrPad_true {a : α} : matchesOrPad (fun _ _ => true) pair pad r a =
    if r = [] then [pad a] else r.map (pair a) := by
  cases r <;> simp [matchesOrPad]

/-! ## Numbers of rows -/

theorem length_flatMap_le {f : α → List γ} {n : ℕ} (h : ∀ a ∈ l, (f a).length ≤ n) :
    (l.flatMap f).length ≤ l.length * n := by
  induction l with
  | nil => simp
  | cons a l ih =>
    rw [List.flatMap_cons, List.length_append, List.length_cons, Nat.succ_mul, Nat.add_comm]
    exact Nat.add_le_add (ih fun a ha => h a (by simp [ha])) (h a (by simp))

theorem length_inner_le : (inner p pair l r).length ≤ l.length * r.length :=
  length_flatMap_le fun a _ => by simpa using List.length_filter_le (p a) r

theorem length_matchesOrPad_le {n : ℕ} (hn : 1 ≤ n) {a : α} (h : (r.filter (p a)).length ≤ n) :
    (matchesOrPad p pair pad r a).length ≤ n := by
  unfold matchesOrPad
  split
  · simpa using h
  · simpa using hn

theorem length_leftOuter_le :
    (leftOuter p pair pad l r).length ≤ l.length * max 1 r.length :=
  length_flatMap_le fun a _ => length_matchesOrPad_le (le_max_left _ _)
    ((List.length_filter_le (p a) r).trans (le_max_right _ _))

/-- The right rows are those with a match and those without. -/
theorem length_matched_add_unmatched (f : β → Bool) :
    (r.filter f).length + (r.filter fun b => !f b).length = r.length := by
  induction r with
  | nil => rfl
  | cons b r ih => cases h : f b <;> simp [h] <;> omega

/-- Where some pair matches, the product covers the preserved rows of both sides. -/
theorem length_fullOuter_le_of_match (hmatch : ∃ a ∈ l, ∃ b ∈ r, p a b = true) :
    (fullOuter p pair padLeft padRight l r).length ≤ l.length * r.length := by
  obtain ⟨a, ha, b, hb, hab⟩ := hmatch
  set matched := r.filter fun b => l.any (p · b) with hmatched
  set unmatched := r.filter fun b => !l.any (p · b) with hunmatched
  have hsplit : matched.length + unmatched.length = r.length :=
    length_matched_add_unmatched fun b => l.any (p · b)
  have hone : 1 ≤ matched.length := by
    refine List.length_pos_of_mem (a := b) (List.mem_filter.2 ⟨hb, ?_⟩)
    exact List.any_eq_true.2 ⟨a, ha, hab⟩
  -- the matches of one left row are matched right rows
  have hleft : (leftOuter p pair padLeft l r).length ≤ l.length * matched.length := by
    refine length_flatMap_le fun a ha => length_matchesOrPad_le hone ?_
    refine (List.monotone_filter_right r fun b hb => ?_).length_le
    exact List.any_eq_true.2 ⟨a, ha, hb⟩
  have hl : 1 ≤ l.length := List.length_pos_of_mem ha
  calc (fullOuter p pair padLeft padRight l r).length
      = (leftOuter p pair padLeft l r).length + unmatched.length := by simp [fullOuter, hunmatched]
    _ ≤ l.length * matched.length + l.length * unmatched.length :=
        Nat.add_le_add hleft (Nat.le_mul_of_pos_left _ hl)
    _ = l.length * r.length := by rw [← Nat.mul_add, hsplit]

/-- Without a match all rows are preserved as they are. -/
theorem length_fullOuter_of_no_match (hno : ∀ a ∈ l, ∀ b ∈ r, p a b = false) :
    (fullOuter p pair padLeft padRight l r).length = l.length + r.length := by
  have hpad : ∀ a ∈ l, matchesOrPad p pair padLeft r a = [padLeft a] := by
    intro a ha
    have hany : r.any (p a) = false := by simpa using hno a ha
    simp [matchesOrPad, hany]
  have hleft : ∀ l' ⊆ l, (leftOuter p pair padLeft l' r).length = l'.length := by
    intro l' hl'
    induction l' with
    | nil => rfl
    | cons a l' ih =>
      rw [leftOuter, List.flatMap_cons, hpad a (hl' (by simp)), List.length_append]
      have ih := ih fun x hx => hl' (by simp [hx])
      rw [leftOuter] at ih
      rw [ih, List.length_singleton, List.length_cons, Nat.add_comm]
  have hright : (r.filter fun b => !l.any (p · b)) = r := by
    refine List.filter_eq_self.2 fun b hb => ?_
    simpa using fun a ha => hno a ha b hb
  rw [fullOuter, List.length_append, hleft l (List.Subset.refl l), hright, List.length_map]

/-! ## Distinct rows -/

/-- Rows of different left rows are distinct, and so are the rows of one left row. -/
theorem pairwise_flatMap_of {R : γ → γ → Prop} {S : α → α → Prop} {f : α → List γ}
    (hl : l.Pairwise S) (hone : ∀ a ∈ l, (f a).Pairwise R)
    (htwo : ∀ a ∈ l, ∀ a' ∈ l, S a a' → ∀ c ∈ f a, ∀ c' ∈ f a', R c c') :
    (l.flatMap f).Pairwise R := by
  refine List.pairwise_flatMap.2 ⟨hone, ?_⟩
  exact hl.imp_of_mem fun ha ha' hS => htwo _ ha _ ha' hS

end Joins

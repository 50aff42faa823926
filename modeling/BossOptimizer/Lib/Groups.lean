import Mathlib.Algebra.BigOperators.Group.Finset.Piecewise

/-!
# Groups of rows by a key

Grouping keeps one row of each group. When the rows come in blocks, one block for each element of
another list, and blocks have different keys, the groups are the blocks. The sums over the groups
add up to the sum over all rows.
-/

namespace Groups

variable {α β κ : Type*} [DecidableEq κ] {key : β → κ}

/-- One row of each group: of the rows with one key the last stays. -/
def representatives (key : β → κ) (rows : List β) : List β :=
  rows.pwFilter fun b c => key b ≠ key c

@[simp] theorem representatives_nil : representatives key ([] : List β) = [] := List.pwFilter_nil

theorem mem_of_mem_representatives {rows : List β} {b : β} (h : b ∈ representatives key rows) :
    b ∈ rows := List.pwFilter_subset _ h

theorem pwFilter_congr {R R' : β → β → Prop} [DecidableRel R] [DecidableRel R'] {l : List β}
    (h : ∀ a ∈ l, ∀ b ∈ l, R a b ↔ R' a b) : l.pwFilter R = l.pwFilter R' := by
  induction l with
  | nil => rfl
  | cons a l ih =>
    have hl := ih fun b hb c hc => h b (by simp [hb]) c (by simp [hc])
    have ha : (∀ b ∈ l.pwFilter R, R a b) ↔ ∀ b ∈ l.pwFilter R', R' a b := by
      rw [hl]
      exact forall₂_congr fun b hb => h a (by simp) b (by simp [List.pwFilter_subset _ hb])
    by_cases hkept : ∀ b ∈ l.pwFilter R, R a b
    · rw [List.pwFilter_cons_of_pos hkept, List.pwFilter_cons_of_pos (ha.1 hkept), hl]
    · rw [List.pwFilter_cons_of_neg hkept, List.pwFilter_cons_of_neg (mt ha.2 hkept), hl]

/-- One element represents all that are not apart. -/
theorem pwFilter_eq_singleton {R : β → β → Prop} [DecidableRel R] {l : List β} (hl : l ≠ [])
    (h : ∀ a ∈ l, ∀ b ∈ l, ¬R a b) : ∃ a ∈ l, l.pwFilter R = [a] := by
  induction l with
  | nil => exact absurd rfl hl
  | cons a l ih =>
    rcases l with _ | ⟨b, l⟩
    · exact ⟨a, by simp, List.pwFilter_cons_of_pos (by simp)⟩
    · obtain ⟨c, hc, hfilter⟩ := ih (by simp) fun a ha b hb => h a (by simp [ha]) b (by simp [hb])
      refine ⟨c, by simp [hc], ?_⟩
      rw [List.pwFilter_cons_of_neg, hfilter]
      rw [hfilter]
      exact fun hall => h a (by simp) c (by simp [hc]) (hall c (by simp))

/-- A block in front of rows with other keys adds one row. -/
theorem representatives_append {block rest : List β} {k : κ} (hne : block ≠ [])
    (hkey : ∀ b ∈ block, key b = k) (hrest : ∀ c ∈ rest, key c ≠ k) :
    ∃ b ∈ block, representatives key (block ++ rest) = b :: representatives key rest := by
  induction block with
  | nil => exact absurd rfl hne
  | cons b block ih =>
    have hb : key b = k := hkey b (by simp)
    cases block with
    | nil =>
      refine ⟨b, by simp, List.pwFilter_cons_of_pos fun c hc => ?_⟩
      rw [hb]
      exact fun h => hrest c (List.pwFilter_subset _ hc) h.symm
    | cons b' block =>
      obtain ⟨c, hc, heq⟩ := ih (by simp) fun d hd => hkey d (by simp [hd])
      refine ⟨c, by simp [hc], ?_⟩
      rw [← heq]
      refine List.pwFilter_cons_of_neg fun hall => ?_
      have hc' : c ∈ representatives key (b' :: block ++ rest) := by rw [heq]; simp
      exact hall c hc' (by rw [hb, hkey c (by simp [hc])])

variable {block : α → List β} {k : α → κ} {l : List α}

/-- The group of a key is the block with that key. -/
theorem filter_flatMap_block (hkey : ∀ a ∈ l, ∀ b ∈ block a, key b = k a) (hnd : (l.map k).Nodup)
    {a : α} (ha : a ∈ l) : (l.flatMap block).filter (fun c => key c = k a) = block a := by
  induction l with
  | nil => cases ha
  | cons x l ih =>
    obtain ⟨hx, hnd⟩ := List.nodup_cons.1 hnd
    have hne : ∀ y ∈ l, k y ≠ k x := fun y hy h => hx (h ▸ List.mem_map_of_mem hy)
    rw [List.flatMap_cons, List.filter_append]
    rcases List.mem_cons.1 ha with rfl | ha
    · have hself : (block a).filter (fun c => key c = k a) = block a :=
        List.filter_eq_self.2 fun c hc => decide_eq_true (hkey a (by simp) c hc)
      have hothers : (l.flatMap block).filter (fun c => key c = k a) = [] := by
        refine List.filter_eq_nil_iff.2 fun c hc => ?_
        obtain ⟨y, hy, hc⟩ := List.mem_flatMap.1 hc
        rw [decide_eq_true_eq, hkey y (by simp [hy]) c hc]
        exact hne y hy
      rw [hself, hothers, List.append_nil]
    · have hfirst : (block x).filter (fun c => key c = k a) = [] := by
        refine List.filter_eq_nil_iff.2 fun c hc => ?_
        rw [decide_eq_true_eq, hkey x (by simp) c hc]
        exact (hne a ha).symm
      rw [hfirst, List.nil_append, ih (fun y hy => hkey y (by simp [hy])) hnd ha]

/-- **Blocks with different keys are the groups**: each has one representative. -/
theorem representatives_flatMap (hne : ∀ a ∈ l, block a ≠ [])
    (hkey : ∀ a ∈ l, ∀ b ∈ block a, key b = k a) (hnd : (l.map k).Nodup) :
    List.Forall₂ (fun a b => b ∈ block a) l (representatives key (l.flatMap block)) := by
  induction l with
  | nil => simp
  | cons a l ih =>
    obtain ⟨ha, hnd⟩ := List.nodup_cons.1 hnd
    have hrest : ∀ c ∈ l.flatMap block, key c ≠ k a := by
      intro c hc h
      obtain ⟨y, hy, hc⟩ := List.mem_flatMap.1 hc
      exact ha (h ▸ hkey y (by simp [hy]) c hc ▸ List.mem_map_of_mem hy)
    obtain ⟨b, hb, heq⟩ := representatives_append (hne a (by simp)) (hkey a (by simp)) hrest
    rw [List.flatMap_cons, heq]
    exact .cons hb (ih (fun y hy => hne y (by simp [hy])) (fun y hy => hkey y (by simp [hy])) hnd)

/-- Rows with one key are one group. -/
theorem representatives_of_const {rows : List β} {c : κ} (hne : rows ≠ [])
    (hkey : ∀ b ∈ rows, key b = c) : ∃ b ∈ rows, representatives key rows = [b] := by
  have hrest : ∀ x ∈ ([] : List β), key x ≠ c := by simp
  obtain ⟨b, hb, heq⟩ := representatives_append hne hkey hrest
  exact ⟨b, hb, by simpa using heq⟩

/-! ## All groups -/

theorem nodup_map_representatives (key : β → κ) (rows : List β) :
    ((representatives key rows).map key).Nodup :=
  List.pairwise_map.2 (List.pairwise_pwFilter rows)

/-- Every key has a representative. -/
theorem mem_map_representatives {rows : List β} {k : κ} :
    k ∈ (representatives key rows).map key ↔ k ∈ rows.map key := by
  refine ⟨fun h => List.map_subset _ (List.pwFilter_subset rows) h, fun h => ?_⟩
  obtain ⟨b, hb, rfl⟩ := List.mem_map.1 h
  by_contra hnone
  have htrans : ∀ {x y z : β}, key x ≠ key z → key x ≠ key y ∨ key y ≠ key z := by
    intro x y z hxz
    by_contra! hboth
    exact hxz (hboth.1.trans hboth.2)
  refine (List.forall_mem_pwFilter (R := fun a b => key a ≠ key b) htrans b rows).1 ?_ b hb rfl
  exact fun c hc heq => hnone (heq ▸ List.mem_map_of_mem hc)

/-- **The groups are a partition**: summing up each group and then the groups sums up the rows. -/
theorem sum_filter_key {M : Type*} [AddCommMonoid M] {keys : List κ} (hnd : keys.Nodup)
    {rows : List β} (hall : ∀ b ∈ rows, key b ∈ keys) (F : β → M) :
    (keys.map fun k => ((rows.filter fun c => key c = k).map F).sum).sum = (rows.map F).sum := by
  induction rows with
  | nil => simp
  | cons b rows ih =>
    have hone : ∀ k : κ, (((b :: rows).filter fun c => key c = k).map F).sum =
        (if key b = k then F b else 0) + ((rows.filter fun c => key c = k).map F).sum := by
      intro k
      rw [List.filter_cons]
      by_cases hk : key b = k <;> simp [hk]
    have hb : (keys.map fun k => if key b = k then F b else 0).sum = F b := by
      rw [← List.sum_toFinset _ hnd, Finset.sum_ite_eq, if_pos]
      exact List.mem_toFinset.2 (hall b (by simp))
    simp only [hone]
    rw [List.sum_map_add, hb, ih fun c hc => hall c (by simp [hc]), List.map_cons, List.sum_cons]

omit [DecidableEq κ] in
/-- Lists with the same keys, up to order, have the same values, up to order. -/
theorem perm_map_of_perm_key {γ δ : Type*} {l : List β} {l' : List γ} {key : β → κ} {key' : γ → κ}
    {f : β → δ} {f' : γ → δ} (hkeys : (l.map key).Perm (l'.map key'))
    (h : ∀ b ∈ l, ∀ c ∈ l', key b = key' c → f b = f' c) : (l.map f).Perm (l'.map f') := by
  induction l generalizing l' with
  | nil =>
    have hnil : l' = [] := by simpa using hkeys
    rw [hnil]
    exact List.Perm.refl _
  | cons b l ih =>
    have hmem : key b ∈ l'.map key' := hkeys.subset (by simp)
    obtain ⟨c, hc, hkey⟩ := List.mem_map.1 hmem
    obtain ⟨s, t, rfl⟩ := List.append_of_mem hc
    have hmiddle : (s ++ c :: t).Perm (c :: (s ++ t)) := List.perm_middle
    have hrest := hkeys.trans (hmiddle.map key')
    rw [List.map_cons, List.map_cons, hkey, List.perm_cons] at hrest
    refine List.Perm.trans ?_ (hmiddle.map f').symm
    rw [List.map_cons, List.map_cons, h b (by simp) c hc hkey.symm]
    refine (ih hrest fun d hd e he => h d (by simp [hd]) e ?_).cons _
    exact hmiddle.symm.subset (List.mem_cons_of_mem _ he)

/-- **Groups of the same keys** with the same values are the same bag of values. -/
theorem perm_map_representatives {γ δ : Type*} {rows : List β} {rows' : List γ} {key' : γ → κ}
    {f : β → δ} {f' : γ → δ} (hkeys : ∀ k, k ∈ rows.map key ↔ k ∈ rows'.map key')
    (h : ∀ b ∈ rows, ∀ c ∈ rows', key b = key' c → f b = f' c) :
    ((representatives key rows).map f).Perm ((representatives key' rows').map f') := by
  refine perm_map_of_perm_key ?_ fun b hb c hc =>
    h b (mem_of_mem_representatives hb) c (mem_of_mem_representatives hc)
  refine (List.perm_ext_iff_of_nodup (nodup_map_representatives key rows)
    (nodup_map_representatives key' rows')).2 fun k => ?_
  rw [mem_map_representatives, mem_map_representatives, hkeys]

end Groups

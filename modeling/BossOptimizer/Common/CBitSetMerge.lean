import BossOptimizer.Common.CBitSetLinks

/-!
# Two bit sets walked together

`Union`, `Intersection`, `ContainsAll` and `IsDisjoint` walk one list of links with a cursor into
the other. The cursor never passes a link that is still needed, so each walk looks up the link
of every offset (`partner`) as if it searched from the head.
-/

namespace BossOptimizer

namespace CBitSet

variable {vs : VectorSize} {links others : List (CBitSetLink vs)} {p : ℕ}

/-- Both links of an offset united. -/
def orWith (others : List (CBitSetLink vs)) (bsl : CBitSetLink vs) : CBitSetLink vs :=
  match partner others bsl.m_offset with
  | some other => { bsl with m_vec := bsl.m_vec.Or other.m_vec }
  | none => bsl

/-- Both links of an offset intersected, if there are two. -/
def andWith (others : List (CBitSetLink vs)) (bsl : CBitSetLink vs) : Option (CBitSetLink vs) :=
  (partner others bsl.m_offset).map fun other => { bsl with m_vec := bsl.m_vec.And other.m_vec }

/-- A cursor that no link of the walk lies in front of. -/
def CursorFor (links rest : List (CBitSetLink vs)) (bsl : Option ℕ) : Prop :=
  ∀ c ∈ rest, SortedList.CursorOk CBitSetLink.m_offset links c.m_offset bsl

theorem cursorFor_none (rest : List (CBitSetLink vs)) : CursorFor links rest none :=
  fun _ _ => SortedList.cursorOk_none

variable {rest : List (CBitSetLink vs)} {bsl : Option ℕ}

theorem missingLinks_eq (h : LinksOk links) (hrest : LinksOk rest)
    (hbsl : CursorFor links rest bsl) :
    missingLinks links rest bsl = rest.filter fun b => (partner links b.m_offset).isNone := by
  induction rest generalizing bsl with
  | nil => rfl
  | cons b rest ih =>
    have hnext := ih hrest.tail (cursor_next h hrest hbsl)
    simp only [missingLinks, linkAt_cursor h (hbsl b List.mem_cons_self), hnext,
      List.filter_cons]

theorem orLinks_eq (h : LinksOk others) (hrest : LinksOk rest) (hbsl : CursorFor others rest bsl) :
    orLinks others rest bsl = rest.map (orWith others) := by
  induction rest generalizing bsl with
  | nil => rfl
  | cons b rest ih =>
    have hnext := ih hrest.tail (cursor_next h hrest hbsl)
    simp only [orLinks, linkAt_cursor h (hbsl b List.mem_cons_self), hnext, List.map_cons]
    unfold orWith
    cases partner others b.m_offset <;> rfl

theorem andLinks_eq (h : LinksOk others) (hrest : LinksOk rest) (hbsl : CursorFor others rest bsl) :
    andLinks others rest bsl = rest.filterMap (andWith others) := by
  induction rest generalizing bsl with
  | nil => rfl
  | cons b rest ih =>
    have hnext := ih hrest.tail (cursor_next h hrest hbsl)
    simp only [andLinks, linkAt_cursor h (hbsl b List.mem_cons_self), hnext, List.filterMap_cons,
      andWith]
    cases partner others b.m_offset <;> rfl

theorem allLinks_eq {ok : Option (CBitSetLink vs) → CBitSetLink vs → Bool} (h : LinksOk links)
    (hrest : LinksOk rest) (hbsl : CursorFor links rest bsl) :
    allLinks ok links rest bsl = rest.all fun b => ok (partner links b.m_offset) b := by
  induction rest generalizing bsl with
  | nil => rfl
  | cons b rest ih =>
    have hnext := ih hrest.tail (cursor_next h hrest hbsl)
    simp only [allLinks, linkAt_cursor h (hbsl b List.mem_cons_self), hnext, List.all_cons]

/-- Inserting links with new offsets one behind the other adds exactly these. -/
theorem insertLinks_spec (h : LinksOk links) (hrest : LinksOk rest)
    (hnew : ∀ b ∈ rest, ∀ l ∈ links, l.m_offset ≠ b.m_offset) (hbsl : CursorFor links rest bsl) :
    LinksOk (insertLinks links rest bsl) ∧
      ∀ l, l ∈ insertLinks links rest bsl ↔ l ∈ links ∨ l ∈ rest := by
  induction rest generalizing links bsl with
  | nil => exact ⟨h, fun l => by simp [insertLinks]⟩
  | cons b rest ih =>
    have hhead := hbsl b List.mem_cons_self
    obtain ⟨hlt, -⟩ := List.pairwise_cons.mp hrest.sorted
    obtain ⟨hsorted, hcursor⟩ := SortedList.sorted_insertAfter h.sorted hhead
      (hnew b List.mem_cons_self)
    have hmem := fun l => SortedList.mem_insertAfter (l := links) (x := b) (a := l)
      (r := FindLinkByOffset links b.m_offset bsl)
    have hok : LinksOk (SortedList.insertAfter links (FindLinkByOffset links b.m_offset bsl) b) := by
      refine ⟨hsorted, fun l hl => ?_⟩
      rcases (hmem l).mp hl with rfl | hl
      · exact hrest.aligned l List.mem_cons_self
      · exact h.aligned l hl
    have hnew' : ∀ c ∈ rest,
        ∀ l ∈ SortedList.insertAfter links (FindLinkByOffset links b.m_offset bsl) b,
          l.m_offset ≠ c.m_offset := by
      intro c hc l hl
      rcases (hmem l).mp hl with rfl | hl
      · exact (hlt c hc).ne
      · exact hnew c (List.mem_cons_of_mem b hc) l hl
    obtain ⟨hres, hresmem⟩ := ih hok hrest.tail hnew' fun c hc => hcursor.mono (hlt c hc).le
    refine ⟨hres, fun l => (hresmem l).trans ?_⟩
    rw [hmem, List.mem_cons]
    exact or_assoc.trans or_left_comm

theorem orWith_offset (others : List (CBitSetLink vs)) (b : CBitSetLink vs) :
    (orWith others b).m_offset = b.m_offset := by
  unfold orWith
  split <;> rfl

theorem Get_orWith (h : LinksOk others) {b : CBitSetLink vs}
    (ho : b.m_offset = ComputeOffset vs p) :
    (orWith others b).m_vec.Get (p - b.m_offset) = true ↔
      b.m_vec.Get (p - b.m_offset) = true ∨ Holds others p := by
  unfold orWith
  cases hp : partner others b.m_offset with
  | none =>
    have := not_holds_of_none (p := p) (ho ▸ (partner_eq_none h).mp hp)
    simp [this]
  | some other =>
    obtain ⟨hmem, hoff⟩ := (partner_eq_some h).mp hp
    rw [holds_iff_of_mem h hmem (hoff.trans ho), hoff]
    simp

/-- What a union leaves behind. -/
structure UnionSpec (links others links' : List (CBitSetLink vs)) : Prop where
  ok : LinksOk links'
  holds : ∀ p, Holds links' p ↔ Holds links p ∨ Holds others p
  noEmpty : NoEmptyLink links → NoEmptyLink others → NoEmptyLink links'

/-- **`Union` holds the positions of both sets.** -/
theorem Union_spec {s pbsOther : CBitSet vs} (h : LinksOk s.m_bsllist)
    (h' : LinksOk pbsOther.m_bsllist) :
    UnionSpec s.m_bsllist pbsOther.m_bsllist (s.Union pbsOther).m_bsllist := by
  obtain ⟨links, _⟩ := s
  obtain ⟨others, _⟩ := pbsOther
  simp only [Union, RecomputeSize] at h h' ⊢
  rw [missingLinks_eq h h' (cursorFor_none _)]
  have hmiss : LinksOk (others.filter fun b => (partner links b.m_offset).isNone) :=
    ⟨h'.sorted.sublist List.filter_sublist, fun l hl => h'.aligned l (List.mem_filter.mp hl).1⟩
  have hnew : ∀ b ∈ others.filter fun b => (partner links b.m_offset).isNone,
      ∀ l ∈ links, l.m_offset ≠ b.m_offset := fun b hb =>
    (partner_eq_none h).mp (Option.isNone_iff_eq_none.mp (List.mem_filter.mp hb).2)
  obtain ⟨hok, hmem⟩ := insertLinks_spec h hmiss hnew (cursorFor_none _)
  rw [orLinks_eq h' hok (cursorFor_none _)]
  generalize insertLinks links _ none = all at hok hmem ⊢
  have hin : ∀ l ∈ all, l ∈ links ∨ l ∈ others := fun l hl =>
    ((hmem l).mp hl).imp_right fun hm => (List.mem_filter.mp hm).1
  refine ⟨⟨?_, ?_⟩, fun p => ⟨?_, ?_⟩, ?_⟩
  · refine List.pairwise_map.mpr (hok.sorted.imp fun hlt => ?_)
    rwa [orWith_offset, orWith_offset]
  · intro l hl
    obtain ⟨b, hb, rfl⟩ := List.mem_map.mp hl
    rw [orWith_offset]
    exact hok.aligned b hb
  · rintro ⟨l, hl, hoff, hget⟩
    obtain ⟨b, hb, rfl⟩ := List.mem_map.mp hl
    rw [orWith_offset] at hoff hget
    rcases (Get_orWith h' hoff).mp hget with hget | hother
    · exact (hin b hb).imp (fun hm => ⟨b, hm, hoff, hget⟩) fun hm => ⟨b, hm, hoff, hget⟩
    · exact .inr hother
  · intro hholds
    obtain ⟨b, hb, hoff⟩ : ∃ b ∈ all, b.m_offset = ComputeOffset vs p ∧
        (b.m_vec.Get (p - b.m_offset) = true ∨ Holds others p) := by
      rcases hholds with ⟨l, hl, hoff, hget⟩ | hother
      · exact ⟨l, (hmem l).mpr (.inl hl), hoff, .inl hget⟩
      · obtain ⟨l, hl, hoff, -⟩ := id hother
        cases hp : partner links (ComputeOffset vs p) with
        | none =>
          refine ⟨l, (hmem l).mpr (.inr (List.mem_filter.mpr ⟨hl, ?_⟩)), hoff, .inr hother⟩
          rw [hoff, hp]
          rfl
        | some b =>
          obtain ⟨hb, hboff⟩ := (partner_eq_some h).mp hp
          exact ⟨b, (hmem b).mpr (.inl hb), hboff, .inr hother⟩
    refine ⟨orWith others b, List.mem_map_of_mem hb, (orWith_offset others b).trans hoff.1, ?_⟩
    rw [orWith_offset]
    exact (Get_orWith h' hoff.1).mpr hoff.2
  · intro hne hne' l hl
    obtain ⟨b, hb, rfl⟩ := List.mem_map.mp hl
    obtain ⟨k, hk⟩ := (hin b hb).elim (hne b) (hne' b)
    refine ⟨k, ?_⟩
    unfold orWith
    split <;> simp [hk]

/-- What an intersection leaves behind. -/
structure IntersectionSpec (links others links' : List (CBitSetLink vs)) : Prop where
  ok : LinksOk links'
  holds : ∀ p, Holds links' p ↔ Holds links p ∧ Holds others p

/-- Links with the same offset share a bit: no link of the intersection is empty. -/
def MeetsShareBit (links others : List (CBitSetLink vs)) : Prop :=
  ∀ l ∈ links, ∀ l' ∈ others, l.m_offset = l'.m_offset → l.m_vec.IsDisjoint l'.m_vec = false

theorem mem_andLinks (h : LinksOk links) (h' : LinksOk others) {l : CBitSetLink vs} :
    l ∈ andLinks others links none ↔ ∃ b ∈ links, ∃ other ∈ others,
      b.m_offset = other.m_offset ∧ { b with m_vec := b.m_vec.And other.m_vec } = l := by
  rw [andLinks_eq h' h (cursorFor_none _), List.mem_filterMap]
  refine exists_congr fun b => and_congr_right fun _ => ?_
  simp only [andWith, Option.map_eq_some_iff, partner_eq_some h', and_assoc, eq_comm (a := b.m_offset)]

/-- **`Intersection` holds the common positions.** -/
theorem Intersection_spec {s other : CBitSet vs} (h : LinksOk s.m_bsllist)
    (h' : LinksOk other.m_bsllist) :
    IntersectionSpec s.m_bsllist other.m_bsllist (s.Intersection (some other)).m_bsllist := by
  obtain ⟨links, _⟩ := s
  obtain ⟨others, _⟩ := other
  simp only [Intersection, RecomputeSize] at h h' ⊢
  refine ⟨⟨?_, ?_⟩, fun p => ⟨?_, ?_⟩⟩
  · rw [andLinks_eq h' h (cursorFor_none _)]
    refine List.Pairwise.filterMap _ ?_ h.sorted
    intro a a' hlt b hb b' hb'
    obtain ⟨-, -, rfl⟩ := Option.map_eq_some_iff.mp hb
    obtain ⟨-, -, rfl⟩ := Option.map_eq_some_iff.mp hb'
    exact hlt
  · intro l hl
    obtain ⟨b, hb, -, -, -, rfl⟩ := (mem_andLinks h h').mp hl
    exact h.aligned b hb
  · rintro ⟨l, hl, hoff, hget⟩
    obtain ⟨b, hb, c, hc, hbc, rfl⟩ := (mem_andLinks h h').mp hl
    simp only [CBitVector.Get_And, Bool.and_eq_true] at hoff hget
    exact ⟨⟨b, hb, hoff, hget.1⟩, ⟨c, hc, hbc ▸ hoff, hbc ▸ hget.2⟩⟩
  · rintro ⟨⟨b, hb, hboff, hbget⟩, ⟨c, hc, hcoff, hcget⟩⟩
    have hbc : b.m_offset = c.m_offset := hboff.trans hcoff.symm
    refine ⟨_, (mem_andLinks h h').mpr ⟨b, hb, c, hc, hbc, rfl⟩, hboff, ?_⟩
    simp [hbget, hbc ▸ hcget]

/-- An intersection whose links meet in a bit leaves no empty link. -/
theorem Intersection_noEmpty {s other : CBitSet vs} (h : LinksOk s.m_bsllist)
    (h' : LinksOk other.m_bsllist) (hmeet : MeetsShareBit s.m_bsllist other.m_bsllist) :
    NoEmptyLink (s.Intersection (some other)).m_bsllist := by
  intro l hl
  obtain ⟨b, hb, c, hc, hbc, rfl⟩ := (mem_andLinks h h').mp hl
  have hshare := hmeet b hb c hc hbc
  rw [← Bool.not_eq_true, CBitVector.IsDisjoint_iff] at hshare
  push Not at hshare
  obtain ⟨k, hk, hk'⟩ := hshare
  refine ⟨k, ?_⟩
  simpa [hk] using hk'

/-- **`IsDisjoint` holds exactly when no position is in both sets.** -/
theorem IsDisjoint_iff {s bs : CBitSet vs} (h : LinksOk s.m_bsllist) (h' : LinksOk bs.m_bsllist) :
    s.IsDisjoint bs = true ↔ ∀ p, Holds s.m_bsllist p → ¬ Holds bs.m_bsllist p := by
  rw [IsDisjoint, allLinks_eq h h' (cursorFor_none _), List.all_eq_true]
  constructor
  · rintro hall p ⟨l, hl, hoff, hget⟩ ⟨c, hc, hcoff, hcget⟩
    have hpart := (partner_eq_some h).mpr ⟨hl, hoff.trans hcoff.symm⟩
    have hdis := hall c hc
    rw [hpart] at hdis
    have hfalse := CBitVector.IsDisjoint_iff.mp hdis _ hget
    rw [hoff, ← hcoff, hcget] at hfalse
    exact Bool.noConfusion hfalse
  · intro hno c hc
    cases hp : partner s.m_bsllist c.m_offset with
    | none => rfl
    | some l =>
      obtain ⟨hl, hoff⟩ := (partner_eq_some h).mp hp
      refine CBitVector.IsDisjoint_iff.mpr fun k hk => ?_
      by_contra hck
      rw [Bool.not_eq_false] at hck
      have hheld := holds_add h hl hk
      rw [hoff] at hheld
      exact hno _ hheld (holds_add h' hc hck)

/-- **`ContainsAll` compares the positions** when no link of the other set is empty and the sizes
do not contradict. -/
theorem ContainsAll_iff {s bs : CBitSet vs} (h : LinksOk s.m_bsllist) (h' : LinksOk bs.m_bsllist)
    (hne : NoEmptyLink bs.m_bsllist)
    (hsize : (∀ p, Holds bs.m_bsllist p → Holds s.m_bsllist p) → bs.Size ≤ s.Size) :
    s.ContainsAll bs = true ↔ ∀ p, Holds bs.m_bsllist p → Holds s.m_bsllist p := by
  have hloop : allLinks (fun hit other => match hit with
      | some bsl => bsl.m_vec.ContainsAll other.m_vec
      | none => false) s.m_bsllist bs.m_bsllist none = true ↔
        ∀ p, Holds bs.m_bsllist p → Holds s.m_bsllist p := by
    rw [allLinks_eq h h' (cursorFor_none _), List.all_eq_true]
    constructor
    · rintro hall p ⟨c, hc, hoff, hget⟩
      have hsub := hall c hc
      cases hp : partner s.m_bsllist c.m_offset with
      | none => simp [hp] at hsub
      | some l =>
        obtain ⟨hl, hloff⟩ := (partner_eq_some h).mp hp
        rw [hp] at hsub
        refine ⟨l, hl, hloff.trans hoff, ?_⟩
        rw [hloff]
        exact CBitVector.ContainsAll_iff.mp hsub _ hget
    · intro hsub c hc
      obtain ⟨k, hk⟩ := hne c hc
      obtain ⟨l, hl, hoff, -⟩ := hsub _ (holds_add h' hc hk)
      have hlc : l.m_offset = c.m_offset :=
        hoff.trans (ComputeOffset_add (h'.aligned c hc) (CBitVector.lt_of_Get hk))
      rw [(partner_eq_some h).mpr ⟨hl, hlc⟩]
      refine CBitVector.ContainsAll_iff.mpr fun k hk => ?_
      have hheld := hsub _ (holds_add h' hc hk)
      have hoff' := ComputeOffset_add (h'.aligned c hc) (CBitVector.lt_of_Get hk)
      rw [holds_iff_of_mem h hl (hlc.trans hoff'.symm), hlc, Nat.add_sub_cancel_left] at hheld
      exact hheld
  unfold ContainsAll
  split
  · next hlt =>
    simp only [Bool.false_eq_true, false_iff]
    exact fun hsub => absurd (hsize hsub) (by omega)
  · exact hloop

theorem equalLinks_iff : equalLinks links others = true ↔ links = others := by
  induction links generalizing others with
  | nil => cases others <;> simp [equalLinks]
  | cons l links ih =>
    cases others with
    | nil => simp [equalLinks]
    | cons c others =>
      obtain ⟨o, v⟩ := l
      obtain ⟨o', v'⟩ := c
      simp [equalLinks, ih, CBitVector.Equals_iff]

/-- Without empty links, the positions determine the links. -/
theorem links_ext (h : LinksOk links) (h' : LinksOk others) (hne : NoEmptyLink links)
    (hne' : NoEmptyLink others) (hsame : ∀ p, Holds links p ↔ Holds others p) :
    links = others := by
  have hsub : ∀ {l₁ l₂ : List (CBitSetLink vs)}, LinksOk l₁ → LinksOk l₂ → NoEmptyLink l₁ →
      (∀ p, Holds l₁ p ↔ Holds l₂ p) → ∀ l ∈ l₁, l ∈ l₂ := by
    intro l₁ l₂ h₁ h₂ hne₁ hsame l hl
    obtain ⟨k, hk⟩ := hne₁ l hl
    obtain ⟨c, hc, hoff, -⟩ := (hsame _).mp (holds_add h₁ hl hk)
    have hcl : c.m_offset = l.m_offset :=
      hoff.trans (ComputeOffset_add (h₁.aligned l hl) (CBitVector.lt_of_Get hk))
    have hvec : c.m_vec = l.m_vec := by
      apply CBitVector.ext_Get
      intro j
      by_cases hj : j < vs.bits
      · have hoff' := ComputeOffset_add (h₁.aligned l hl) hj
        have hiff := hsame (l.m_offset + j)
        rw [holds_iff_of_mem h₁ hl hoff'.symm, holds_iff_of_mem h₂ hc (hcl.trans hoff'.symm), hcl,
          Nat.add_sub_cancel_left] at hiff
        exact Bool.eq_iff_iff.mpr hiff.symm
      · have hbeyond : ∀ v : CBitVector vs.bits, v.Get j = false := fun v => by
          by_contra hget
          exact hj (CBitVector.lt_of_Get (Bool.not_eq_false _ ▸ hget))
        rw [hbeyond, hbeyond]
    have : c = l := by
      obtain ⟨_, _⟩ := c
      obtain ⟨_, _⟩ := l
      simp_all
    exact this ▸ hc
  exact SortedList.sorted_ext h.sorted h'.sorted fun l =>
    ⟨hsub h h' hne hsame l, hsub h' h hne' (fun p => (hsame p).symm) l⟩

end CBitSet

end BossOptimizer

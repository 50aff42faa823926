import BossOptimizer.Common.CBitSet

/-!
# The links of a bit set

Every operation of `CBitSet` keeps the links ordered by offset and the offsets multiples of the
vector size (`LinksOk`), and changes the positions that the links hold (`Holds`) as the set
operation of its name does. Only `Intersection` can leave a link without a bit behind.
-/

namespace BossOptimizer

namespace CBitSet

variable {vs : VectorSize} {links others : List (CBitSetLink vs)} {p pos o : ℕ}

theorem ComputeOffset_add {k : ℕ} (ho : vs.bits ∣ o) (hk : k < vs.bits) :
    ComputeOffset vs (o + k) = o := by
  obtain ⟨q, rfl⟩ := ho
  rw [ComputeOffset, Nat.mul_add_div vs.pos, Nat.div_eq_of_lt hk, Nat.add_zero, Nat.mul_comm]

theorem ComputeOffset_le (p : ℕ) : ComputeOffset vs p ≤ p := Nat.div_mul_le_self p vs.bits

theorem dvd_ComputeOffset (p : ℕ) : vs.bits ∣ ComputeOffset vs p := Nat.dvd_mul_left _ _

theorem dvd_of_eq_offset (ho : o = ComputeOffset vs p) : vs.bits ∣ o := ho ▸ dvd_ComputeOffset p

/-- The links are ordered by offset, and the offsets are aligned. -/
structure LinksOk (links : List (CBitSetLink vs)) : Prop where
  sorted : SortedList.Sorted CBitSetLink.m_offset links
  aligned : ∀ l ∈ links, vs.bits ∣ l.m_offset

/-- The bit of position `p` is set in its link. -/
def Holds (links : List (CBitSetLink vs)) (p : ℕ) : Prop :=
  ∃ l ∈ links, l.m_offset = ComputeOffset vs p ∧ l.m_vec.Get (p - l.m_offset) = true

/-- Every link has a bit: the form that `Equals` and `ContainsAll` rely on. -/
def NoEmptyLink (links : List (CBitSetLink vs)) : Prop :=
  ∀ l ∈ links, ∃ k, l.m_vec.Get k = true

/-- The link of an offset, found from the head. -/
def partner (links : List (CBitSetLink vs)) (offset : ℕ) : Option (CBitSetLink vs) :=
  linkAt links (FindLinkByOffset links offset none) offset

theorem linksOk_nil : LinksOk ([] : List (CBitSetLink vs)) := ⟨List.Pairwise.nil, by simp⟩

theorem LinksOk.tail {l : CBitSetLink vs} (h : LinksOk (l :: links)) : LinksOk links :=
  ⟨(List.pairwise_cons.mp h.sorted).2, fun b hb => h.aligned b (List.mem_cons_of_mem l hb)⟩

section Find

variable (h : LinksOk links)
include h

theorem partner_eq_some {l : CBitSetLink vs} :
    partner links o = some l ↔ l ∈ links ∧ l.m_offset = o :=
  SortedList.atKey_seek h.sorted SortedList.cursorOk_none

theorem partner_eq_none : partner links o = none ↔ ∀ l ∈ links, l.m_offset ≠ o :=
  SortedList.atKey_seek_eq_none h.sorted SortedList.cursorOk_none

/-- A search from a cursor finds what a search from the head finds. -/
theorem linkAt_cursor {bsl : Option ℕ} (hbsl : SortedList.CursorOk CBitSetLink.m_offset links o bsl) :
    linkAt links (FindLinkByOffset links o bsl) o = partner links o := by
  apply Option.ext
  intro l
  rw [partner_eq_some h]
  exact SortedList.atKey_seek h.sorted hbsl

/-- The link found for one element is a cursor for those behind it. -/
theorem cursor_next {b : CBitSetLink vs} {rest : List (CBitSetLink vs)} {bsl : Option ℕ}
    (hrest : LinksOk (b :: rest))
    (hbsl : ∀ c ∈ b :: rest, SortedList.CursorOk CBitSetLink.m_offset links c.m_offset bsl) :
    ∀ c ∈ rest, SortedList.CursorOk CBitSetLink.m_offset links c.m_offset
      (FindLinkByOffset links b.m_offset bsl) := by
  intro c hc
  have hlt := (List.pairwise_cons.mp hrest.sorted).1 c hc
  exact (SortedList.cursorOk_seek h.sorted (hbsl b List.mem_cons_self)).mono hlt.le

theorem holds_iff_of_mem {l : CBitSetLink vs} (hl : l ∈ links)
    (hoff : l.m_offset = ComputeOffset vs p) :
    Holds links p ↔ l.m_vec.Get (p - l.m_offset) = true := by
  constructor
  · rintro ⟨l', hl', hoff', hget⟩
    obtain rfl := h.sorted.eq_of_key hl' hl (hoff'.trans hoff.symm)
    exact hget
  · exact fun hget => ⟨l, hl, hoff, hget⟩

theorem holds_add {l : CBitSetLink vs} (hl : l ∈ links) {k : ℕ} (hk : l.m_vec.Get k = true) :
    Holds links (l.m_offset + k) := by
  refine ⟨l, hl, (ComputeOffset_add (h.aligned l hl) (CBitVector.lt_of_Get hk)).symm, ?_⟩
  rwa [Nat.add_sub_cancel_left]

end Find

theorem not_holds_of_none (hnone : ∀ l ∈ links, l.m_offset ≠ ComputeOffset vs p) :
    ¬ Holds links p := fun ⟨l, hl, hoff, _⟩ => hnone l hl hoff

variable {links' : List (CBitSetLink vs)}

/-- Positions of a link that did not change keep their bits. -/
theorem holds_congr
    (hframe : ∀ l : CBitSetLink vs, l.m_offset = ComputeOffset vs p → (l ∈ links' ↔ l ∈ links)) :
    Holds links' p ↔ Holds links p := by
  constructor
  · rintro ⟨l, hl, hoff, hget⟩
    exact ⟨l, (hframe l hoff).mp hl, hoff, hget⟩
  · rintro ⟨l, hl, hoff, hget⟩
    exact ⟨l, (hframe l hoff).mpr hl, hoff, hget⟩

/-- Positions of one link that are the same distance from its offset are the same. -/
theorem eq_iff_of_offset (ho : ComputeOffset vs p = ComputeOffset vs pos) :
    p - ComputeOffset vs pos = pos - ComputeOffset vs pos ↔ p = pos := by
  have h1 : ComputeOffset vs pos ≤ p := ho ▸ ComputeOffset_le p
  have h2 : ComputeOffset vs pos ≤ pos := ComputeOffset_le pos
  omega

/-- The link of an offset, or the empty one that would be inserted for it. -/
def slotAt (links : List (CBitSetLink vs)) (o : ℕ) : CBitSetLink vs :=
  (partner links o).getD ⟨o, .new vs.bits⟩

theorem slotAt_offset (h : LinksOk links) : (slotAt links o).m_offset = o := by
  unfold slotAt
  cases hp : partner links o with
  | none => rfl
  | some l => exact ((partner_eq_some h).mp hp).2

theorem holds_iff_slotAt (h : LinksOk links) :
    Holds links p ↔
      (slotAt links (ComputeOffset vs p)).m_vec.Get (p - ComputeOffset vs p) = true := by
  unfold slotAt
  cases hp : partner links (ComputeOffset vs p) with
  | none =>
    have := not_holds_of_none ((partner_eq_none h).mp hp)
    simp [this]
  | some l =>
    obtain ⟨hl, hoff⟩ := (partner_eq_some h).mp hp
    rw [holds_iff_of_mem h hl hoff, hoff, Option.getD_some]

theorem Get_eq_slotAt (s : CBitSet vs) (pos : ℕ) :
    s.Get pos = (slotAt s.m_bsllist (ComputeOffset vs pos)).m_vec.Get
      (pos - ComputeOffset vs pos) := by
  unfold slotAt
  rw [Get, ← partner]
  cases partner s.m_bsllist (ComputeOffset vs pos) <;> simp

variable {s : CBitSet vs}

/-- `Get` tells which positions the links hold. -/
theorem Get_iff (h : LinksOk s.m_bsllist) :
    s.Get pos = true ↔ Holds s.m_bsllist pos := by
  rw [Get_eq_slotAt, holds_iff_slotAt h]

/-- `links'` is `links` with `new` in the place of the link with its offset, if any. -/
def Replaced (links links' : List (CBitSetLink vs)) (new : CBitSetLink vs) : Prop :=
  ∀ b, b ∈ links' ↔ b = new ∨ b ∈ links ∧ b.m_offset ≠ new.m_offset

theorem Replaced.holds {new : CBitSetLink vs} (h : Replaced links links' new) :
    Holds links' p ↔ if ComputeOffset vs p = new.m_offset then
      new.m_vec.Get (p - new.m_offset) = true else Holds links p := by
  split
  · next ho =>
    constructor
    · rintro ⟨l, hl, hoff, hget⟩
      rcases (h l).mp hl with rfl | ⟨-, hne⟩
      · exact hget
      · exact absurd (hoff.trans ho) hne
    · exact fun hget => ⟨new, (h new).mpr (.inl rfl), ho.symm, hget⟩
  · next ho =>
    refine holds_congr fun l hoff => (h l).trans ?_
    have hne : l.m_offset ≠ new.m_offset := fun heq => ho (hoff.symm.trans heq)
    have hnew : l ≠ new := fun heq => hne (congrArg _ heq)
    simp [hne, hnew]

theorem Replaced.aligned {new : CBitSetLink vs} (h : Replaced links links' new)
    (hok : LinksOk links) (hnew : vs.bits ∣ new.m_offset) :
    ∀ l ∈ links', vs.bits ∣ l.m_offset := by
  intro l hl
  rcases (h l).mp hl with rfl | ⟨hl, -⟩
  · exact hnew
  · exact hok.aligned l hl

theorem Replaced.noEmpty {new : CBitSetLink vs} (h : Replaced links links' new)
    (hne : NoEmptyLink links) (hnew : ∃ k, new.m_vec.Get k = true) :
    NoEmptyLink links' := by
  intro l hl
  rcases (h l).mp hl with rfl | ⟨hl, -⟩
  · exact hnew
  · exact hne l hl

/-- What `ExchangeSet` does to a set. -/
structure ExchangeSetSpec (s : CBitSet vs) (pos : ℕ) (r : Bool × CBitSet vs) : Prop where
  ok : LinksOk r.2.m_bsllist
  holds : ∀ p, Holds r.2.m_bsllist p ↔ p = pos ∨ Holds s.m_bsllist p
  bit : r.1 = s.Get pos
  size : r.2.m_size = if s.Get pos then s.m_size else (s.m_size + 1) % 2 ^ 32
  noEmpty : NoEmptyLink s.m_bsllist → NoEmptyLink r.2.m_bsllist

/-- The links that `ExchangeSet` leaves behind. -/
theorem ExchangeSet_replaced (h : LinksOk s.m_bsllist) (pos : ℕ) :
    SortedList.Sorted CBitSetLink.m_offset (s.ExchangeSet pos).2.m_bsllist ∧
      Replaced s.m_bsllist (s.ExchangeSet pos).2.m_bsllist
        (setIn pos (slotAt s.m_bsllist (ComputeOffset vs pos))) := by
  unfold ExchangeSet slotAt
  cases hp : partner s.m_bsllist (ComputeOffset vs pos) with
  | none =>
    have hnone := (partner_eq_none h).mp hp
    rw [partner] at hp
    simp only [hp]
    constructor
    · exact (SortedList.sorted_insertAfter
        (x := setIn pos ⟨ComputeOffset vs pos, .new vs.bits⟩) h.sorted
        SortedList.cursorOk_none hnone).1
    · intro b
      rw [SortedList.mem_insertAfter]
      exact or_congr_right (and_iff_left_of_imp (hnone b)).symm
  | some link =>
    obtain ⟨-, hoff⟩ := (partner_eq_some h).mp hp
    rw [partner] at hp
    simp only [hp]
    obtain ⟨hsorted, hmem⟩ := SortedList.updateAt_of_atKey (f := setIn pos) h.sorted hp rfl
    refine ⟨hsorted, fun b => (hmem b).trans ?_⟩
    rw [← hoff]
    rfl

/-- **`ExchangeSet` adds the position.** -/
theorem ExchangeSet_spec (h : LinksOk s.m_bsllist) (pos : ℕ) :
    ExchangeSetSpec s pos (s.ExchangeSet pos) := by
  obtain ⟨hsorted, hrep⟩ := ExchangeSet_replaced h pos
  have hoff : (setIn pos (slotAt s.m_bsllist (ComputeOffset vs pos))).m_offset =
      ComputeOffset vs pos := slotAt_offset h
  have hret : (s.ExchangeSet pos).1 = s.Get pos ∧ (s.ExchangeSet pos).2.m_size =
      if s.Get pos then s.m_size else (s.m_size + 1) % 2 ^ 32 := by
    rw [Get_eq_slotAt]
    unfold ExchangeSet slotAt
    cases hp : partner s.m_bsllist (ComputeOffset vs pos) <;> rw [partner] at hp <;> simp [hp]
  refine ⟨⟨hsorted, hrep.aligned h (dvd_of_eq_offset hoff)⟩, fun p => ?_, hret.1, hret.2,
    fun hne => hrep.noEmpty hne ⟨pos - ComputeOffset vs pos, by simp [setIn]⟩⟩
  rw [hrep.holds, hoff, holds_iff_slotAt h]
  by_cases ho : ComputeOffset vs p = ComputeOffset vs pos
  · rw [if_pos ho, ho]
    simp [setIn, eq_iff_of_offset ho]
  · have hne : p ≠ pos := by
      rintro rfl
      exact ho rfl
    rw [if_neg ho]
    simp [hne]

/-- What `ExchangeClear` does to a set. -/
structure ExchangeClearSpec (s : CBitSet vs) (pos : ℕ) (r : Bool × CBitSet vs) : Prop where
  ok : LinksOk r.2.m_bsllist
  holds : ∀ p, Holds r.2.m_bsllist p ↔ p ≠ pos ∧ Holds s.m_bsllist p
  bit : r.1 = s.Get pos
  size : r.2.m_size = if s.Get pos then (s.m_size + (2 ^ 32 - 1)) % 2 ^ 32 else s.m_size
  noEmpty : NoEmptyLink s.m_bsllist → NoEmptyLink r.2.m_bsllist

/-- Positions of a link left behind without the bit of `pos`, or of no link at all. -/
theorem holds_cleared (h : LinksOk links)
    (hsame : ComputeOffset vs p = ComputeOffset vs pos → (Holds links' p ↔
      (clearIn pos (slotAt links (ComputeOffset vs pos))).m_vec.Get
        (p - ComputeOffset vs pos) = true))
    (hother : ComputeOffset vs p ≠ ComputeOffset vs pos → (Holds links' p ↔ Holds links p)) :
    Holds links' p ↔ p ≠ pos ∧ Holds links p := by
  by_cases ho : ComputeOffset vs p = ComputeOffset vs pos
  · rw [hsame ho, holds_iff_slotAt h, ho]
    simp [clearIn, eq_iff_of_offset ho]
  · have hne : p ≠ pos := by
      rintro rfl
      exact ho rfl
    simp [hother ho, hne]

/-- **`ExchangeClear` removes the position**, and the link when it was its last bit. -/
theorem ExchangeClear_spec (h : LinksOk s.m_bsllist) (pos : ℕ) :
    ExchangeClearSpec s pos (s.ExchangeClear pos) := by
  have hret : (s.ExchangeClear pos).1 = s.Get pos ∧ (s.ExchangeClear pos).2.m_size =
      if s.Get pos then (s.m_size + (2 ^ 32 - 1)) % 2 ^ 32 else s.m_size := by
    rw [Get_eq_slotAt]
    unfold ExchangeClear slotAt
    cases hp : partner s.m_bsllist (ComputeOffset vs pos) <;> rw [partner] at hp <;> simp [hp]
  suffices hlinks : LinksOk (s.ExchangeClear pos).2.m_bsllist ∧
      (∀ p, Holds (s.ExchangeClear pos).2.m_bsllist p ↔ p ≠ pos ∧ Holds s.m_bsllist p) ∧
      (NoEmptyLink s.m_bsllist → NoEmptyLink (s.ExchangeClear pos).2.m_bsllist) from
    ⟨hlinks.1, hlinks.2.1, hret.1, hret.2, hlinks.2.2⟩
  have hslot := slotAt_offset (o := ComputeOffset vs pos) h
  have hcleared := fun links' p => @holds_cleared vs s.m_bsllist p pos links' h
  unfold ExchangeClear
  cases hp : partner s.m_bsllist (ComputeOffset vs pos) with
  | none =>
    have hnone := (partner_eq_none h).mp hp
    rw [partner] at hp
    simp only [hp]
    refine ⟨h, fun p => (and_iff_right_of_imp ?_).symm, fun hne => hne⟩
    rintro hholds rfl
    exact not_holds_of_none hnone hholds
  | some link =>
    obtain ⟨hl, hoff⟩ := (partner_eq_some h).mp hp
    have hlink : slotAt s.m_bsllist (ComputeOffset vs pos) = link := by rw [slotAt, hp]; rfl
    rw [hlink] at hcleared
    rw [partner] at hp
    simp only [hp]
    by_cases hempty : (clearIn pos link).m_vec.IsEmpty = true
    · rw [if_pos hempty]
      obtain ⟨hsorted, hmem⟩ := SortedList.removeAt_of_atKey h.sorted hp
      refine ⟨⟨hsorted, fun l hl => h.aligned l ((hmem l).mp hl).1⟩, fun p => hcleared _ p ?_ ?_,
        fun hne l hl => hne l ((hmem l).mp hl).1⟩
      · intro ho
        rw [CBitVector.IsEmpty_iff.mp hempty]
        simp only [Bool.false_eq_true, iff_false]
        exact not_holds_of_none fun l hl => ho ▸ ((hmem l).mp hl).2
      · intro ho
        exact holds_congr fun l hlo => (hmem l).trans (and_iff_left (hlo ▸ ho))
    · rw [if_neg hempty]
      obtain ⟨hsorted, hmem⟩ := SortedList.updateAt_of_atKey (f := clearIn pos) h.sorted hp rfl
      have hrep : Replaced s.m_bsllist (SortedList.updateAt s.m_bsllist
          (FindLinkByOffset s.m_bsllist (ComputeOffset vs pos) none) (clearIn pos))
          (clearIn pos link) := fun b => (hmem b).trans (by rw [← hoff]; rfl)
      have hoff' : (clearIn pos link).m_offset = ComputeOffset vs pos := hoff
      refine ⟨⟨hsorted, hrep.aligned h (dvd_of_eq_offset hoff')⟩,
        fun p => hcleared _ p ?_ ?_, fun hne => hrep.noEmpty hne ?_⟩
      · intro ho
        rw [hrep.holds, hoff', if_pos ho]
      · intro ho
        rw [hrep.holds, hoff', if_neg ho]
      · by_contra hnone
        refine hempty (CBitVector.IsEmpty_iff.mpr fun k => ?_)
        by_contra hk
        exact hnone ⟨k, by simpa using hk⟩

end CBitSet

end BossOptimizer

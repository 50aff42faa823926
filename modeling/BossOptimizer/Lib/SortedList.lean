import Mathlib.Data.List.Pairwise
import Mathlib.Order.Nat

/-!
# Lists sorted by a key, searched with a cursor

A list whose keys strictly increase is searched for the last element whose key is at most a
target. The search may start at a position found before; as long as the targets grow, starting
there finds the same position as starting at the head.
-/

namespace BossOptimizer

namespace SortedList

variable {α : Type*} (key : α → ℕ)

/-- The keys strictly increase. -/
def Sorted (l : List α) : Prop := l.Pairwise fun a b => key a < key b

/-- The scan of `seek`: `i` is the position of the list's head, `found` the last hit. -/
def seekFrom (k : ℕ) : List α → ℕ → Option ℕ → Option ℕ
  | [], _, found => found
  | a :: l, i, found => if k < key a then found else seekFrom k l (i + 1) (some i)

/-- The position of the last element with a key of at most `k`, scanning from `start`. -/
def seek (l : List α) (k : ℕ) (start : Option ℕ) : Option ℕ :=
  seekFrom key k (l.drop (start.getD 0)) (start.getD 0) start

/-- The element at a position, when its key is `k`. -/
def atKey (l : List α) (r : Option ℕ) (k : ℕ) : Option α :=
  (r.bind fun i => l[i]?).filter fun a => key a = k

/-- The list with `x` behind the given position, or in front of everything. -/
def insertAfter (l : List α) (r : Option ℕ) (x : α) : List α :=
  match r with
  | none => x :: l
  | some i => l.take (i + 1) ++ x :: l.drop (i + 1)

/-- The list with the element at the position replaced. -/
def updateAt (l : List α) (r : Option ℕ) (f : α → α) : List α :=
  match r with
  | none => l
  | some i => l.modify i f

/-- The list without the element at the position. -/
def removeAt (l : List α) (r : Option ℕ) : List α :=
  match r with
  | none => l
  | some i => l.eraseIdx i

/-- The position of the last of `n` elements. -/
def lastOf (n : ℕ) : Option ℕ := if n = 0 then none else some (n - 1)

/-- A start position is no further than the target. -/
def CursorOk (l : List α) (k : ℕ) (start : Option ℕ) : Prop :=
  ∀ i, start = some i → ∃ a, l[i]? = some a ∧ key a ≤ k

variable {key} {l : List α} {k k' : ℕ} {start r : Option ℕ}

theorem cursorOk_none : CursorOk key l k none := fun _ h => (by cases h)

theorem CursorOk.mono (h : CursorOk key l k start) (hk : k ≤ k') : CursorOk key l k' start :=
  fun i hi => (h i hi).imp fun _ ha => ⟨ha.1, ha.2.trans hk⟩

/-- `r` is the border between the keys up to `k` and those above. -/
def Border (key : α → ℕ) (l : List α) (k : ℕ) (r : Option ℕ) (pre post : List α) : Prop :=
  l = pre ++ post ∧ (∀ a ∈ pre, key a ≤ k) ∧ (∀ a ∈ post, k < key a) ∧ r = lastOf pre.length

theorem seekFrom_border {pre rest : List α} (hs : Sorted key (pre ++ rest))
    (hpre : ∀ a ∈ pre, key a ≤ k) :
    ∃ pre' post, Border key (pre ++ rest) k
      (seekFrom key k rest pre.length (lastOf pre.length)) pre' post := by
  induction rest generalizing pre with
  | nil => exact ⟨pre, [], rfl, hpre, by simp, rfl⟩
  | cons a rest ih =>
    by_cases ha : k < key a
    · refine ⟨pre, a :: rest, rfl, hpre, ?_, by rw [seekFrom, if_pos ha]⟩
      intro b hb
      rcases List.mem_cons.mp hb with rfl | hb
      · exact ha
      · have htail := (List.pairwise_append.mp hs).2.1
        exact ha.trans ((List.pairwise_cons.mp htail).1 b hb)
    · have happ : pre ++ a :: rest = (pre ++ [a]) ++ rest := by simp
      rw [happ] at hs ⊢
      have hnext : ∀ b ∈ pre ++ [a], key b ≤ k := by
        intro b hb
        rcases List.mem_append.mp hb with hb | hb
        · exact hpre b hb
        · rw [List.mem_singleton.mp hb]
          omega
      have hfound : lastOf (pre ++ [a]).length = some pre.length := by simp [lastOf]
      have hlen : (pre ++ [a]).length = pre.length + 1 := by simp
      have h := ih hs hnext
      rw [hfound, hlen] at h
      rwa [seekFrom, if_neg ha]

/-- **The search finds the border**, from the head or from any cursor behind it. -/
theorem seek_border (hs : Sorted key l) (hstart : CursorOk key l k start) :
    ∃ pre post, Border key l k (seek key l k start) pre post := by
  cases start with
  | none =>
    have h : ∃ pre post, Border key ([] ++ l) k (seekFrom key k l 0 (lastOf 0)) pre post :=
      seekFrom_border hs (by simp)
    simpa [seek, lastOf] using h
  | some i =>
    obtain ⟨a, ha, hak⟩ := hstart i rfl
    obtain ⟨hi, rfl⟩ := List.getElem?_eq_some_iff.mp ha
    have hsplit : l = l.take i ++ l[i] :: l.drop (i + 1) := by
      rw [List.getElem_cons_drop, List.take_append_drop]
    have hbelow : ∀ b ∈ l.take i, key b ≤ k := by
      intro b hb
      rw [hsplit] at hs
      have := (List.pairwise_append.mp hs).2.2 b hb l[i] List.mem_cons_self
      omega
    have hpre : ∀ b ∈ l.take i ++ [l[i]], key b ≤ k := by
      intro b hb
      rcases List.mem_append.mp hb with hb | hb
      · exact hbelow b hb
      · rw [List.mem_singleton.mp hb]
        exact hak
    have hs' : Sorted key ((l.take i ++ [l[i]]) ++ l.drop (i + 1)) := by simpa using hs
    have h := seekFrom_border hs' hpre
    have hlen : (l.take i ++ [l[i]]).length = i + 1 := by simp; omega
    have hfound : lastOf (i + 1) = some i := by simp [lastOf]
    rw [hlen, hfound, List.append_assoc, List.singleton_append, ← hsplit] at h
    have hseek : seek key l k (some i) = seekFrom key k (l.drop (i + 1)) (i + 1) (some i) := by
      rw [seek, Option.getD_some, ← List.getElem_cons_drop (h := hi), seekFrom, if_neg (by omega)]
    rwa [hseek]

/-- The position found is a cursor for every later target. -/
theorem cursorOk_seek (hs : Sorted key l) (hstart : CursorOk key l k start) :
    CursorOk key l k (seek key l k start) := by
  obtain ⟨pre, post, rfl, hpre, -, hr⟩ := seek_border hs hstart
  intro i hi
  rw [hr, lastOf] at hi
  split at hi
  · cases hi
  · injection hi with hi
    have hlt : i < pre.length := by omega
    refine ⟨pre[i], ?_, hpre _ (List.getElem_mem hlt)⟩
    rw [List.getElem?_append_left hlt, List.getElem?_eq_getElem hlt]

/-- **A search hits exactly the element with the key.** -/
theorem atKey_seek (hs : Sorted key l) (hstart : CursorOk key l k start) {a : α} :
    atKey key l (seek key l k start) k = some a ↔ a ∈ l ∧ key a = k := by
  obtain ⟨pre, post, rfl, hpre, hpost, hr⟩ := seek_border hs hstart
  rw [hr]
  rcases List.eq_nil_or_concat pre with rfl | ⟨pre, last, rfl⟩
  · have hmiss : ∀ a ∈ post, key a ≠ k := fun a ha => (hpost a ha).ne'
    simp only [lastOf, List.length_nil, if_true, atKey, Option.bind_none, Option.filter_none,
      List.nil_append, false_iff, not_and, reduceCtorEq]
    exact hmiss a
  · have hlast : (pre ++ [last] ++ post)[pre.length]? = some last := by simp
    have hfound : lastOf (pre ++ [last]).length = some pre.length := by simp [lastOf]
    rw [List.concat_eq_append] at *
    rw [hfound, atKey, Option.bind_some, hlast, Option.filter_some]
    have hbelow : ∀ b ∈ pre, key b < key last := fun b hb =>
      (List.pairwise_append.mp (List.pairwise_append.mp hs).1).2.2 b hb last (by simp)
    constructor
    · intro h
      by_cases hk : key last = k
      · simp only [hk, decide_true, if_true, Option.some.injEq] at h
        exact ⟨by simp [← h], h ▸ hk⟩
      · simp [hk] at h
    · rintro ⟨ha, hk⟩
      rcases List.mem_append.mp ha with ha | ha
      · rcases List.mem_append.mp ha with ha | ha
        · have h1 := hbelow a ha
          have h2 := hpre last (by simp)
          omega
        · rw [List.mem_singleton.mp ha] at hk ⊢
          simp [hk]
      · exact absurd hk (hpost a ha).ne'

theorem atKey_seek_eq_none (hs : Sorted key l) (hstart : CursorOk key l k start) :
    atKey key l (seek key l k start) k = none ↔ ∀ a ∈ l, key a ≠ k := by
  rw [Option.eq_none_iff_forall_not_mem]
  constructor
  · intro h a ha hk
    exact h a ((atKey_seek hs hstart).mpr ⟨ha, hk⟩)
  · intro h a ha
    obtain ⟨hmem, hk⟩ := (atKey_seek hs hstart).mp ha
    exact h a hmem hk

theorem mem_insertAfter {x a : α} : a ∈ insertAfter l r x ↔ a = x ∨ a ∈ l := by
  cases r with
  | none => simp [insertAfter]
  | some i =>
    rw [insertAfter, List.mem_append, List.mem_cons]
    conv_rhs => rw [← List.take_append_drop (i + 1) l, List.mem_append]
    exact or_left_comm

/-- Inserting a new key behind the position found keeps the list sorted, and the position a
cursor. -/
theorem sorted_insertAfter {x : α} (hs : Sorted key l) (hstart : CursorOk key l (key x) start)
    (hnew : ∀ a ∈ l, key a ≠ key x) :
    Sorted key (insertAfter l (seek key l (key x) start) x) ∧
      CursorOk key (insertAfter l (seek key l (key x) start) x) (key x)
        (seek key l (key x) start) := by
  obtain ⟨pre, post, rfl, hpre, hpost, hr⟩ := seek_border hs hstart
  have hins : insertAfter (pre ++ post) (seek key (pre ++ post) (key x) start) x =
      pre ++ x :: post := by
    rw [hr, lastOf]
    split
    · next h => rw [List.length_eq_zero_iff.mp h]; rfl
    · next h =>
      have hlen : pre.length - 1 + 1 = pre.length := by omega
      rw [insertAfter, hlen, List.take_left, List.drop_left]
  rw [hins]
  constructor
  · obtain ⟨h1, h2, h3⟩ := List.pairwise_append.mp hs
    refine List.pairwise_append.mpr ⟨h1, List.pairwise_cons.mpr ⟨hpost, h2⟩, ?_⟩
    intro a ha b hb
    rcases List.mem_cons.mp hb with rfl | hb
    · have h4 := hpre a ha
      have h5 := hnew a (List.mem_append_left _ ha)
      omega
    · exact h3 a ha b hb
  · intro i hi
    rw [hr, lastOf] at hi
    split at hi
    · cases hi
    · injection hi with hi
      have hlt : i < pre.length := by omega
      refine ⟨pre[i], ?_, hpre _ (List.getElem_mem hlt)⟩
      rw [List.getElem?_append_left hlt, List.getElem?_eq_getElem hlt]

theorem Sorted.eq_of_key {a b : α} (hs : Sorted key l) (ha : a ∈ l) (hb : b ∈ l)
    (hk : key a = key b) : a = b := by
  by_contra hne
  have hne' : l.Pairwise fun a b => key a ≠ key b := hs.imp fun h => h.ne
  have : Std.Symm fun a b : α => key a ≠ key b := ⟨fun _ _ h => h.symm⟩
  exact hne'.forall ha hb hne hk

theorem split_of_atKey {a : α} (hhit : atKey key l r k = some a) :
    ∃ pre post, l = pre ++ a :: post ∧ r = some pre.length ∧ key a = k := by
  cases r with
  | none => simp [atKey] at hhit
  | some i =>
    simp only [atKey, Option.bind_some, Option.filter_eq_some_iff, decide_eq_true_eq] at hhit
    obtain ⟨hget, hk⟩ := hhit
    obtain ⟨hi, rfl⟩ := List.getElem?_eq_some_iff.mp hget
    refine ⟨l.take i, l.drop (i + 1), ?_, ?_, hk⟩
    · rw [List.getElem_cons_drop, List.take_append_drop]
    · rw [List.length_take, Nat.min_eq_left (Nat.le_of_lt hi)]

theorem ne_of_mem_split {pre post : List α} {a b : α} (hs : Sorted key (pre ++ a :: post))
    (hb : b ∈ pre ∨ b ∈ post) : key b ≠ key a := by
  obtain ⟨-, hpost, hcross⟩ := List.pairwise_append.mp hs
  rcases hb with hb | hb
  · exact (hcross b hb a List.mem_cons_self).ne
  · exact ((List.pairwise_cons.mp hpost).1 b hb).ne'

/-- Replacing the element found by one with the same key changes nothing else. -/
theorem updateAt_of_atKey {f : α → α} {a : α} (hs : Sorted key l) (hhit : atKey key l r k = some a)
    (hf : key (f a) = key a) :
    Sorted key (updateAt l r f) ∧
      ∀ b, b ∈ updateAt l r f ↔ b = f a ∨ b ∈ l ∧ key b ≠ k := by
  obtain ⟨pre, post, rfl, rfl, rfl⟩ := split_of_atKey hhit
  have hmod : updateAt (pre ++ a :: post) (some pre.length) f = pre ++ f a :: post := by
    rw [updateAt, List.modify_eq_take_cons_drop (by simp)]
    simp
  rw [hmod]
  constructor
  · simpa [Sorted, List.pairwise_append, hf] using hs
  · intro b
    have hne := fun h => ne_of_mem_split (b := b) hs h
    simp only [List.mem_append, List.mem_cons]
    constructor
    · rintro (h | h | h)
      · exact .inr ⟨.inl h, hne (.inl h)⟩
      · exact .inl h
      · exact .inr ⟨.inr (.inr h), hne (.inr h)⟩
    · rintro (h | ⟨h | h | h, hk⟩)
      · exact .inr (.inl h)
      · exact .inl h
      · exact absurd (congrArg key h) hk
      · exact .inr (.inr h)

/-- Removing the element found removes nothing else. -/
theorem removeAt_of_atKey {a : α} (hs : Sorted key l) (hhit : atKey key l r k = some a) :
    Sorted key (removeAt l r) ∧ ∀ b, b ∈ removeAt l r ↔ b ∈ l ∧ key b ≠ k := by
  obtain ⟨pre, post, rfl, rfl, rfl⟩ := split_of_atKey hhit
  have herase : removeAt (pre ++ a :: post) (some pre.length) = pre ++ post := by
    simp [removeAt, List.eraseIdx_append_of_length_le]
  rw [herase]
  constructor
  · exact hs.sublist (List.Sublist.append_left (List.sublist_cons_self a post) pre)
  · intro b
    have hne := fun h => ne_of_mem_split (b := b) hs h
    simp only [List.mem_append, List.mem_cons]
    constructor
    · rintro (h | h)
      · exact ⟨.inl h, hne (.inl h)⟩
      · exact ⟨.inr (.inr h), hne (.inr h)⟩
    · rintro ⟨h | h | h, hk⟩
      · exact .inl h
      · exact absurd (congrArg key h) hk
      · exact .inr h

/-- Two sorted lists with the same elements are the same list. -/
theorem sorted_ext {l₁ l₂ : List α} (h₁ : Sorted key l₁) (h₂ : Sorted key l₂)
    (hmem : ∀ a, a ∈ l₁ ↔ a ∈ l₂) : l₁ = l₂ := by
  induction l₁ generalizing l₂ with
  | nil =>
    cases l₂ with
    | nil => rfl
    | cons b l₂ => exact absurd ((hmem b).mpr (by simp)) (by simp)
  | cons a l₁ ih =>
    cases l₂ with
    | nil => exact absurd ((hmem a).mp (by simp)) (by simp)
    | cons b l₂ =>
      obtain ⟨ha, hl₁⟩ := List.pairwise_cons.mp h₁
      obtain ⟨hb, hl₂⟩ := List.pairwise_cons.mp h₂
      have hab : a = b := by
        rcases List.mem_cons.mp ((hmem a).mp (by simp)) with h | h
        · exact h
        · rcases List.mem_cons.mp ((hmem b).mpr (by simp)) with h' | h'
          · exact h'.symm
          · have h3 := hb a h
            have h4 := ha b h'
            omega
      subst hab
      refine congrArg _ (ih hl₁ hl₂ fun c => ⟨fun hc => ?_, fun hc => ?_⟩)
      · rcases List.mem_cons.mp ((hmem c).mp (List.mem_cons_of_mem _ hc)) with rfl | h
        · exact absurd (ha c hc) (lt_irrefl _)
        · exact h
      · rcases List.mem_cons.mp ((hmem c).mpr (List.mem_cons_of_mem _ hc)) with rfl | h
        · exact absurd (hb c hc) (lt_irrefl _)
        · exact h

end SortedList

end BossOptimizer

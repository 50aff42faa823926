import BossOptimizer.Search.CMemo
import BossOptimizer.Lib.Numbering

/-!
# Ids of group expressions

`m_ulGExprs` of a group is both the number of its expressions and the id that the next one gets.
Insertion and `MergeGroup` keep the ids of a group an arrangement of `0 … m_ulGExprs - 1`;
`MoveDuplicateGExpr` keeps that up only when the expression it takes out has the highest id.
-/

namespace BossOptimizer

variable {Op : Type}

/-- A memo and the list of `FRehash` that is still to be put back, empty outside of it. -/
structure MemoState (Op : Type) where
  memo : CMemo Op
  listGExprs : List ℕ

/-- The operations on a memo. `dump` starts `FRehash`, and `rehash` is one turn of its second
loop. -/
inductive MemoStep (Op : Type) where
  | insert (pgroupTarget : Option ℕ) (pop : Op) (pdrgpgroup : List ℕ)
  | setRoot (g : ℕ)
  | markDuplicates (pgroupFst pgroupSnd : ℕ) (hne : pgroupFst ≠ pgroupSnd)
  | mergeGroup (g : ℕ)
  | dump
  | rehash

namespace MemoState

variable (ops : MemoOperators Op)

/-- The groups that a step names are groups of the memo. -/
def Names (m : CMemo Op) : MemoStep Op → Prop
  | .insert pgroupTarget _ pdrgpgroup =>
    (∀ g ∈ pgroupTarget, g < m.m_aul) ∧ ∀ g ∈ pdrgpgroup, g < m.m_aul
  | .setRoot g => g < m.m_aul
  | .markDuplicates pgroupFst pgroupSnd _ => pgroupFst < m.m_aul ∧ pgroupSnd < m.m_aul
  | .mergeGroup g => g < m.m_aul
  | .dump => True
  | .rehash => True

instance (m : CMemo Op) : DecidablePred (Names m)
  | .insert .. => inferInstanceAs (Decidable (_ ∧ _))
  | .setRoot _ => inferInstanceAs (Decidable (_ < _))
  | .markDuplicates .. => inferInstanceAs (Decidable (_ ∧ _))
  | .mergeGroup _ => inferInstanceAs (Decidable (_ < _))
  | .dump => inferInstanceAs (Decidable True)
  | .rehash => inferInstanceAs (Decidable True)

/-- What a step does to the memo while no `FRehash` is going on. -/
def apply (m : CMemo Op) : MemoStep Op → MemoState Op
  | .insert pgroupTarget pop pdrgpgroup => ⟨m.PgroupInsert ops pgroupTarget pop pdrgpgroup, []⟩
  | .setRoot g => ⟨{ m with m_pgroupRoot := some g }, []⟩
  | .markDuplicates pgroupFst pgroupSnd hne => ⟨m.MarkDuplicates pgroupFst pgroupSnd hne, []⟩
  | .mergeGroup g => ⟨m.MergeGroup g, []⟩
  | .dump => ⟨m.dump.1, m.dump.2⟩
  | .rehash => ⟨m, []⟩

/-- One step. `FRehash` is not interrupted, and a step that names no group of the memo is none. -/
def step (s : MemoState Op) (a : MemoStep Op) : MemoState Op :=
  match s.listGExprs, a with
  | pgexpr :: listGExprs, .rehash => ⟨(s.memo.rehashGExpr ops pgexpr).1, listGExprs⟩
  | _ :: _, _ => s
  | [], a => if Names s.memo a then apply ops s.memo a else s

def run (s : MemoState Op) (steps : List (MemoStep Op)) : MemoState Op :=
  steps.foldl (step ops) s

def new (memory : ℕ → CGroupExpression Op) : MemoState Op := ⟨.new memory, []⟩

end MemoState

namespace CMemo

variable {m : CMemo Op} {listGExprs : List ℕ} {g p : ℕ}

/-- The ids of the expressions that a group holds. -/
def ids (m : CMemo Op) (g : ℕ) : List ℕ := (m.group g).m_listGExprs.map fun p => (m.gexpr p).m_id

/-- The ids of every group are pairwise different and below its counter. -/
def IdsOk (m : CMemo Op) : Prop :=
  ∀ g, (m.ids g).Nodup ∧ ∀ id ∈ m.ids g, id < (m.group g).m_ulGExprs

/-- The expressions of the hash table. -/
abbrev entries (m : CMemo Op) : List ℕ := m.m_sht.map (·.2)

/-- A group counts its expressions, each expression is in the list of its own group only, and the
hash table and the list of `FRehash` have expressions that are in a group, each one once. -/
structure Linked (m : CMemo Op) (listGExprs : List ℕ) : Prop where
  counted : ∀ g, (m.group g).m_ulGExprs = (m.group g).m_listGExprs.length
  nodup : ∀ g, (m.group g).m_listGExprs.Nodup
  home : ∀ g, ∀ p ∈ (m.group g).m_listGExprs, (m.gexpr p).m_pgroup = g ∧ p < m.allocated
  table : (m.entries ++ listGExprs).Nodup
  live : ∀ p ∈ m.entries ++ listGExprs, p ∈ (m.group (m.gexpr p).m_pgroup).m_listGExprs

attribute [local simp] MemoState.Names MemoState.apply in
theorem Linked.idsOk_iff (h : Linked m listGExprs) :
    m.IdsOk ↔ ∀ g, Numbering.Dense (m.ids g) := by
  have hlen : ∀ g, (m.ids g).length = (m.group g).m_ulGExprs := fun g => by
    rw [ids, List.length_map, h.counted]
  constructor
  · exact fun hok g => ⟨(hok g).1, fun i hi => (hlen g).symm ▸ (hok g).2 i hi⟩
  · exact fun hd g => ⟨(hd g).nodup, fun i hi => hlen g ▸ (hd g).lt i hi⟩

theorem linked_new (memory : ℕ → CGroupExpression Op) : Linked (new memory) [] := by
  constructor <;> simp [new, entries]

theorem idsOk_new (memory : ℕ → CGroupExpression Op) : (new memory).IdsOk := by
  simp [IdsOk, ids, new]

/-! ## Taking an id -/

@[simp] theorem group_proxyInsert (m : CMemo Op) (g p : ℕ) :
    (m.ProxyInsert g p).group = Function.update m.group g
      { m_listGExprs := (m.group g).m_listGExprs ++ [p]
        m_listDupGExprs := (m.group g).m_listDupGExprs
        m_ulGExprs := (m.group g).m_ulGExprs + 1 } := by
  simp [ProxyInsert, GroupInsert, TakeId, setGroup]

@[simp] theorem gexpr_proxyInsert (m : CMemo Op) (g p : ℕ) :
    (m.ProxyInsert g p).gexpr = Function.update m.gexpr p
      { m.gexpr p with m_pgroup := g, m_id := (m.group g).m_ulGExprs } := rfl

@[simp] theorem allocated_proxyInsert (m : CMemo Op) (g p : ℕ) :
    (m.ProxyInsert g p).allocated = m.allocated := rfl

@[simp] theorem sht_proxyInsert (m : CMemo Op) (g p : ℕ) :
    (m.ProxyInsert g p).m_sht = m.m_sht := rfl

/-- An expression of no group takes the id that the counter of the group stands at. -/
theorem ids_proxyInsert (hp : ∀ g, p ∉ (m.group g).m_listGExprs) (t g : ℕ) :
    (m.ProxyInsert t p).ids g =
      if g = t then m.ids t ++ [(m.group t).m_ulGExprs] else m.ids g := by
  have hkeep : ∀ g, (m.group g).m_listGExprs.map (fun q => ((m.ProxyInsert t p).gexpr q).m_id) =
      m.ids g := fun g => List.map_congr_left fun q hq => by
    have hqp : q ≠ p := fun hqp => hp g (hqp ▸ hq)
    rw [gexpr_proxyInsert, Function.update_of_ne hqp]
  rw [ids, group_proxyInsert]
  by_cases hg : g = t
  · subst hg
    rw [Function.update_self, if_pos rfl, List.map_append, hkeep g]
    simp
  · rw [Function.update_of_ne hg, if_neg hg, hkeep g]

/-- Everything is linked but the expression `p`, which is in no group. -/
structure Unhoused (m : CMemo Op) (listGExprs : List ℕ) (p : ℕ) : Prop where
  counted : ∀ g, (m.group g).m_ulGExprs = (m.group g).m_listGExprs.length
  nodup : ∀ g, (m.group g).m_listGExprs.Nodup
  home : ∀ g, ∀ q ∈ (m.group g).m_listGExprs, (m.gexpr q).m_pgroup = g ∧ q < m.allocated
  out : ∀ g, p ∉ (m.group g).m_listGExprs
  allocated : p < m.allocated
  table : (m.entries ++ listGExprs).Nodup
  live : ∀ q ∈ m.entries ++ listGExprs, q ≠ p → q ∈ (m.group (m.gexpr q).m_pgroup).m_listGExprs

theorem Unhoused.ids_proxyInsert (h : Unhoused m listGExprs p) (t g : ℕ) :
    (m.ProxyInsert t p).ids g = if g = t then m.ids t ++ [(m.ids t).length] else m.ids g := by
  rw [CMemo.ids_proxyInsert h.out, h.counted, ids, List.length_map]

theorem Unhoused.proxyInsert (h : Unhoused m listGExprs p) (t : ℕ) :
    Linked (m.ProxyInsert t p) listGExprs where
  counted g := by
    by_cases hg : g = t
    · subst hg
      simp [h.counted]
    · simp [Function.update_of_ne hg, h.counted]
  nodup g := by
    by_cases hg : g = t
    · subst hg
      have hout : ∀ q ∈ (m.group g).m_listGExprs, q ≠ p := fun q hq hqp => h.out g (hqp ▸ hq)
      simpa [List.nodup_append, h.nodup] using hout
    · simpa [Function.update_of_ne hg] using h.nodup g
  home g q hq := by
    by_cases hqp : q = p
    · subst hqp
      by_cases hg : g = t
      · subst hg
        simpa using h.allocated
      · exact absurd (by simpa [Function.update_of_ne hg] using hq) (h.out g)
    · have hq' : q ∈ (m.group g).m_listGExprs := by
        by_cases hg : g = t
        · subst hg
          simpa [hqp] using hq
        · simpa [Function.update_of_ne hg] using hq
      simpa [Function.update_of_ne hqp] using h.home g q hq'
  table := h.table
  live q hq := by
    by_cases hqp : q = p
    · subst hqp
      simp
    · have hlive := h.live q hq hqp
      rw [gexpr_proxyInsert, Function.update_of_ne hqp, group_proxyInsert]
      by_cases hg : (m.gexpr q).m_pgroup = t
      · rw [hg] at hlive ⊢
        simp [hlive]
      · rwa [Function.update_of_ne hg]

/-! ## Insertion -/

theorem entries_shtInsert (ops : MemoOperators Op) (m : CMemo Op) (p : ℕ) :
    (m.ShtInsert ops p).entries.Perm (p :: m.entries) :=
  (List.perm_orderedInsert ..).map _

theorem Linked.allocate (h : Linked m listGExprs) (ops : MemoOperators Op) (pop : Op)
    (pdrgpgroup : List ℕ) :
    Unhoused ((m.allocate pop pdrgpgroup).ShtInsert ops m.allocated) listGExprs m.allocated := by
  have hold : ∀ g, ∀ q ∈ (m.group g).m_listGExprs, q ≠ m.allocated := fun g q hq =>
    (h.home g q hq).2.ne
  have hperm := (entries_shtInsert ops (m.allocate pop pdrgpgroup) m.allocated).append_right
    listGExprs
  have hent : ∀ q ∈ m.entries ++ listGExprs, q ≠ m.allocated := fun q hq =>
    hold _ q (h.live q hq)
  refine ⟨h.counted, h.nodup, fun g q hq => ?_, fun g hq => hold g _ hq rfl, Nat.lt_succ_self _,
    ?_, fun q hq hne => ?_⟩
  · have := h.home g q hq
    refine ⟨?_, this.2.trans (Nat.lt_succ_self _)⟩
    rw [← this.1]
    exact congrArg _ (Function.update_of_ne (hold g q hq) ..)
  · rw [hperm.nodup_iff]
    exact List.nodup_cons.2 ⟨fun hmem => hent _ hmem rfl, h.table⟩
  · have hmem : q ∈ m.entries ++ listGExprs := by
      rcases List.mem_cons.1 (hperm.mem_iff.1 hq) with hqp | hqm
      · exact absurd hqp hne
      · exact hqm
    have hgroup : (((m.allocate pop pdrgpgroup).ShtInsert ops m.allocated).gexpr q).m_pgroup =
        (m.gexpr q).m_pgroup := congrArg _ (Function.update_of_ne hne ..)
    rw [hgroup]
    exact h.live q hmem

theorem Linked.ids_allocate (h : Linked m listGExprs) (ops : MemoOperators Op) (pop : Op)
    (pdrgpgroup : List ℕ) (g : ℕ) :
    ((m.allocate pop pdrgpgroup).ShtInsert ops m.allocated).ids g = m.ids g :=
  List.map_congr_left fun q hq =>
    congrArg _ (Function.update_of_ne (h.home g q hq).2.ne ..)

/-- A group takes a new expression: every group keeps a dense numbering. -/
theorem Unhoused.dense_proxyInsert (h : Unhoused m listGExprs p)
    (hd : ∀ g, Numbering.Dense (m.ids g)) (t g : ℕ) :
    Numbering.Dense ((m.ProxyInsert t p).ids g) := by
  rw [h.ids_proxyInsert]
  split
  · exact (hd t).concat
  · exact hd g

theorem Linked.pgroupInsert (h : Linked m listGExprs) (ops : MemoOperators Op)
    (pgroupTarget : Option ℕ) (pop : Op) (pdrgpgroup : List ℕ) :
    Linked (m.PgroupInsert ops pgroupTarget pop pdrgpgroup) listGExprs := by
  unfold PgroupInsert
  cases m.Find ops ⟨0, none, pop, pdrgpgroup, 0⟩ with
  | some found => exact h
  | none =>
    have hnew := (h.allocate ops pop pdrgpgroup)
    cases pgroupTarget with
    | some t => exact hnew.proxyInsert t
    | none =>
      have hlinked := hnew.proxyInsert m.m_aul
      exact ⟨hlinked.1, hlinked.2, hlinked.3, hlinked.4, hlinked.5⟩

theorem Linked.dense_pgroupInsert (h : Linked m listGExprs)
    (hd : ∀ g, Numbering.Dense (m.ids g)) (ops : MemoOperators Op) (pgroupTarget : Option ℕ)
    (pop : Op) (pdrgpgroup : List ℕ) (g : ℕ) :
    Numbering.Dense ((m.PgroupInsert ops pgroupTarget pop pdrgpgroup).ids g) := by
  unfold PgroupInsert
  cases m.Find ops ⟨0, none, pop, pdrgpgroup, 0⟩ with
  | some found => exact hd g
  | none =>
    have hnew := (h.allocate ops pop pdrgpgroup)
    have hdnew : ∀ g, Numbering.Dense (((m.allocate pop pdrgpgroup).ShtInsert ops
        m.allocated).ids g) := fun g => by
      rw [h.ids_allocate]
      exact hd g
    cases pgroupTarget with
    | some t => exact hnew.dense_proxyInsert hdnew t g
    | none => exact hnew.dense_proxyInsert hdnew m.m_aul g

/-! ## Merge -/

theorem ids_removeHead (m : CMemo Op) (t g : ℕ) :
    (m.RemoveHead t).ids g = if g = t then (m.ids t).tail else m.ids g := by
  rw [ids, RemoveHead, setGroup]
  dsimp only
  by_cases hg : g = t
  · subst hg
    rw [Function.update_self, if_pos rfl]
    exact List.map_tail
  · rw [Function.update_of_ne hg, if_neg hg, ids]

theorem Linked.removeHead (h : Linked m listGExprs) {rest : List ℕ}
    (hg : (m.group g).m_listGExprs = p :: rest) : Unhoused (m.RemoveHead g) listGExprs p := by
  have hnd := h.nodup g
  rw [hg] at hnd
  have hp := h.home g p (hg ▸ List.mem_cons_self)
  have hlist : ∀ x, ((m.RemoveHead g).group x).m_listGExprs =
      if x = g then rest else (m.group x).m_listGExprs := fun x => by
    rw [RemoveHead, setGroup]
    dsimp only
    by_cases hx : x = g
    · subst hx
      simp [hg]
    · rw [Function.update_of_ne hx, if_neg hx]
  have hsub : ∀ x, ∀ q ∈ ((m.RemoveHead g).group x).m_listGExprs,
      q ∈ (m.group x).m_listGExprs := fun x q hq => by
    rw [hlist] at hq
    split at hq
    · rename_i hx
      subst hx
      exact hg ▸ List.mem_cons_of_mem _ hq
    · exact hq
  refine ⟨fun x => ?_, fun x => ?_, fun x q hq => h.home x q (hsub x q hq), fun x hpx => ?_, hp.2,
    h.table, fun q hq hne => ?_⟩
  · rw [hlist]
    by_cases hx : x = g
    · subst hx
      simp [RemoveHead, setGroup, h.counted, hg]
    · simp [RemoveHead, setGroup, Function.update_of_ne hx, h.counted, if_neg hx]
  · rw [hlist]
    split
    · exact hnd.of_cons
    · exact h.nodup x
  · have hx : x = g := (h.home x p (hsub x p hpx)).1.symm.trans hp.1
    rw [hlist, if_pos hx] at hpx
    exact (List.nodup_cons.1 hnd).1 hpx
  · rw [hlist]
    have hlive := h.live q hq
    split
    · rename_i hx
      rw [show (m.gexpr q).m_pgroup = g from hx, hg] at hlive
      exact (List.mem_cons.1 hlive).resolve_left hne
    · exact hlive

/-- Every expression of `g` is taken in by another group, under its next id. -/
theorem Linked.moveGExprs {t : ℕ} (hgt : g ≠ t) : ∀ (rest : List ℕ) (m : CMemo Op),
    Linked m listGExprs → (m.group g).m_listGExprs = rest →
    (∀ x, x ≠ g → Numbering.Dense (m.ids x)) →
    Linked (moveGExprs g t rest m) listGExprs ∧
      ∀ x, Numbering.Dense ((CMemo.moveGExprs g t rest m).ids x)
  | [], m, h, hg, hd => by
    refine ⟨h, fun x => ?_⟩
    by_cases hx : x = g
    · subst hx
      rw [CMemo.moveGExprs, ids, hg]
      exact Numbering.dense_nil
    · exact hd x hx
  | p :: rest, m, h, hg, hd => by
    have hout := h.removeHead hg
    refine Linked.moveGExprs hgt rest _ (hout.proxyInsert t) ?_ fun x hx => ?_
    · rw [group_proxyInsert, Function.update_of_ne hgt]
      simp [RemoveHead, setGroup, hg]
    · rw [hout.ids_proxyInsert]
      have hkeep : ∀ y, y ≠ g → Numbering.Dense ((m.RemoveHead g).ids y) := fun y hy => by
        rw [ids_removeHead, if_neg hy]
        exact hd y hy
      split
      · exact (hkeep t hgt.symm).concat
      · exact hkeep x hx

theorem linked_links (d : Links) (h : Linked m listGExprs) :
    Linked { m with links := d } listGExprs :=
  ⟨h.1, h.2, h.3, h.4, h.5⟩

theorem Linked.mergeGroup (h : Linked m listGExprs) (hd : ∀ g, Numbering.Dense (m.ids g)) (g : ℕ) :
    Linked (m.MergeGroup g) listGExprs ∧ ∀ x, Numbering.Dense ((m.MergeGroup g).ids x) := by
  unfold MergeGroup
  split
  · exact ⟨h, hd⟩
  · rename_i t ht
    exact Linked.moveGExprs (m.links.lt_master ht).ne _ _ (linked_links _ h) rfl fun x _ => hd x

/-! ## Rehash -/

theorem Linked.dump (h : Linked m []) : Linked m.dump.1 m.dump.2 :=
  ⟨h.counted, h.nodup, h.home, by simpa [CMemo.dump, entries] using h.table,
    fun p hp => h.live p (by simpa [CMemo.dump, entries] using hp)⟩

theorem Linked.shtInsert (h : Linked m (p :: listGExprs)) (ops : MemoOperators Op) :
    Linked (m.ShtInsert ops p) listGExprs := by
  have hperm : ((m.ShtInsert ops p).entries ++ listGExprs).Perm (m.entries ++ p :: listGExprs) :=
    ((entries_shtInsert ops m p).append_right listGExprs).trans List.perm_middle.symm
  exact ⟨h.counted, h.nodup, h.home, hperm.nodup_iff.2 h.table,
    fun q hq => h.live q (hperm.mem_iff.1 hq)⟩

/-- Taking a duplicate out of its group. -/
def takeOut (m : CMemo Op) (p pgexprFound : ℕ) : CMemo Op :=
  (m.SetDuplicate p pgexprFound).MoveDuplicateGExpr (m.gexpr p).m_pgroup p

theorem moveDuplicate_eq (m : CMemo Op) (p pgexprFound : ℕ) :
    ∃ d, (m.moveDuplicate p pgexprFound).1 = { m.takeOut p pgexprFound with links := d } := by
  unfold moveDuplicate
  dsimp only
  split_ifs
  · exact ⟨_, rfl⟩
  · exact ⟨_, rfl⟩
  · exact ⟨_, rfl⟩

theorem gexpr_takeOut (m : CMemo Op) (p pgexprFound q : ℕ) :
    ((m.takeOut p pgexprFound).gexpr q).m_id = (m.gexpr q).m_id ∧
      ((m.takeOut p pgexprFound).gexpr q).m_pgroup = (m.gexpr q).m_pgroup := by
  rw [takeOut, SetDuplicate, MoveDuplicateGExpr, setGroup]
  dsimp only
  by_cases hqp : q = p
  · subst hqp
    rw [Function.update_self]
    exact ⟨rfl, rfl⟩
  · rw [Function.update_of_ne hqp]
    exact ⟨rfl, rfl⟩

theorem listGExprs_takeOut (m : CMemo Op) (p pgexprFound g : ℕ) :
    ((m.takeOut p pgexprFound).group g).m_listGExprs =
      if g = (m.gexpr p).m_pgroup then (m.group g).m_listGExprs.erase p
      else (m.group g).m_listGExprs := by
  rw [takeOut, MoveDuplicateGExpr, setGroup]
  dsimp only
  split
  · rename_i hg
    rw [hg, Function.update_self]
    rfl
  · rename_i hg
    rw [Function.update_of_ne hg]
    rfl

theorem ulGExprs_takeOut (m : CMemo Op) (p pgexprFound g : ℕ) :
    ((m.takeOut p pgexprFound).group g).m_ulGExprs =
      if g = (m.gexpr p).m_pgroup then (m.group g).m_ulGExprs - 1
      else (m.group g).m_ulGExprs := by
  rw [takeOut, MoveDuplicateGExpr, setGroup]
  dsimp only
  split
  · rename_i hg
    rw [hg, Function.update_self]
    rfl
  · rename_i hg
    rw [Function.update_of_ne hg]
    rfl

theorem Linked.mem_group (h : Linked m (p :: listGExprs)) :
    p ∈ (m.group (m.gexpr p).m_pgroup).m_listGExprs :=
  h.live p (List.mem_append_right _ List.mem_cons_self)

theorem Linked.takeOut (h : Linked m (p :: listGExprs)) (pgexprFound : ℕ) :
    Linked (m.takeOut p pgexprFound) listGExprs := by
  have htable : (p :: (m.entries ++ listGExprs)).Nodup := List.perm_middle.nodup_iff.1 h.table
  have hsub : ∀ g, ∀ q ∈ ((m.takeOut p pgexprFound).group g).m_listGExprs,
      q ∈ (m.group g).m_listGExprs := fun g q hq => by
    rw [listGExprs_takeOut] at hq
    split at hq
    · exact List.mem_of_mem_erase hq
    · exact hq
  constructor
  case counted =>
    intro g
    rw [ulGExprs_takeOut, listGExprs_takeOut]
    split
    · rename_i hg
      subst hg
      rw [List.length_erase_of_mem h.mem_group, h.counted]
    · exact h.counted g
  case nodup =>
    intro g
    rw [listGExprs_takeOut]
    split
    · exact (h.nodup g).erase p
    · exact h.nodup g
  case home =>
    intro g q hq
    rw [(gexpr_takeOut m p pgexprFound q).2]
    exact h.home g q (hsub g q hq)
  case table => exact (List.nodup_cons.1 htable).2
  case live =>
    intro q hq
    have hne : q ≠ p := fun hqp => (List.nodup_cons.1 htable).1 (hqp ▸ hq)
    have hlive := h.live q (List.perm_middle.mem_iff.2 (List.mem_cons_of_mem p hq))
    rw [(gexpr_takeOut m p pgexprFound q).2, listGExprs_takeOut]
    split
    · exact (List.mem_erase_of_ne hne).2 hlive
    · exact hlive

/-- **Taking a duplicate out keeps the ids dense exactly when it has the highest id.** -/
theorem Linked.dense_takeOut_iff (h : Linked m (p :: listGExprs))
    (hd : ∀ g, Numbering.Dense (m.ids g)) (pgexprFound : ℕ) :
    (∀ g, Numbering.Dense ((m.takeOut p pgexprFound).ids g)) ↔
      (m.gexpr p).m_id + 1 = (m.group (m.gexpr p).m_pgroup).m_ulGExprs := by
  have hids : ∀ g, (m.takeOut p pgexprFound).ids g =
      if g = (m.gexpr p).m_pgroup then
        ((m.group g).m_listGExprs.erase p).map fun q => (m.gexpr q).m_id
      else m.ids g := fun g => by
    rw [ids, listGExprs_takeOut, List.map_congr_left fun q _ => (gexpr_takeOut m p pgexprFound q).1]
    split <;> rfl
  have hiff := (hd (m.gexpr p).m_pgroup).map_erase_iff h.mem_group
  rw [h.counted, ← hiff]
  constructor
  · intro hall
    have := hall (m.gexpr p).m_pgroup
    rwa [hids, if_pos rfl] at this
  · intro hdense g
    rw [hids]
    split
    · rename_i hg
      subst hg
      exact hdense
    · exact hd g

theorem linked_moveDuplicate (h : Linked m (p :: listGExprs)) (pgexprFound : ℕ) :
    Linked (m.moveDuplicate p pgexprFound).1 listGExprs := by
  obtain ⟨d, hd⟩ := m.moveDuplicate_eq p pgexprFound
  rw [hd]
  exact linked_links d (h.takeOut pgexprFound)

theorem ids_moveDuplicate (m : CMemo Op) (p pgexprFound g : ℕ) :
    (m.moveDuplicate p pgexprFound).1.ids g = (m.takeOut p pgexprFound).ids g := by
  obtain ⟨d, hd⟩ := m.moveDuplicate_eq p pgexprFound
  rw [hd]
  rfl

end CMemo

/-! ## Runs -/

namespace MemoState

variable (ops : MemoOperators Op) {s : MemoState Op}

/-- An expression that the step takes out of its group as a duplicate has the highest id there. -/
def MovesHighest (s : MemoState Op) : MemoStep Op → Prop
  | .rehash => ∀ pgexpr ∈ s.listGExprs.head?,
    (s.memo.Find ops (s.memo.gexpr pgexpr)).isSome →
      (s.memo.gexpr pgexpr).m_id + 1 = (s.memo.group (s.memo.gexpr pgexpr).m_pgroup).m_ulGExprs
  | _ => True

/-- The expressions are linked and every group has a dense numbering. -/
structure Numbered (s : MemoState Op) : Prop where
  linked : s.memo.Linked s.listGExprs
  dense : ∀ g, Numbering.Dense (s.memo.ids g)

theorem numbered_new (memory : ℕ → CGroupExpression Op) : Numbered (new memory) :=
  ⟨CMemo.linked_new memory, (CMemo.linked_new memory).idsOk_iff.1 (CMemo.idsOk_new memory)⟩

theorem Numbered.apply {m : CMemo Op} (h : Numbered ⟨m, []⟩) (a : MemoStep Op) :
    Numbered (apply ops m a) := by
  obtain ⟨hl, hd⟩ := h
  cases a with
  | insert pgroupTarget pop pdrgpgroup =>
    exact ⟨hl.pgroupInsert ops pgroupTarget pop pdrgpgroup,
      hl.dense_pgroupInsert hd ops pgroupTarget pop pdrgpgroup⟩
  | setRoot g => exact ⟨⟨hl.1, hl.2, hl.3, hl.4, hl.5⟩, hd⟩
  | markDuplicates pgroupFst pgroupSnd hne => exact ⟨CMemo.linked_links _ hl, hd⟩
  | mergeGroup g =>
    have hmerge := hl.mergeGroup hd g
    exact ⟨hmerge.1, hmerge.2⟩
  | dump => exact ⟨hl.dump, hd⟩
  | rehash => exact ⟨hl, hd⟩

/-- One turn of the loop of `FRehash`. -/
theorem Numbered.rehashGExpr {m : CMemo Op} {pgexpr : ℕ} {listGExprs : List ℕ}
    (h : Numbered ⟨m, pgexpr :: listGExprs⟩) :
    (m.rehashGExpr ops pgexpr).1.Linked listGExprs ∧
      ((∀ g, Numbering.Dense ((m.rehashGExpr ops pgexpr).1.ids g)) ↔
        MovesHighest ops ⟨m, pgexpr :: listGExprs⟩ .rehash) := by
  obtain ⟨hl, hd⟩ := h
  unfold CMemo.rehashGExpr MovesHighest
  dsimp only
  cases hfind : m.Find ops (m.gexpr pgexpr) with
  | none => exact ⟨hl.shtInsert ops, iff_of_true hd (by simp [hfind])⟩
  | some pgexprFound =>
    refine ⟨CMemo.linked_moveDuplicate hl pgexprFound, ?_⟩
    simp only [CMemo.ids_moveDuplicate]
    rw [hl.dense_takeOut_iff hd]
    simp [hfind]

theorem Numbered.step (h : Numbered s) (a : MemoStep Op) :
    (step ops s a).memo.Linked (step ops s a).listGExprs ∧
      ((∀ g, Numbering.Dense ((step ops s a).memo.ids g)) ↔ MovesHighest ops s a) := by
  obtain ⟨m, listGExprs⟩ := s
  have hstay : ∀ {s' : MemoState Op}, Numbered s' → MovesHighest ops ⟨m, listGExprs⟩ a →
      s'.memo.Linked s'.listGExprs ∧
        ((∀ g, Numbering.Dense (s'.memo.ids g)) ↔ MovesHighest ops ⟨m, listGExprs⟩ a) :=
    fun h' hmoves => ⟨h'.linked, iff_of_true h'.dense hmoves⟩
  cases listGExprs with
  | cons pgexpr rest =>
    cases a with
    | rehash => exact h.rehashGExpr ops
    | _ => exact hstay h trivial
  | nil =>
    have hmoves : MovesHighest ops ⟨m, []⟩ a := by
      cases a <;> simp [MovesHighest]
    have hstep : MemoState.step ops ⟨m, []⟩ a = if Names m a then
        MemoState.apply ops m a else ⟨m, []⟩ := by
      cases a <;> rfl
    rw [hstep]
    split
    · exact hstay (h.apply ops a) hmoves
    · exact hstay h hmoves

theorem idsOk_run_iff_of (h : Numbered s) (steps : List (MemoStep Op)) :
    (∀ pre, pre <+: steps → (run ops s pre).memo.IdsOk) ↔
      ∀ pre a, pre ++ [a] <+: steps → MovesHighest ops (run ops s pre) a := by
  have hok : s.memo.IdsOk := h.linked.idsOk_iff.2 h.dense
  induction steps generalizing s with
  | nil => simpa [run] using hok
  | cons a steps ih =>
    have hstep := h.step ops a
    by_cases hmoves : MovesHighest ops s a
    · have hnext : Numbered (step ops s a) := ⟨hstep.1, hstep.2.2 hmoves⟩
      have hih := ih hnext (hnext.linked.idsOk_iff.2 hnext.dense)
      constructor
      · intro hall pre b hpre
        cases pre with
        | nil =>
          rw [(List.cons_prefix_cons.1 hpre).1]
          exact hmoves
        | cons c pre =>
          obtain ⟨rfl, hrest⟩ := List.cons_prefix_cons.1 hpre
          exact hih.1 (fun pre' hpre' => hall (c :: pre') (List.cons_prefix_cons.2 ⟨rfl, hpre'⟩))
            pre b hrest
      · intro hall pre hpre
        cases pre with
        | nil => exact hok
        | cons c pre =>
          obtain ⟨rfl, hrest⟩ := List.cons_prefix_cons.1 hpre
          exact hih.2 (fun pre' b hpre' =>
            hall (c :: pre') b (List.cons_prefix_cons.2 ⟨rfl, hpre'⟩)) pre hrest
    · refine iff_of_false (fun hall => ?_) fun hall =>
        hmoves (hall [] a (List.prefix_append [a] steps))
      have hafter : (step ops s a).memo.IdsOk := hall [a] (List.prefix_append [a] steps)
      exact hmoves (hstep.2.1 (hstep.1.idsOk_iff.1 hafter))

/-- **The ids of every group stay pairwise different and below its counter through exactly the runs
in which every duplicate that is taken out of its group has the highest id there.** -/
theorem idsOk_run_iff (memory : ℕ → CGroupExpression Op) (steps : List (MemoStep Op)) :
    (∀ pre, pre <+: steps → (run ops (new memory) pre).memo.IdsOk) ↔
      ∀ pre a, pre ++ [a] <+: steps → MovesHighest ops (run ops (new memory) pre) a :=
  idsOk_run_iff_of ops (numbered_new memory) steps

/-- Operators that match when they are equal. -/
def plainOps : MemoOperators ℕ :=
  { Matches := (· == ·), HashValue := BitVec.ofNat 32, FInputOrderSensitive := fun _ => true,
    address := id }

/-- Group 2 holds operator 7 over group 0, operator 7 over group 1, and operator 8. Groups 0 and 1
turn out to be duplicates, so one of the first two expressions of group 2 is taken out. Operator 9
is then inserted. -/
def duplicateBelow : List (MemoStep ℕ) :=
  [.insert none 5 [], .insert none 6 [], .insert none 7 [0], .insert (some 2) 7 [1],
    .insert (some 2) 8 [], .markDuplicates 0 1 (by decide), .mergeGroup 0, .dump,
    .rehash, .rehash, .rehash, .rehash, .rehash, .insert (some 2) 9 []]

theorem not_idsOk_duplicateBelow :
    ¬∀ steps : List (MemoStep ℕ),
      (run plainOps (new fun _ => ⟨0, none, 0, [], 0⟩) steps).memo.IdsOk := by
  intro hall
  have hids : (run plainOps (new fun _ => ⟨0, none, 0, [], 0⟩) duplicateBelow).memo.ids 2 =
      [0, 2, 2] := by decide +kernel
  have hnodup := (hall duplicateBelow 2).1
  rw [hids] at hnodup
  exact absurd hnodup (by decide)

end MemoState

end BossOptimizer

import BossOptimizer.Base.ExpressionEquality
import BossOptimizer.Common.Hash
import Mathlib.Data.List.Induction
import Mathlib.Data.Multiset.AddSub

/-!
# Hash values of equal expressions

`CUtils::Equals` forgets the order of children below every operator that does not care about it.
`CExpression::HashValue` goes by the order everywhere, and `UlHashDedup` forgets it at the root only.
Equal expressions have equal hash values, whatever the hash functions of the operators and the way
to combine them, exactly when they match in order where the hash goes by it.
-/

namespace BossOptimizer

/-- How hash values are made: those of the operators, `CombineHashes`, and `^=`. -/
structure Hashing (Op H : Type) where
  HashValue : Op → H
  CombineHashes : H → H → H
  mix : H → H → H

/-- Operators that match have one hash value, and mixing goes by no order. -/
structure Hashing.Lawful {Op H : Type} (hashing : Hashing Op H) (ops : ScalarOperators Op) :
    Prop where
  matches_eq : ∀ pop pop', ops.Matches pop pop' = true →
    hashing.HashValue pop = hashing.HashValue pop'
  mix_comm : ∀ h h' h'', hashing.mix (hashing.mix h h') h'' = hashing.mix (hashing.mix h h'') h'

/-- The hash values of the optimizer. -/
def Hashing.ulong {Op : Type} (HashValue : Op → BitVec 32) : Hashing Op (BitVec 32) :=
  ⟨HashValue, BossOptimizer.CombineHashes, (· ^^^ ·)⟩

/-- Operators of which every one goes by the order of its inputs. -/
def ScalarOperators.ordered {Op : Type} (ops : ScalarOperators Op) : ScalarOperators Op :=
  { ops with FInputOrderSensitive := fun _ => true }

namespace CExpression

variable {Op H : Type} (ops : ScalarOperators Op) (hashing : Hashing Op H)

/-- `CExpression::HashValue` (CExpression.cpp:1221). -/
def HashValue (pexpr : CExpression Op) : H :=
  pexpr.fold fun pop hashes => hashes.foldl hashing.CombineHashes (hashing.HashValue pop)

/-- `CExpression::UlHashDedup` (CExpression.cpp:1241). -/
def UlHashDedup : CExpression Op → H
  | .node pop pdrgpexpr =>
    pdrgpexpr.foldl (fun ulHash pexpr =>
      if ops.FInputOrderSensitive pop then hashing.CombineHashes ulHash (HashValue hashing pexpr)
      else hashing.mix ulHash (HashValue hashing pexpr)) (hashing.HashValue pop)

/-- `CHashSet::Contains` of an `ExprHashSet` with the default number of chains. -/
def HashSetContains (hash : Op → BitVec 32) (phsexpr : List (CExpression Op))
    (pexpr : CExpression Op) : Bool :=
  phsexpr.any fun value =>
    (UlHashDedup ops (.ulong hash) value).toNat % 127 ==
        (UlHashDedup ops (.ulong hash) pexpr).toNat % 127 && Equals ops value pexpr

/-- `CUtils::PdrgpexprDedup` (CUtils.cpp:1323). -/
def PdrgpexprDedup (hash : Op → BitVec 32) (pdrgpexpr : List (CExpression Op)) :
    List (CExpression Op) :=
  pdrgpexpr.foldl (fun phsexpr pexpr =>
    if HashSetContains ops hash phsexpr pexpr then phsexpr else phsexpr ++ [pexpr]) []

/-! ## Matching in order -/

/-- The expressions match node by node, children in order. -/
def InOrder : CExpression Op → CExpression Op → Prop := fun e e' => Equals ops.ordered e e' = true

/-- The expressions match node by node, in order below a root that may not care about it. -/
def InOrderBelowRoot : CExpression Op → CExpression Op → Prop
  | .node pop l, .node pop' l' =>
    ops.Matches pop pop' = true ∧
      if ops.FInputOrderSensitive pop = true then Matching.Alike (Equals ops.ordered) l l'
      else Matching.Matched (Equals ops.ordered) l l'

variable {ops}

theorem ordered_lawful (lawful : ops.Lawful) : ops.ordered.Lawful :=
  ⟨lawful.symm, lawful.trans, fun _ _ _ => rfl⟩

theorem inOrder_node_iff {pop pop' : Op} {l l' : List (CExpression Op)} :
    InOrder ops (.node pop l) (.node pop' l') ↔
      ops.Matches pop pop' = true ∧ Matching.Alike (Equals ops.ordered) l l' := by
  rw [InOrder, equals_node_iff]
  cases l with
  | nil =>
    rw [if_neg fun h => lt_irrefl 0 h.1]
    refine ⟨fun ⟨hlen, hmatch, _⟩ => ⟨hmatch, ?_⟩,
      fun ⟨hmatch, hm⟩ => ⟨hm.length_eq, hmatch, nofun⟩⟩
    rw [List.length_eq_zero_iff.1 hlen.symm]
    exact .nil
  | cons e l =>
    rw [if_pos ⟨Nat.succ_pos _, rfl⟩]
    exact ⟨fun h => h.2, fun h => ⟨h.2.length_eq, h⟩⟩

/-- **Expressions that match in order have one hash value.** -/
theorem hashValue_eq_of_inOrder (lawful : ops.Lawful) (hlawful : hashing.Lawful ops)
    {e e' : CExpression Op} (h : InOrder ops e e') :
    HashValue hashing e = HashValue hashing e' :=
  fold_eq_of_equals (ordered_lawful lawful)
    (fun pop pop' hmatch => by rw [hlawful.matches_eq pop pop' hmatch]) nofun h

theorem ulHashDedup_node (pop : Op) (l : List (CExpression Op)) :
    UlHashDedup ops hashing (.node pop l) =
      (l.map (HashValue hashing)).foldl
        (if ops.FInputOrderSensitive pop = true then hashing.CombineHashes else hashing.mix)
        (hashing.HashValue pop) := by
  rw [UlHashDedup, List.foldl_map]
  split_ifs <;> rfl

/-- **Expressions that match in order below the root are in one bucket.** -/
theorem ulHashDedup_eq_of_inOrderBelowRoot (lawful : ops.Lawful) (hlawful : hashing.Lawful ops)
    {e e' : CExpression Op} (h : InOrderBelowRoot ops e e') :
    UlHashDedup ops hashing e = UlHashDedup ops hashing e' := by
  obtain ⟨pop, l⟩ := e
  obtain ⟨pop', l'⟩ := e'
  obtain ⟨hmatch, hchildren⟩ := h
  have hchild : ∀ a ∈ l, ∀ b ∈ l', Equals ops.ordered a b = true →
      HashValue hashing a = HashValue hashing b := fun a _ b _ =>
    hashValue_eq_of_inOrder hashing lawful hlawful
  rw [ulHashDedup_node, ulHashDedup_node, ← lawful.sensitive _ _ hmatch,
    hlawful.matches_eq _ _ hmatch]
  split_ifs at hchildren ⊢
  · rw [hchildren.map_eq hchild]
  · exact (hchildren.map_perm hchild).foldl_eq' (fun h' _ h'' _ h => hlawful.mix_comm h h' h'') _

/-! ## Hash values that lose nothing -/

/-- Hash values as terms, with the operators up to `Matches`. -/
inductive HashTerm (Op : Type) where
  | op (matched : Op → Bool)
  | combine (hash1 hash2 : HashTerm Op)

/-- Terms with a bag beside them, in which mixing collects. -/
def freeHashing (ops : ScalarOperators Op) : Hashing Op (HashTerm Op × Multiset (HashTerm Op)) where
  HashValue pop := (.op (ops.Matches pop), 0)
  CombineHashes h h' := (.combine h.1 h'.1, h.2)
  mix h h' := (h.1, h'.1 ::ₘ h.2)

theorem freeHashing_lawful (lawful : ops.Lawful) : (freeHashing ops).Lawful ops where
  matches_eq pop pop' hmatch := by
    have hclass : ops.Matches pop = ops.Matches pop' := by
      funext pop''
      rw [Bool.eq_iff_iff]
      exact ⟨lawful.trans _ _ _ (lawful.symm _ _ hmatch), lawful.trans _ _ _ hmatch⟩
    simp only [freeHashing, hclass]
  mix_comm h h' h'' := by simp only [freeHashing, Multiset.cons_swap]

theorem matches_of_op_eq {pop pop' : Op}
    (h : HashTerm.op (ops.Matches pop) = .op (ops.Matches pop')) :
    ops.Matches pop pop' = true := by
  rw [HashTerm.op.inj h]
  exact ops.matches_refl pop'

/-- A chain of combinations gives back what was combined. -/
theorem foldl_combine_injective {matched matched' : Op → Bool} {ts ts' : List (HashTerm Op)}
    (h : ts.foldl HashTerm.combine (.op matched) = ts'.foldl HashTerm.combine (.op matched')) :
    matched = matched' ∧ ts = ts' := by
  induction ts using List.reverseRecOn generalizing ts' with
  | nil =>
    rcases List.eq_nil_or_concat' ts' with rfl | ⟨us, u, rfl⟩
    · exact ⟨HashTerm.op.inj h, rfl⟩
    · rw [List.foldl_nil, List.foldl_append] at h
      cases h
  | append_singleton ts t ih =>
    rcases List.eq_nil_or_concat' ts' with rfl | ⟨us, u, rfl⟩
    · rw [List.foldl_nil, List.foldl_append] at h
      cases h
    · rw [List.foldl_append, List.foldl_append] at h
      obtain ⟨hinit, rfl⟩ := HashTerm.combine.inj h
      obtain ⟨hmatched, rfl⟩ := ih hinit
      exact ⟨hmatched, rfl⟩

/-- The term of an expression. -/
def term (ops : ScalarOperators Op) (e : CExpression Op) : HashTerm Op :=
  e.fold fun pop ts => ts.foldl HashTerm.combine (.op (ops.Matches pop))

theorem foldl_combineHashes (hs : List (HashTerm Op × Multiset (HashTerm Op))) (t : HashTerm Op) :
    hs.foldl (freeHashing ops).CombineHashes (t, 0) =
      ((hs.map Prod.fst).foldl HashTerm.combine t, 0) := by
  induction hs generalizing t with
  | nil => rfl
  | cons h hs ih => exact ih _

theorem foldl_mix (hs : List (HashTerm Op × Multiset (HashTerm Op))) (t : HashTerm Op)
    (bag : Multiset (HashTerm Op)) : hs.foldl (freeHashing ops).mix (t, bag) =
      (t, Multiset.ofList (hs.map Prod.fst) + bag) := by
  induction hs generalizing bag with
  | nil => simp
  | cons h hs ih =>
    rw [List.foldl_cons, List.map_cons, ← Multiset.cons_coe, Multiset.cons_add,
      ← Multiset.add_cons]
    exact ih _

theorem hashValue_freeHashing (e : CExpression Op) :
    HashValue (freeHashing ops) e = (term ops e, 0) := by
  induction e using CExpression.induction with
  | node pop l ih =>
    have hmap : (l.map (HashValue (freeHashing ops))).map Prod.fst = l.map (term ops) := by
      rw [List.map_map]
      exact List.map_congr_left fun e he => congrArg Prod.fst (ih e he)
    have hnode : HashValue (freeHashing ops) (.node pop l) =
        (l.map (HashValue (freeHashing ops))).foldl (freeHashing ops).CombineHashes
          (.op (ops.Matches pop), 0) := fold_node ..
    rw [hnode, foldl_combineHashes, hmap, term, fold_node]
    rfl

/-- **Expressions of one term match in order.** -/
theorem inOrder_of_term_eq {e e' : CExpression Op} (h : term ops e = term ops e') :
    InOrder ops e e' := by
  induction e using CExpression.induction generalizing e' with
  | node pop l ih =>
    obtain ⟨pop', l'⟩ := e'
    rw [term, fold_node, term, fold_node] at h
    obtain ⟨hmatched, hterms⟩ := foldl_combine_injective h
    refine inOrder_node_iff.2 ⟨matches_of_op_eq (congrArg HashTerm.op hmatched), ?_⟩
    exact .of_map_eq hterms fun a ha b hterm => ih a ha hterm

theorem inOrderBelowRoot_of_ulHashDedup_eq (lawful : ops.Lawful) {e e' : CExpression Op}
    (heq : Equals ops e e' = true)
    (h : UlHashDedup ops (freeHashing ops) e = UlHashDedup ops (freeHashing ops) e') :
    InOrderBelowRoot ops e e' := by
  obtain ⟨pop, l⟩ := e
  obtain ⟨pop', l'⟩ := e'
  obtain ⟨-, hmatch, -⟩ := equals_node_iff.1 heq
  have hmap : ∀ l : List (CExpression Op),
      (l.map (HashValue (freeHashing ops))).map Prod.fst = l.map (term ops) := fun l => by
    rw [List.map_map]
    exact List.map_congr_left fun e _ => congrArg Prod.fst (hashValue_freeHashing e)
  rw [ulHashDedup_node, ulHashDedup_node, ← lawful.sensitive _ _ hmatch] at h
  refine ⟨hmatch, ?_⟩
  split_ifs at h ⊢
  · have hterm := (foldl_combineHashes _ _).symm.trans (h.trans (foldl_combineHashes _ _))
    rw [hmap, hmap] at hterm
    exact .of_map_eq (foldl_combine_injective (congrArg Prod.fst hterm)).2
      fun a _ b => inOrder_of_term_eq
  · have hbag := congrArg Prod.snd ((foldl_mix _ _ _).symm.trans (h.trans (foldl_mix _ _ _)))
    rw [hmap, hmap] at hbag
    exact .of_map_perm (Multiset.coe_eq_coe.1 (by simpa using hbag))
      fun a _ b => inOrder_of_term_eq

/-! ## The law of the hash tables -/

/-- **`Equals` is an equivalence.** -/
theorem equals_equivalence (lawful : ops.Lawful) :
    Equivalence fun e e' : CExpression Op => Equals ops e e' = true :=
  ⟨equals_self, equals_symm lawful, equals_trans lawful⟩

/-- The set finds an equal expression that is in the same bucket. -/
theorem hashSetContains_iff {hash : Op → BitVec 32} {phsexpr : List (CExpression Op)}
    {pexpr : CExpression Op} (h : ∀ value ∈ phsexpr, Equals ops value pexpr = true →
      UlHashDedup ops (.ulong hash) value = UlHashDedup ops (.ulong hash) pexpr) :
    HashSetContains ops hash phsexpr pexpr = true ↔
      ∃ value ∈ phsexpr, Equals ops value pexpr = true := by
  simp only [HashSetContains, List.any_eq_true, Bool.and_eq_true, beq_iff_eq]
  refine exists_congr fun value => and_congr_right fun hmem => ?_
  exact ⟨And.right, fun heq => ⟨by rw [h value hmem heq], heq⟩⟩

/-- **De-duplication leaves one of all equal expressions** if equal ones have one hash value. -/
theorem pdrgpexprDedup_spec {hash : Op → BitVec 32} {pdrgpexpr : List (CExpression Op)}
    (h : ∀ e ∈ pdrgpexpr, ∀ e' ∈ pdrgpexpr, Equals ops e e' = true →
      UlHashDedup ops (.ulong hash) e = UlHashDedup ops (.ulong hash) e') :
    let dedup := PdrgpexprDedup ops hash pdrgpexpr
    dedup.Pairwise (fun e e' => ¬Equals ops e e' = true) ∧
      ∀ e ∈ pdrgpexpr, ∃ e' ∈ dedup, Equals ops e' e = true := by
  suffices key : ∀ rest seen kept, seen ++ rest = pdrgpexpr → (∀ e ∈ kept, e ∈ seen) →
      kept.Pairwise (fun e e' => ¬Equals ops e e' = true) →
      (∀ e ∈ seen, ∃ e' ∈ kept, Equals ops e' e = true) →
      let dedup := rest.foldl (fun phsexpr pexpr =>
        if HashSetContains ops hash phsexpr pexpr then phsexpr else phsexpr ++ [pexpr]) kept
      dedup.Pairwise (fun e e' => ¬Equals ops e e' = true) ∧
        ∀ e ∈ pdrgpexpr, ∃ e' ∈ dedup, Equals ops e' e = true from
    key pdrgpexpr [] [] rfl nofun .nil nofun
  intro rest
  induction rest with
  | nil =>
    intro seen kept hseen _ hpairwise hcover
    rw [List.append_nil] at hseen
    exact ⟨hpairwise, hseen ▸ hcover⟩
  | cons e rest ih =>
    intro seen kept hseen hkept hpairwise hcover
    have hmem : ∀ e' ∈ seen, e' ∈ pdrgpexpr := fun e' he' => by simp [← hseen, he']
    have hcontains := @hashSetContains_iff _ _ hash kept e
      fun value hvalue => h value (hmem value (hkept value hvalue)) e (by simp [← hseen])
    rw [List.foldl_cons]
    refine ih (seen ++ [e]) _ (by simpa using hseen) ?_ ?_ ?_
    all_goals split_ifs with hfound
    · exact fun e' he' => List.mem_append_left _ (hkept e' he')
    · exact fun e' he' => (List.mem_append.1 he').elim
        (fun hold => List.mem_append_left _ (hkept e' hold)) (List.mem_append_right _)
    · exact hpairwise
    · refine List.pairwise_append.2 ⟨hpairwise, List.pairwise_singleton _ _,
        fun e' he' e'' he'' heq => hfound (hcontains.2 ⟨e', he', ?_⟩)⟩
      rwa [← List.mem_singleton.1 he'']
    · intro e' he'
      rcases List.mem_append.1 he' with hold | hnew
      · exact hcover e' hold
      · rw [List.mem_singleton.1 hnew]
        exact hcontains.1 hfound
    · intro e' he'
      rcases List.mem_append.1 he' with hold | hnew
      · obtain ⟨e'', he'', heq⟩ := hcover e' hold
        exact ⟨e'', List.mem_append_left _ he'', heq⟩
      · exact ⟨e', List.mem_append_right _ hnew, equals_self e'⟩

theorem ulong_lawful {hash : Op → BitVec 32}
    (hhash : ∀ pop pop', ops.Matches pop pop' = true → hash pop = hash pop') :
    (Hashing.ulong hash).Lawful ops :=
  ⟨hhash, fun h h' h'' => by simp only [Hashing.ulong, BitVec.xor_assoc, BitVec.xor_comm h' h'']⟩

theorem InOrder.belowRoot {e e' : CExpression Op} (h : InOrder ops e e') :
    InOrderBelowRoot ops e e' := by
  obtain ⟨pop, l⟩ := e
  obtain ⟨pop', l'⟩ := e'
  obtain ⟨hmatch, halike⟩ := inOrder_node_iff.1 h
  refine ⟨hmatch, ?_⟩
  split_ifs
  exacts [halike, ⟨l', .refl l', halike⟩]

/-- **Equal expressions have equal hash values, whatever the hash functions, exactly when they match
in order**; for `UlHashDedup` alone and for de-duplication, in order below the root. -/
theorem equals_hash_law (lawful : ops.Lawful) :
    Equivalence (fun e e' : CExpression Op => Equals ops e e' = true) ∧
      (∀ e e', Equals ops e e' = true →
        ((∀ (H : Type) (hashing : Hashing Op H), hashing.Lawful ops →
            HashValue hashing e = HashValue hashing e' ∧
              UlHashDedup ops hashing e = UlHashDedup ops hashing e') ↔
          InOrder ops e e') ∧
        ((∀ (H : Type) (hashing : Hashing Op H), hashing.Lawful ops →
            UlHashDedup ops hashing e = UlHashDedup ops hashing e') ↔
          InOrderBelowRoot ops e e')) ∧
      ∀ hash : Op → BitVec 32, (∀ pop pop', ops.Matches pop pop' = true → hash pop = hash pop') →
        ∀ pdrgpexpr : List (CExpression Op),
          (∀ e ∈ pdrgpexpr, ∀ e' ∈ pdrgpexpr, Equals ops e e' = true →
            InOrderBelowRoot ops e e') →
          (PdrgpexprDedup ops hash pdrgpexpr).Pairwise (fun e e' => ¬Equals ops e e' = true) ∧
            ∀ e ∈ pdrgpexpr, ∃ e' ∈ PdrgpexprDedup ops hash pdrgpexpr,
              Equals ops e' e = true := by
  refine ⟨equals_equivalence lawful, fun e e' heq => ⟨⟨fun h => ?_, fun h H hashing hlawful => ?_⟩,
    fun h => ?_, fun h H hashing hlawful => ?_⟩, fun hash hhash pdrgpexpr h => ?_⟩
  · have hvalue := (h _ (freeHashing ops) (freeHashing_lawful lawful)).1
    rw [hashValue_freeHashing, hashValue_freeHashing] at hvalue
    exact inOrder_of_term_eq (congrArg Prod.fst hvalue)
  · exact ⟨hashValue_eq_of_inOrder hashing lawful hlawful h,
      ulHashDedup_eq_of_inOrderBelowRoot hashing lawful hlawful h.belowRoot⟩
  · exact inOrderBelowRoot_of_ulHashDedup_eq lawful heq
      (h _ (freeHashing ops) (freeHashing_lawful lawful))
  · exact ulHashDedup_eq_of_inOrderBelowRoot hashing lawful hlawful h
  · exact pdrgpexprDedup_spec fun e he e' he' heq =>
      ulHashDedup_eq_of_inOrderBelowRoot _ lawful (ulong_lawful hhash) (h e he e' he' heq)

/-- Columns, and two operators that do not care about the order of their inputs: 0 for `AND` and
    1 for an equality. -/
def commutative : ScalarOperators ℕ :=
  { ScalarOperators.columns with FInputOrderSensitive := fun pop => decide (1 < pop) }

theorem equals_hash_law_commutative :
    Equivalence fun e e' : CExpression ℕ => Equals commutative e e' = true :=
  (equals_hash_law ⟨fun pop pop' h => by rw [← eq_of_beq h]; exact commutative.matches_refl pop,
    fun pop pop' pop'' h h' => by rw [eq_of_beq h]; exact h',
    fun pop pop' h => by rw [eq_of_beq h]⟩).1

/-- **Two equal conjunctions that de-duplication keeps both**: the equality below the root has its
sides swapped. -/
theorem equal_conjunctions_hash_apart :
    let conjunction := fun left right : ℕ =>
      CExpression.node 0 [.node 1 [.node left [], .node right []], .node 4 []]
    let hashing := Hashing.ulong fun pop : ℕ => BitVec.ofNat 32 pop
    Equals commutative (conjunction 2 3) (conjunction 3 2) = true ∧
      HashValue hashing (conjunction 2 3) ≠ HashValue hashing (conjunction 3 2) ∧
      UlHashDedup commutative hashing (conjunction 2 3) ≠
        UlHashDedup commutative hashing (conjunction 3 2) ∧
      (PdrgpexprDedup commutative (fun pop : ℕ => BitVec.ofNat 32 pop)
        [conjunction 2 3, conjunction 3 2]).length = 2 := by
  decide +kernel

end CExpression

end BossOptimizer

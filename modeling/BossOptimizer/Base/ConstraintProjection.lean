import BossOptimizer.Base.ConstraintContainment
import BossOptimizer.Base.ConstraintDeduplication

/-!
# When a projection is delivered: `Pcnstr(colref)`

The part of a constraint on one column may be missing, which stands for no constraint. The loops of
a conjunction and of a disjunction expect that of their children. A negation on a single column does
not: it negates whatever the part of its child is, and there is nothing to negate when a child on
that column alone says nothing about it. Apart from that, and from arrays of NULLs, every projection
is delivered, and every row of the constraint lies in it.
-/

namespace BossOptimizer

open CConstraintInterval (readsNullList readsNullListAny)

variable {D : Type} [LinearOrder D] {fArrayConstraints : Bool} {colref : CColRef}

/-! ## How a computation ends -/

/-- A computation that returns only when the test is true, and then as described, that takes a NULL
    pointer only when it is false, and reads out of bounds only with array constraints. -/
structure Outcome {α : Type} (fArrayConstraints defined : Bool) (Q : α → Prop)
    (x : Except Fault α) : Prop where
  returns : ∀ a, x = .ok a → defined = true ∧ Q a
  nullDeref : x = .error .nullDeref → defined = false
  outOfBounds : x = .error .outOfBounds → fArrayConstraints = true

section Outcome

variable {α β : Type} {defined defined' : Bool} {Q Q' : α → Prop} {x : Except Fault α}

theorem Outcome.ok {a : α} (h : Q a) : Outcome fArrayConstraints true Q (.ok a) :=
  ⟨fun _ ha => ⟨rfl, Except.ok.inj ha ▸ h⟩, by simp, by simp⟩

theorem Outcome.mono (hx : Outcome fArrayConstraints defined Q x) (h : ∀ a, Q a → Q' a) :
    Outcome fArrayConstraints defined Q' x :=
  ⟨fun a ha => (hx.returns a ha).imp_right (h a), hx.nullDeref, hx.outOfBounds⟩

theorem Outcome.bind {P : β → Prop} {f : α → Except Fault β}
    (hx : Outcome fArrayConstraints defined Q x)
    (hf : ∀ a, Q a → Outcome fArrayConstraints defined' P (f a)) :
    Outcome fArrayConstraints (defined && defined') P (x >>= f) := by
  cases x with
  | error e =>
    refine ⟨fun b hb => (by cases hb), fun he => ?_, fun he => hx.outOfBounds (by cases he; rfl)⟩
    rw [hx.nullDeref (by cases he; rfl), Bool.false_and]
  | ok a =>
    obtain ⟨rfl, ha⟩ := hx.returns a rfl
    exact hf a ha

/-- A computation that can only read out of bounds. -/
theorem FailsWhen.outcome {test : Bool} (hx : FailsWhen .outOfBounds test x)
    (htest : test = true → fArrayConstraints = true) (hQ : ∀ a, x = .ok a → Q a) :
    Outcome fArrayConstraints true Q x := by
  refine ⟨fun a ha => ⟨rfl, hQ a ha⟩, fun he => (by cases hx.error_eq he), fun he => ?_⟩
  by_contra hf
  obtain ⟨a, ha⟩ := hx.returns (by simpa using mt htest hf)
  cases ha.symm.trans he

end Outcome

/-! ## What a part is known to be -/

/-- What the loops ask about a part: there is none, it is unbounded, or a contradiction. -/
inductive PartKind where
  | missing | unbounded | refuted | other
  deriving DecidableEq, Repr

namespace PartKind

/-- Nothing is said about the column. -/
def silent : PartKind → Bool
  | .missing | .unbounded => true
  | _ => false

def negated : PartKind → PartKind
  | .unbounded => .refuted
  | .refuted => .unbounded
  | _ => .other

end PartKind

namespace CConstraint

mutual

/-- The part on a column, as far as the constraint tells without merging children. -/
def partKind (colref : CColRef) : CConstraint D → PartKind
  | .interval pci =>
    if pci.pcr ≠ colref then .missing
    else if pci.isConstraintUnbounded then .unbounded
    else if pci.fContradiction then .refuted
    else .other
  | .conjunction l =>
    if (partKinds colref l).all PartKind.silent then .missing
    else if .refuted ∈ partKinds colref l then .refuted
    else .other
  | .disjunction l =>
    if colref ∉ columnsAll l then .missing
    else if (partKinds colref l).any PartKind.silent then .unbounded
    else if (partKinds colref l).all (· = .refuted) then .refuted
    else .other
  | .negation c => if c.pcrsUsed = [colref] then (partKind colref c).negated else .missing

def partKinds (colref : CColRef) : List (CConstraint D) → List PartKind
  | [] => []
  | c :: l => partKind colref c :: partKinds colref l

end

attribute [local simp] partKind partKinds in
omit [LinearOrder D] in
@[simp] theorem partKinds_eq_map (l : List (CConstraint D)) :
    partKinds colref l = l.map (partKind colref) := by
  induction l with
  | nil => rfl
  | cons c l ih => rw [partKinds, ih, List.map_cons]

mutual

/-- No negation on the column alone that `Pcnstr` gets to is about a child without a part. -/
def projects (colref : CColRef) : CConstraint D → Bool
  | .interval _ => true
  | .conjunction l => projectsAll colref l
  | .disjunction l => !l.all (colref ∈ ·.columns) || projectsUntil colref l
  | .negation c =>
    c.pcrsUsed ≠ [colref] || projects colref c && partKind colref c ≠ .missing

def projectsAll (colref : CColRef) : List (CConstraint D) → Bool
  | [] => true
  | c :: l => projects colref c && projectsAll colref l

/-- The loop of a disjunction ends with the first child that says nothing. -/
def projectsUntil (colref : CColRef) : List (CConstraint D) → Bool
  | [] => true
  | c :: l => projects colref c && ((partKind colref c).silent || projectsUntil colref l)

end

/-! ## Children that do not have the column -/

variable {c : CConstraint D}

attribute [local simp] projects projectsAll projectsUntil in
omit [LinearOrder D] in
theorem not_pcrsUsed_of_not_mem (h : colref ∉ c.columns) :
    c.pcrsUsed ≠ [colref] := fun hc => h (pcrsUsed_eq_singleton.1 hc).1

omit [LinearOrder D] in
theorem partKind_of_not_mem (h : colref ∉ c.columns) :
    c.partKind colref = .missing := by
  induction c using CConstraint.induction with
  | interval pci =>
    have hne : pci.pcr ≠ colref := fun heq => h (by simp [columns, heq])
    rw [partKind, if_pos hne]
  | conjunction l ih =>
    rw [partKind, partKinds_eq_map, if_pos]
    simp only [List.all_map, List.all_eq_true]
    intro c hc
    have hk := ih c hc fun hx => h (mem_columnsAll.2 ⟨c, hc, hx⟩)
    simp [hk, PartKind.silent]
  | disjunction l ih => rw [partKind, if_pos (show colref ∉ columnsAll l from h)]
  | negation c ih =>
    rw [partKind, if_neg (not_pcrsUsed_of_not_mem (show colref ∉ c.columns from h))]

omit [LinearOrder D] in
theorem projects_of_not_mem (h : colref ∉ c.columns) :
    c.projects colref = true := by
  induction c using CConstraint.induction with
  | interval pci => rw [projects]
  | conjunction l ih =>
    rw [projects]
    induction l with
    | nil => rfl
    | cons c l ihl =>
      have hout : ∀ c' ∈ c :: l, colref ∉ c'.columns := fun c' hc' hx =>
        h (mem_columnsAll.2 ⟨c', hc', hx⟩)
      rw [projectsAll, ih c (by simp) (hout c (by simp)), Bool.true_and]
      refine ihl (fun c hc => ih c (by simp [hc])) fun hx => ?_
      obtain ⟨c', hc', hx⟩ := mem_columnsAll.1 hx
      exact hout c' (by simp [hc']) hx
  | disjunction l ih =>
    rw [projects]
    rcases l with _ | ⟨c, l⟩
    · rfl
    · have hc : colref ∉ c.columns := fun hx => h (mem_columnsAll.2 ⟨c, by simp, hx⟩)
      simp [hc]
  | negation c ih =>
    rw [projects]
    simp [not_pcrsUsed_of_not_mem (show colref ∉ c.columns from h)]

/-! ## How a projection ends -/

/-- The part is of the kind that the constraint tells. -/
structure HasKind (colref : CColRef) (c : CConstraint D) (o : Option (CConstraint D)) : Prop where
  missing : o = none ↔ c.partKind colref = .missing
  wellFormed : ∀ d ∈ o, d.WellFormed
  unbounded : ∀ d ∈ o, (d.isConstraintUnbounded = true ↔ c.partKind colref = .unbounded)
  refuted : c.OnColumn colref → ∀ d ∈ o,
    (d.fContradiction = true ↔ c.partKind colref = .refuted)

/-- A part that is not unbounded says something. -/
theorem HasKind.not_silent {c d : CConstraint D} (h : HasKind colref c (some d))
    (hunb : d.isConstraintUnbounded = false) : (c.partKind colref).silent = false := by
  have hmissing : c.partKind colref ≠ .missing := fun hm => by simpa using h.missing.2 hm
  have hbounded : c.partKind colref ≠ .unbounded := fun hu => by
    simpa [hunb] using (h.unbounded d rfl).2 hu
  cases hkind : c.partKind colref with
  | missing => exact absurd hkind hmissing
  | unbounded => exact absurd hkind hbounded
  | refuted => rfl
  | other => rfl

theorem not_fContradiction_of_unbounded {d : CConstraint D}
    (h : d.isConstraintUnbounded = true) : d.fContradiction = false := by
  rw [← Bool.not_eq_true]
  exact fun hcon => (sat_of_flags d fun _ => ⊥).1 hcon ((sat_of_flags d _).2 h)

/-- A connective of parts: none, the only one, or a new connective, which is never reported as
    unbounded. -/
theorem pcnstrConjDisj_outcome (fArrayConstraints fConj : Bool) {parts : List (CConstraint D)}
    (hwf : ∀ d ∈ parts, d.WellFormed) :
    Outcome fArrayConstraints true (fun o => (o = none ↔ parts = []) ∧ ∀ d ∈ o, d.WellFormed ∧
      (parts = [d] ∨ 2 ≤ parts.length ∧ d.isConstraintUnbounded = false))
      (pcnstrConjDisj fArrayConstraints fConj parts) := by
  have hwithin : ∀ d, pcnstrConjDisj fArrayConstraints fConj parts = .ok (some d) →
      d.WellFormed := fun d hd =>
    (pcnstrConjDisj_within (S := Set.univ) (fun d hd => ⟨hwf d hd, fun _ _ => trivial⟩) hd).1
  rcases parts with _ | ⟨d, _ | ⟨d', parts⟩⟩
  · exact .ok ⟨by simp, by simp⟩
  · exact .ok ⟨by simp, by simpa using hwf d (by simp)⟩
  · rw [pcnstrConjDisj, ofConjDisj_eq]
    · refine FailsWhen.outcome (FailsWhen.map (FailsWhen.map
        (pdrgpcnstrFlatten_failsWhen fArrayConstraints fConj hwf))) (fun htest => ?_) ?_
      · by_contra hf
        rw [Bool.not_eq_true] at hf
        subst hf
        obtain ⟨c, -, hc⟩ := List.any_eq_true.1 htest
        rw [mergesNullList_false] at hc
        cases hc
      rintro o ho
      obtain ⟨e, he, rfl⟩ := map_eq_ok.1 ho
      obtain ⟨out, hout, rfl⟩ := map_eq_ok.1 he
      refine ⟨by simp, fun d'' hd'' => ⟨?_, .inr ⟨by simp, ?_⟩⟩⟩
      · obtain rfl := Option.mem_some_iff.1 hd''
        refine hwithin _ ?_
        rw [pcnstrConjDisj, ofConjDisj_eq, hout]
        · rfl
        · simp
        · simp
      · obtain rfl := Option.mem_some_iff.1 hd''
        cases fConj <;> rfl
    · simp
    · simp

/-- What the loop of a conjunction keeps: the parts of the children that say something. -/
structure Kept (colref : CColRef) (l kept : List (CConstraint D)) : Prop where
  nil : kept = [] ↔ ∀ c ∈ l, (c.partKind colref).silent = true
  length : kept.length ≤ l.length
  part : ∀ d ∈ kept, d.WellFormed ∧ d.isConstraintUnbounded = false ∧
    ∃ c ∈ l, c.OnColumn colref → (d.fContradiction = true ↔ c.partKind colref = .refuted)

variable {l kept : List (CConstraint D)}

theorem Kept.skip (h : Kept colref l kept) {child : CConstraint D}
    (hs : (child.partKind colref).silent = true) : Kept colref (child :: l) kept := by
  refine ⟨by simpa [hs] using h.nil, h.length.trans (by simp), fun d hd => ?_⟩
  obtain ⟨hwf, hunb, c, hc, hcon⟩ := h.part d hd
  exact ⟨hwf, hunb, c, by simp [hc], hcon⟩

theorem Kept.keep (h : Kept colref l kept) {child d : CConstraint D}
    (hk : HasKind colref child (some d)) (hunb : d.isConstraintUnbounded = false) :
    Kept colref (child :: l) (d :: kept) := by
  refine ⟨by simp [hk.not_silent hunb], by simpa using h.length, fun d' hd' => ?_⟩
  rcases List.mem_cons.1 hd' with rfl | hd'
  · exact ⟨hk.wellFormed _ rfl, hunb, child, by simp, fun hon => hk.refuted hon _ rfl⟩
  · obtain ⟨hwf, hunb, c, hc, hcon⟩ := h.part d' hd'
    exact ⟨hwf, hunb, c, by simp [hc], hcon⟩

theorem conjunctionOn_outcome {l : List (CConstraint D)}
    (ih : ∀ c ∈ l, Outcome fArrayConstraints (c.projects colref) (HasKind colref c)
      (c.pcnstr fArrayConstraints colref)) :
    Outcome fArrayConstraints (projectsAll colref l) (Kept colref l)
      (conjunctionOn fArrayConstraints colref l) := by
  induction l with
  | nil => exact .ok ⟨by simp, by simp, by simp⟩
  | cons child l ihl =>
    have hl := ihl fun c hc => ih c (by simp [hc])
    rw [conjunctionOn, projectsAll]
    split
    · refine (ih child (by simp)).bind fun o ho => ?_
      cases o with
      | none =>
        exact hl.mono fun kept hk => hk.skip (by rw [ho.missing.1 rfl]; rfl)
      | some d =>
        dsimp only
        split
        · next hunb =>
          exact hl.mono fun kept hk => hk.skip (by rw [(ho.unbounded d rfl).1 hunb]; rfl)
        · next hunb =>
          rw [← Bool.and_true (projectsAll colref l)]
          exact hl.bind fun kept hk => .ok (hk.keep ho (by simpa using hunb))
    · next hout =>
      rw [projects_of_not_mem hout, Bool.true_and]
      exact hl.mono fun kept hk => hk.skip (by rw [partKind_of_not_mem hout]; rfl)

/-- What the loop of a disjunction ends with, from the parts collected so far. -/
structure Disjoined (colref : CColRef) (acc l : List (CConstraint D)) (d : CConstraint D) :
    Prop where
  wellFormed : d.WellFormed
  unbounded : d.isConstraintUnbounded = true ↔ ∃ c ∈ l, (c.partKind colref).silent = true
  collected : ∀ d', acc = [d'] → l = [] → d = d'
  refuted : acc = [] → ∀ c, l = [c] → c.OnColumn colref →
    (d.fContradiction = true ↔ c.partKind colref = .refuted)

/-- A child that says nothing ends the loop. -/
theorem disjoined_of_silent {acc l : List (CConstraint D)} {child d : CConstraint D}
    (hwf : d.WellFormed) (hunb : d.isConstraintUnbounded = true)
    (hs : (child.partKind colref).silent = true) : Disjoined colref acc (child :: l) d := by
  refine ⟨hwf, iff_of_true hunb ⟨child, by simp, hs⟩, by simp, fun _ c hc _ => ?_⟩
  obtain ⟨rfl, -⟩ : child = c ∧ l = [] := by simpa using hc
  rw [not_fContradiction_of_unbounded hunb]
  refine iff_of_false (by simp) fun hr => ?_
  rw [hr] at hs
  cases hs

theorem disjunctionOn_outcome (hc : colref.fConstrainable = true) {l : List (CConstraint D)}
    (ih : ∀ c ∈ l, Outcome fArrayConstraints (c.projects colref) (HasKind colref c)
      (c.pcnstr fArrayConstraints colref)) {acc : List (CConstraint D)}
    (hacc : ∀ d ∈ acc, d.WellFormed ∧ d.isConstraintUnbounded = false) (hne : acc ++ l ≠ []) :
    Outcome fArrayConstraints (projectsUntil colref l) (fun o => ∃ d, o = some d ∧ Disjoined colref acc l d)
      (disjunctionOn fArrayConstraints colref l acc) := by
  induction l generalizing acc with
  | nil =>
    rw [disjunctionOn, projectsUntil]
    refine (pcnstrConjDisj_outcome fArrayConstraints false fun d hd => (hacc d hd).1).mono ?_
    rintro o ⟨hnone, hsome⟩
    cases o with
    | none => exact absurd (by simpa using hnone.1 rfl) hne
    | some d =>
      obtain ⟨hwf, hcases⟩ := hsome d rfl
      refine ⟨d, rfl, hwf, iff_of_false ?_ (by simp), fun d' hd' _ => ?_, by simp⟩
      · rcases hcases with rfl | ⟨-, hunb⟩
        · simp [(hacc d (by simp)).2]
        · simp [hunb]
      · rcases hcases with rfl | ⟨hlen, -⟩
        · simpa using hd'
        · simp [hd'] at hlen
  | cons child l ihl =>
    rw [disjunctionOn, projectsUntil]
    refine (ih child (by simp)).bind fun o ho => ?_
    cases o with
    | none =>
      have hs : (child.partKind colref).silent = true := by rw [ho.missing.1 rfl]; rfl
      obtain ⟨K, hK⟩ : ∃ K, CConstraintInterval.pciUnbounded (α := Datum D) colref true = some K :=
        ⟨_, by rw [CConstraintInterval.pciUnbounded, if_pos hc]⟩
      have hunb : K.isConstraintUnbounded = true := by
        rw [CConstraintInterval.pciUnbounded, if_pos hc] at hK
        cases hK
        rfl
      rw [hs, Bool.true_or, pciUnboundedDeref, hK]
      exact .ok ⟨_, rfl, disjoined_of_silent (pciUnbounded_within hK).1 hunb hs⟩
    | some d =>
      dsimp only
      split
      · next hunb =>
        have hs : (child.partKind colref).silent = true := by
          rw [(ho.unbounded d rfl).1 hunb]; rfl
        rw [hs, Bool.true_or]
        exact .ok ⟨d, rfl, disjoined_of_silent (ho.wellFormed d rfl) hunb hs⟩
      · next hunb =>
        rw [Bool.not_eq_true] at hunb
        have hs := ho.not_silent hunb
        rw [hs, Bool.false_or]
        have hacc' : ∀ d' ∈ acc ++ [d], d'.WellFormed ∧ d'.isConstraintUnbounded = false := by
          intro d' hd'
          rcases List.mem_append.1 hd' with hd' | hd'
          · exact hacc d' hd'
          · rw [List.mem_singleton.1 hd']
            exact ⟨ho.wellFormed d rfl, hunb⟩
        refine (ihl (fun c hc => ih c (by simp [hc])) hacc' (by simp)).mono ?_
        rintro o ⟨d', rfl, h⟩
        refine ⟨d', rfl, h.wellFormed, by simpa [hs] using h.unbounded, by simp, ?_⟩
        rintro rfl c hcl hon
        obtain ⟨rfl, rfl⟩ : child = c ∧ l = [] := by simpa using hcl
        rw [h.collected d rfl rfl]
        exact ho.refuted hon d rfl

theorem hasKind_interval {pci : CConstraintInterval (Datum D)}
    (hwf : (CConstraint.interval pci).WellFormed) : HasKind colref (.interval pci)
      (if pci.pcr = colref then some (.interval pci) else none) := by
  by_cases hcol : pci.pcr = colref
  · have hexcl : pci.isConstraintUnbounded = true → pci.fContradiction = false :=
      not_fContradiction_of_unbounded (d := .interval pci)
    rw [if_pos hcol]
    refine ⟨?_, by simpa using hwf, ?_, fun _ => ?_⟩ <;>
      simp only [partKind, hcol, ne_eq, not_true_eq_false, if_false, Option.mem_some_iff,
        forall_eq', isConstraintUnbounded, fContradiction] <;>
      cases hu : pci.isConstraintUnbounded <;> cases hf : pci.fContradiction <;>
      simp_all
  · rw [if_neg hcol]
    refine ⟨?_, by simp, by simp, by simp⟩
    simp [partKind, hcol]

/-- The part of a constraint without the column. -/
theorem hasKind_none (h : c.partKind colref = .missing) :
    HasKind colref c none := ⟨by simp [h], by simp, by simp, by simp⟩

theorem hasKind_conjunction {o : Option (CConstraint D)}
    (hone : ∀ colref, (∀ c ∈ l, OnColumn colref c) → l.length = 1) (hk : Kept colref l kept)
    (hnone : o = none ↔ kept = []) (hsome : ∀ d ∈ o, d.WellFormed ∧
      (kept = [d] ∨ 2 ≤ kept.length ∧ d.isConstraintUnbounded = false)) :
    HasKind colref (.conjunction l) o := by
  refine ⟨?_, fun d hd => (hsome d hd).1, fun d hd => ?_, fun hon d hd => ?_⟩
  · rw [hnone, hk.nil, partKind, partKinds_eq_map]
    simp only [List.all_map, List.all_eq_true, Function.comp_apply]
    split
    · next hall => exact iff_of_true hall rfl
    · next hall => exact iff_of_false hall (by split <;> simp)
  · have hunb : d.isConstraintUnbounded = false := by
      rcases (hsome d hd).2 with hkd | ⟨-, hunb⟩
      · exact (hk.part d (by simp [hkd])).2.1
      · exact hunb
    rw [hunb, partKind]
    refine iff_of_false (by simp) ?_
    split
    · simp
    · split <;> simp
  · -- on one column there is one child, and its part is kept
    obtain ⟨child, rfl⟩ := List.length_eq_one_iff.1
      (hone colref fun c hc => OnColumn.child hon hc)
    have hkd : kept = [d] := by
      rcases (hsome d hd).2 with hkd | ⟨hlen, -⟩
      · exact hkd
      · have hshort := hk.length
        rw [List.length_singleton] at hshort
        omega
    obtain ⟨-, -, c, hcm, hcon⟩ := hk.part d (by simp [hkd])
    obtain rfl : c = child := by simpa using hcm
    have hs : (c.partKind colref).silent = false := by
      rw [← Bool.not_eq_true]
      intro hs
      have hnil := hk.nil.2 (by simpa using hs)
      simp [hkd] at hnil
    rw [hcon (OnColumn.child hon (by simp))]
    simp only [partKind, partKinds_eq_map, List.map_cons, List.map_nil, List.all_cons,
      List.all_nil, Bool.and_true, hs, Bool.false_eq_true, if_false, List.mem_singleton]
    split
    · next hr => exact iff_of_true hr.symm rfl
    · next hr => exact iff_of_false (fun h => hr h.symm) (by simp)

theorem hasKind_disjunction {l : List (CConstraint D)} {d : CConstraint D}
    (hone : ∀ colref, (∀ c ∈ l, OnColumn colref c) → l.length = 1)
    (hin : colref ∈ columnsAll l) (hd : Disjoined colref [] l d) :
    HasKind colref (.disjunction l) (some d) := by
  have hkind : (CConstraint.disjunction l).partKind colref =
      if (∃ c ∈ l, (c.partKind colref).silent = true) then .unbounded
      else if (∀ c ∈ l, c.partKind colref = .refuted) then .refuted else .other := by
    rw [partKind, if_neg (by simpa using hin), partKinds_eq_map]
    simp only [List.any_map, List.any_eq_true, List.all_map, List.all_eq_true,
      Function.comp_apply, decide_eq_true_eq]
  refine ⟨?_, by simpa using hd.wellFormed, ?_, fun hon => ?_⟩
  · rw [hkind]
    refine iff_of_false (by simp) ?_
    split
    · simp
    · split <;> simp
  · simp only [Option.mem_some_iff, forall_eq', hd.unbounded, hkind]
    split
    · next hs => exact iff_of_true hs rfl
    · next hs => exact iff_of_false hs (by split <;> simp)
  · obtain ⟨child, rfl⟩ := List.length_eq_one_iff.1
      (hone colref fun c hc => OnColumn.child hon hc)
    simp only [Option.mem_some_iff, forall_eq',
      hd.refuted rfl child rfl (OnColumn.child hon (by simp)), hkind, List.mem_singleton,
      exists_eq_left, forall_eq]
    cases child.partKind colref <;> simp [PartKind.silent]

theorem hasKind_negation {c d : CConstraint D} (hcol : c.pcrsUsed = [colref])
    (h : HasKind colref c (some d)) : HasKind colref (.negation c) (some (.negation d)) := by
  have hon := (pcrsUsed_eq_singleton.1 hcol).2
  have hmissing : c.partKind colref ≠ .missing := fun hm => by simpa using h.missing.2 hm
  have hunb := h.unbounded d rfl
  have href := h.refuted hon d rfl
  have hkind : (CConstraint.negation c).partKind colref = (c.partKind colref).negated := by
    rw [partKind, if_pos hcol]
  refine ⟨?_, by simpa using WellFormed.negation (h.wellFormed d rfl), ?_, fun _ => ?_⟩
  · rw [hkind]
    cases hk : c.partKind colref <;> simp [PartKind.negated]
  · simp only [Option.mem_some_iff, forall_eq', isConstraintUnbounded, href, hkind]
    cases c.partKind colref <;> simp [PartKind.negated]
  · simp only [Option.mem_some_iff, forall_eq', fContradiction, hunb, hkind]
    cases c.partKind colref <;> simp [PartKind.negated]

/-- **How a projection ends.** Without a negation of a missing part it takes no NULL pointer; and
    it returns only then, with a part of the kind that the constraint tells. -/
theorem pcnstr_outcome (fArrayConstraints : Bool) (colref : CColRef)
    (hwf : c.WellFormed) : Outcome fArrayConstraints (c.projects colref) (HasKind colref c)
      (c.pcnstr fArrayConstraints colref) := by
  induction c using CConstraint.induction with
  | interval pci =>
    rw [pcnstr, projects]
    exact .ok (hasKind_interval hwf)
  | conjunction l ih =>
    cases hwf with
    | conjunction _ hwf hone =>
      rw [pcnstr]
      split
      · rw [projects, ← Bool.and_true (projectsAll colref l)]
        refine (conjunctionOn_outcome fun c hc => ih c hc (hwf c hc)).bind fun kept hk => ?_
        refine (pcnstrConjDisj_outcome fArrayConstraints true fun d hd => (hk.part d hd).1).mono ?_
        rintro o ⟨hnone, hsome⟩
        exact hasKind_conjunction hone hk hnone hsome
      · next hout =>
        have hout : colref ∉ (CConstraint.conjunction l).columns := hout
        rw [projects_of_not_mem hout]
        exact .ok (hasKind_none (partKind_of_not_mem hout))
  | disjunction l ih =>
    have hcolumn : colref ∈ columnsAll l → colref.fConstrainable = true :=
      fun hin => hwf.fConstrainable hin
    cases hwf with
    | disjunction hne hwf hone =>
      rw [pcnstr]
      split
      · next hout =>
        have hout : colref ∉ (CConstraint.disjunction l).columns := hout
        rw [projects_of_not_mem hout]
        exact .ok (hasKind_none (partKind_of_not_mem hout))
      · next hin =>
        rw [not_not] at hin
        have hc := hcolumn hin
        rw [projects]
        split
        · next hall =>
          rw [hall, Bool.not_true, Bool.false_or]
          refine (disjunctionOn_outcome hc (fun c hc => ih c hc (hwf c hc)) (by simp)
            (by simpa using hne)).mono ?_
          rintro o ⟨d, rfl, hd⟩
          exact hasKind_disjunction hone hin hd
        · next hall =>
          -- a child without the column says nothing about it
          obtain ⟨c, hcl, hout⟩ : ∃ c ∈ l, colref ∉ c.columns := by simpa using hall
          have hs : (c.partKind colref).silent = true := by rw [partKind_of_not_mem hout]; rfl
          rw [Bool.not_eq_true] at hall
          rw [hall, Bool.not_false, Bool.true_or, CConstraintInterval.pciUnbounded, if_pos hc]
          refine .ok (hasKind_disjunction hone hin ⟨?_, iff_of_true rfl ⟨c, hcl, hs⟩, by simp,
            fun _ child hl _ => ?_⟩)
          · exact (pciUnbounded_within (n := true) (by
              rw [CConstraintInterval.pciUnbounded, if_pos hc])).1
          · obtain rfl : c = child := by simpa [hl] using hcl
            obtain ⟨c', hc', hx⟩ := mem_columnsAll.1 hin
            obtain rfl : c' = c := by simpa [hl] using hc'
            exact absurd hx hout
  | negation c ih =>
    cases hwf with
    | negation hwf =>
      rw [pcnstr, projects]
      split
      · next hcol =>
        have hsame : (decide (c.pcrsUsed ≠ [colref]) ||
            projects colref c && decide (partKind colref c ≠ .missing)) =
            (projects colref c && decide (partKind colref c ≠ .missing)) := by simp [hcol]
        rw [hsame]
        refine (ih hwf).bind fun o ho => ?_
        cases o with
        | none => exact ⟨fun _ h => (by cases h), fun _ => (by simp [ho.missing.1 rfl]), by simp⟩
        | some d =>
          have hmissing : c.partKind colref ≠ .missing := fun hm => by simpa using ho.missing.2 hm
          simp only [hmissing, ne_eq, not_false_eq_true, decide_true]
          exact .ok (hasKind_negation hcol ho)
      · next hcol =>
        rw [show (decide (c.pcrsUsed ≠ [colref])) = true by simpa using hcol, Bool.true_or]
        exact .ok (hasKind_none (by rw [partKind, if_neg hcol]))

section Examples

/-- `(a = 1 AND b = 5) OR NOT (b IN (-inf, inf) OR b IS NULL)`, the child of the negation being a
    conjunction. -/
def fiveOrNothing : CConstraint ℤ :=
  .disjunction [point 1 5,
    .negation (.conjunction [.interval ⟨colB, [⟨none, .excluded, none, .excluded⟩], true⟩])]

theorem fiveOrNothing_wellFormed : fiveOrNothing.WellFormed := by
  refine .disjunction (by simp) (fun c hc => ?_) fun k hon => ?_
  · rcases List.mem_cons.1 hc with rfl | hc
    · exact point_wellFormed 1 5
    · rw [List.mem_singleton.1 hc]
      refine .negation (.conjunction (by simp) (fun c hc => ?_) (by simp))
      rw [List.mem_singleton.1 hc]
      exact .interval (by simp [CConstraintInterval.WellFormed,
        CConstraintInterval.ordered_cons, CRange.wellFormed_iff]) rfl
  · have hA : colA = k := hon (point 1 5) (by simp) _ (by simp [point, equalTo, columns, columnsAll])
    have hB : colB = k := hon (point 1 5) (by simp) _ (by simp [point, equalTo, columns, columnsAll])
    exact absurd (hA.trans hB.symm) (by decide)

end Examples

end CConstraint

end BossOptimizer

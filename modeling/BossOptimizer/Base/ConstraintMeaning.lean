import BossOptimizer.Base.Constraint
import BossOptimizer.Base.IntervalReading
import BossOptimizer.Lib.Lists
import Mathlib.Data.List.Dedup

/-!
# The rows of a constraint

What a constraint stands for: the rows it accepts. `WellFormed` is what the constructors of the
source assert and establish. `Regular` excludes the negation of a conjunction or a disjunction on
a single column: its scalar expression is a NOT, and reading it back as an interval loses NULL.
-/

namespace BossOptimizer

open CConstraintInterval (admits admits_bot admits_coe cover cover_of_isConstraintUnbounded)

variable {D : Type} [LinearOrder D]

/-! ## Satisfaction -/

namespace CConstraint

mutual

/-- The rows that satisfy a constraint. -/
def sat : CConstraint D → Row D → Prop
  | .interval pci, row => pci.admits (row pci.pcr)
  | .conjunction l, row => satAll l row
  | .disjunction l, row => satAny l row
  | .negation c, row => ¬ c.sat row

def satAll : List (CConstraint D) → Row D → Prop
  | [], _ => True
  | c :: l, row => c.sat row ∧ satAll l row

def satAny : List (CConstraint D) → Row D → Prop
  | [], _ => False
  | c :: l, row => c.sat row ∨ satAny l row

end

attribute [local simp] sat satAll satAny CConstraint.columns CConstraint.columnsAll
  CConstraint.fContradiction CConstraint.isConstraintUnbounded CConstraint.pexprScalar
  CConstraint.pcnstr in
@[simp] theorem satAll_iff (l : List (CConstraint D)) (row : Row D) :
    satAll l row ↔ ∀ c ∈ l, c.sat row := by
  induction l with
  | nil => simp [satAll]
  | cons c l ih => simp [satAll, ih]

@[simp] theorem satAny_iff (l : List (CConstraint D)) (row : Row D) :
    satAny l row ↔ ∃ c ∈ l, c.sat row := by
  induction l with
  | nil => simp [satAny]
  | cons c l ih => simp [satAny, ih]

/-- A conjunction or a disjunction of a list. -/
def joined {α : Type} (fConj : Bool) (l : List α) (P : α → Prop) : Prop :=
  if fConj then ∀ x ∈ l, P x else ∃ x ∈ l, P x

theorem joined_congr {α : Type} {fConj : Bool} {l : List α} {P Q : α → Prop}
    (h : ∀ x ∈ l, P x ↔ Q x) : joined fConj l P ↔ joined fConj l Q := by
  cases fConj
  · exact ⟨fun ⟨x, hx, hp⟩ => ⟨x, hx, (h x hx).1 hp⟩, fun ⟨x, hx, hq⟩ => ⟨x, hx, (h x hx).2 hq⟩⟩
  · exact ⟨fun hp x hx => (h x hx).1 (hp x hx), fun hq x hx => (h x hx).2 (hq x hx)⟩

theorem joined_mono {α : Type} {fConj : Bool} {l : List α} {P Q : α → Prop}
    (h : ∀ x ∈ l, P x → Q x) (hp : joined fConj l P) : joined fConj l Q := by
  cases fConj
  · obtain ⟨x, hx, hp⟩ := hp
    exact ⟨x, hx, h x hx hp⟩
  · exact fun x hx => h x hx (hp x hx)

theorem joined_of_forall₂ {α β : Type} {R : α → β → Prop} {l : List α} {es : List β}
    (h : List.Forall₂ R l es) (fConj : Bool) {P : α → Prop} {Q : β → Prop}
    (hPQ : ∀ a b, R a b → (P a ↔ Q b)) : joined fConj l P ↔ joined fConj es Q := by
  cases fConj
  · constructor
    · rintro ⟨a, ha, hp⟩
      obtain ⟨b, hb, hR⟩ := exists_of_forall₂_left h ha
      exact ⟨b, hb, (hPQ a b hR).1 hp⟩
    · rintro ⟨b, hb, hq⟩
      obtain ⟨a, ha, hR⟩ := exists_of_forall₂_right h hb
      exact ⟨a, ha, (hPQ a b hR).2 hq⟩
  · constructor
    · intro hp b hb
      obtain ⟨a, ha, hR⟩ := exists_of_forall₂_right h hb
      exact (hPQ a b hR).1 (hp a ha)
    · intro hq a ha
      obtain ⟨b, hb, hR⟩ := exists_of_forall₂_left h ha
      exact (hPQ a b hR).2 (hq b hb)

/-- Every column of the constraint is `colref`. -/
def OnColumn (colref : CColRef) (c : CConstraint D) : Prop := ∀ x ∈ c.columns, x = colref

/-- What the constructors guarantee: intervals are ordered and on columns whose type has ranges,
    no connective is empty, and one on a single column has a single child. -/
inductive WellFormed : CConstraint D → Prop
  | interval {pci : CConstraintInterval (Datum D)} (h : pci.WellFormed)
      (hcol : pci.pcr.fConstrainable = true) : WellFormed (.interval pci)
  | conjunction {l : List (CConstraint D)} (hne : l ≠ []) (h : ∀ c ∈ l, WellFormed c)
      (hone : ∀ colref, (∀ c ∈ l, OnColumn colref c) → l.length = 1) : WellFormed (.conjunction l)
  | disjunction {l : List (CConstraint D)} (hne : l ≠ []) (h : ∀ c ∈ l, WellFormed c)
      (hone : ∀ colref, (∀ c ∈ l, OnColumn colref c) → l.length = 1) : WellFormed (.disjunction l)
  | negation {c : CConstraint D} (h : c.WellFormed) : WellFormed (.negation c)

/-- No conjunction or disjunction on a single column is negated. -/
inductive Regular : CConstraint D → Prop
  | interval (pci : CConstraintInterval (Datum D)) : Regular (.interval pci)
  | conjunction {l : List (CConstraint D)} (h : ∀ c ∈ l, Regular c) : Regular (.conjunction l)
  | disjunction {l : List (CConstraint D)} (h : ∀ c ∈ l, Regular c) : Regular (.disjunction l)
  | notInterval (pci : CConstraintInterval (Datum D)) : Regular (.negation (.interval pci))
  | notNot {c : CConstraint D} (h : c.Regular) : Regular (.negation (.negation c))
  | wide {c : CConstraint D} (h : c.pcrsUsed.length ≠ 1) : Regular (.negation c)

/-- An interval below any number of negations. -/
inductive Literal : CConstraint D → Prop
  | interval (pci : CConstraintInterval (Datum D)) : Literal (.interval pci)
  | negation {c : CConstraint D} (h : c.Literal) : Literal (.negation c)

variable {c : CConstraint D}

omit [LinearOrder D] in
theorem Literal.regular (h : c.Literal) : c.Regular ∧ (CConstraint.negation c).Regular := by
  induction h with
  | interval pci => exact ⟨.interval pci, .notInterval pci⟩
  | negation _ ih => exact ⟨ih.2, .notNot ih.1⟩

/-! ## Columns -/

omit [LinearOrder D] in
theorem mem_columnsAll {x : CColRef} {l : List (CConstraint D)} :
    x ∈ columnsAll l ↔ ∃ c ∈ l, x ∈ c.columns := by
  induction l with
  | nil => simp [columnsAll]
  | cons c l ih => simp [columnsAll, ih]

omit [LinearOrder D] in
theorem mem_pcrsUsed {x : CColRef} : x ∈ c.pcrsUsed ↔ x ∈ c.columns := by
  simp [pcrsUsed, List.mem_insertionSort]

theorem WellFormed.exists_column (h : c.WellFormed) :
    ∃ x, x ∈ c.columns := by
  induction h with
  | @interval pci _ _ => exact ⟨pci.pcr, by simp [columns]⟩
  | @conjunction l hne _ _ ih | @disjunction l hne _ _ ih =>
    obtain ⟨c, hc⟩ := List.exists_mem_of_ne_nil l hne
    obtain ⟨x, hx⟩ := ih c hc
    exact ⟨x, by rw [columns, mem_columnsAll]; exact ⟨c, hc, hx⟩⟩
  | negation _ ih => simpa only [columns] using ih

variable {colref : CColRef}

omit [LinearOrder D] in
theorem pcrsUsed_eq_singleton :
    c.pcrsUsed = [colref] ↔ colref ∈ c.columns ∧ c.OnColumn colref := by
  constructor
  · intro h
    have hmem : ∀ x, x ∈ c.columns ↔ x = colref := fun x => by
      rw [← mem_pcrsUsed, h, List.mem_singleton]
    exact ⟨(hmem colref).2 rfl, fun x hx => (hmem x).1 hx⟩
  · rintro ⟨hmem, hon⟩
    have hdedup : c.columns.dedup = [colref] :=
      eq_singleton_of_nodup c.columns.nodup_dedup (List.mem_dedup.2 hmem) fun x hx =>
        hon x (List.mem_dedup.1 hx)
    rw [pcrsUsed, hdedup]
    rfl

theorem WellFormed.pcrsUsed_eq (h : c.WellFormed)
    (hon : c.OnColumn colref) : c.pcrsUsed = [colref] := by
  obtain ⟨x, hx⟩ := h.exists_column
  exact pcrsUsed_eq_singleton.2 ⟨hon x hx ▸ hx, hon⟩

theorem WellFormed.mem_columns (h : c.WellFormed) (hon : c.OnColumn colref) : colref ∈ c.columns :=
  (pcrsUsed_eq_singleton.1 (h.pcrsUsed_eq hon)).1

theorem WellFormed.fConstrainable (h : c.WellFormed)
    (hcol : colref ∈ c.columns) : colref.fConstrainable = true := by
  induction h with
  | @interval pci _ hc => rw [columns, List.mem_singleton] at hcol; rw [hcol, hc]
  | conjunction _ _ _ ih | disjunction _ _ _ ih =>
    rw [columns, mem_columnsAll] at hcol
    obtain ⟨c, hc, hx⟩ := hcol
    exact ih c hc hx
  | negation _ ih => exact ih hcol

omit [LinearOrder D] in
theorem OnColumn.child {l : List (CConstraint D)}
    (h : ∀ x ∈ columnsAll l, x = colref) (hc : c ∈ l) : c.OnColumn colref :=
  fun x hx => h x (mem_columnsAll.2 ⟨c, hc, hx⟩)

/-! ## Contradictions and unbounded constraints -/

omit [LinearOrder D] in
@[simp] theorem fContradictionAny_iff (l : List (CConstraint D)) :
    fContradictionAny l = true ↔ ∃ c ∈ l, c.fContradiction = true := by
  induction l with
  | nil => simp [fContradictionAny]
  | cons c l ih => simp [fContradictionAny, ih]

omit [LinearOrder D] in
@[simp] theorem fContradictionAll_iff (l : List (CConstraint D)) :
    fContradictionAll l = true ↔ ∀ c ∈ l, c.fContradiction = true := by
  induction l with
  | nil => simp [fContradictionAll]
  | cons c l ih => simp [fContradictionAll, ih]

end CConstraint

namespace CConstraintInterval

theorem not_admits_of_fContradiction {pci : CConstraintInterval (Datum D)}
    (h : pci.fContradiction = true) (v : Datum D) : ¬ pci.admits v := by
  obtain ⟨col, rs, n⟩ := pci
  simp only [fContradiction, Bool.and_eq_true, Bool.not_eq_true', decide_eq_true_eq,
    List.length_eq_zero_iff] at h
  obtain ⟨rfl, rfl⟩ := h
  cases v using WithBot.recBotCoe <;> simp [admits_bot, admits_coe]

theorem admits_of_isConstraintUnbounded {pci : CConstraintInterval (Datum D)}
    (h : pci.isConstraintUnbounded = true) (v : Datum D) : pci.admits v := by
  obtain ⟨hnull, hcov⟩ := cover_of_isConstraintUnbounded h
  cases v using WithBot.recBotCoe with
  | bot => rwa [admits_bot]
  | coe v =>
    rw [admits_coe]
    change Cut.before (v : Datum D) ∈ cover pci.pdrgprng
    rw [hcov]
    exact Cut.side_lt_top _ _

end CConstraintInterval

namespace CConstraint

/-- Contradictions accept no row and unbounded constraints every row. -/
theorem sat_of_flags (c : CConstraint D) (row : Row D) :
    (c.fContradiction = true → ¬ c.sat row) ∧ (c.isConstraintUnbounded = true → c.sat row) := by
  induction c using CConstraint.induction with
  | interval pci =>
    exact ⟨fun h => CConstraintInterval.not_admits_of_fContradiction h _,
      fun h => CConstraintInterval.admits_of_isConstraintUnbounded h _⟩
  | conjunction l ih =>
    refine ⟨fun h => ?_, fun h => by cases h⟩
    obtain ⟨c, hc, hcon⟩ := (fContradictionAny_iff l).1 h
    rw [sat, satAll_iff]
    exact fun hall => (ih c hc).1 hcon (hall c hc)
  | disjunction l ih =>
    refine ⟨fun h => ?_, fun h => by cases h⟩
    rw [sat, satAny_iff]
    rintro ⟨c, hc, hsat⟩
    exact (ih c hc).1 ((fContradictionAll_iff l).1 h c hc) hsat
  | negation c ih =>
    exact ⟨fun h hsat => hsat (ih.2 h), fun h => ih.1 h⟩

/-- Satisfaction looks at the columns of the constraint only. -/
theorem sat_congr (c : CConstraint D) {row row' : Row D} (h : ∀ x ∈ c.columns, row x = row' x) :
    c.sat row ↔ c.sat row' := by
  induction c using CConstraint.induction with
  | interval pci => rw [sat, sat, h pci.pcr (by simp [columns])]
  | conjunction l ih =>
    have key : ∀ c ∈ l, (c.sat row ↔ c.sat row') := fun c hc =>
      ih c hc fun x hx => h x (mem_columnsAll.2 ⟨c, hc, hx⟩)
    simpa [sat] using forall₂_congr key
  | disjunction l ih =>
    have key : ∀ c ∈ l, (c.sat row ↔ c.sat row') := fun c hc =>
      ih c hc fun x hx => h x (mem_columnsAll.2 ⟨c, hc, hx⟩)
    simp only [sat, satAny_iff]
    exact exists_congr fun c => and_congr_right fun hc => key c hc
  | negation c ih => exact not_congr (ih h)

end CConstraint

end BossOptimizer

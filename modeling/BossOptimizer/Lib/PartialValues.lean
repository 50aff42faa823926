import Mathlib.Order.WithBot

/-!
# Partial values and their orders

A finite map is read as a function to values with a bottom for keys that are missing. Pointwise
`≤` compares the values of the left side and asks nothing of keys that only the right side has;
`Part` says that the right side has every entry of the left side as it is. The two together give a
strict comparison, that is transitive although it is not the strict part of `≤`.
-/

namespace BossOptimizer

variable {K V : Type*} [LinearOrder V]

/-- Every entry of `f` is an entry of `g`. -/
def Part (f g : K → WithBot V) : Prop := ∀ k, f k = ⊥ ∨ f k = g k

/-- Every entry of `f` has an entry in `g` that is no smaller, one a larger one. -/
def Below (f g : K → WithBot V) : Prop := f ≤ g ∧ ¬Part f g

variable {f g h : K → WithBot V}

omit [LinearOrder V] in
theorem Part.refl (f : K → WithBot V) : Part f f := fun _ => .inr rfl

omit [LinearOrder V] in
theorem Part.trans (hfg : Part f g) (hgh : Part g h) : Part f h := by
  intro k
  rcases hfg k with hf | hf
  · exact .inl hf
  · rcases hgh k with hg | hg
    · exact .inl (hf.trans hg)
    · exact .inr (hf.trans hg)

omit [LinearOrder V] in
theorem Part.antisymm (hfg : Part f g) (hgf : Part g f) : f = g := by
  funext k
  rcases hfg k with hf | hf
  · rcases hgf k with hg | hg
    · rw [hf, hg]
    · exact hg.symm
  · exact hf

theorem Part.le (hfg : Part f g) : f ≤ g := by
  intro k
  rcases hfg k with hf | hf
  · exact hf ▸ bot_le
  · exact hf.le

/-- `≤` splits into the strict comparison and `Part`. -/
theorem le_iff_below_or_part : f ≤ g ↔ Below f g ∨ Part f g := by
  refine ⟨fun hle => ?_, fun hor => hor.elim And.left Part.le⟩
  by_cases hpart : Part f g
  · exact .inr hpart
  · exact .inl ⟨hle, hpart⟩

theorem Below.irrefl (f : K → WithBot V) : ¬Below f f := fun hff => hff.2 (Part.refl f)

theorem Below.asymm (hfg : Below f g) : ¬Below g f := by
  intro hgf
  have heq : f = g := le_antisymm hfg.1 hgf.1
  exact hfg.2 (heq ▸ Part.refl f)

theorem Below.trans (hfg : Below f g) (hgh : Below g h) : Below f h := by
  refine ⟨hfg.1.trans hgh.1, fun hpart => hfg.2 fun k => ?_⟩
  rcases hpart k with hf | hf
  · exact .inl hf
  · exact .inr (le_antisymm (hfg.1 k) (hf ▸ hgh.1 k))

/-- A strict comparison has a key that shows it. -/
theorem below_iff : Below f g ↔ f ≤ g ∧ ∃ k, f k ≠ ⊥ ∧ f k < g k := by
  refine and_congr_right fun hle => ?_
  simp only [Part, not_forall, not_or]
  exact exists_congr fun k => and_congr_right fun _ => ⟨(hle k).lt_of_ne, ne_of_lt⟩

omit [LinearOrder V] in
/-- `Part` is symmetric between two functions unless it is proper. -/
theorem part_comm_iff : (Part f g ↔ Part g f) ↔
    ¬(Part f g ∧ f ≠ g) ∧ ¬(Part g f ∧ g ≠ f) := by
  constructor
  · intro hiff
    exact ⟨fun ⟨hfg, hne⟩ => hne (hfg.antisymm (hiff.1 hfg)),
      fun ⟨hgf, hne⟩ => hne (hgf.antisymm (hiff.2 hgf))⟩
  · rintro ⟨hfg, hgf⟩
    constructor
    · intro hpart
      obtain rfl : f = g := by_contra fun hne => hfg ⟨hpart, hne⟩
      exact hpart
    · intro hpart
      obtain rfl : g = f := by_contra fun hne => hgf ⟨hpart, hne⟩
      exact hpart

end BossOptimizer

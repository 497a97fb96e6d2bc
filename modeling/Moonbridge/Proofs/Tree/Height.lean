import Moonbridge.Tree.Outline

/-!
# What the search for a deep node finds

The search finds nothing exactly when no visited outline reaches beyond the limit. What it
finds is a token of a visited outline, or the token that stood near a visit.
-/

namespace Moonbridge.Outline

mutual

/-- The tokens at the nodes of an outline. -/
def marks : Outline → List Token
  | node mark children => mark.toList ++ allMarks children

/-- The tokens at the nodes of several outlines. -/
def allMarks : List Outline → List Token
  | [] => []
  | o :: os => o.marks ++ allMarks os

end

/-- Every outline has a level. -/
theorem height_pos (o : Outline) : 1 ≤ o.height := by
  obtain ⟨mark, children⟩ := o
  simp only [height]
  omega

/-- The greatest height of several outlines bounds each of them. -/
theorem maxHeight_le_iff {os : List Outline} {n : Nat} :
    maxHeight os ≤ n ↔ ∀ o ∈ os, o.height ≤ n := by
  induction os with
  | nil => simp [maxHeight]
  | cons o os ih => rw [maxHeight, Nat.max_le, ih, List.forall_mem_cons]

/-- The marks of several outlines are those of each of them. -/
theorem mem_allMarks {os : List Outline} {t : Token} :
    t ∈ allMarks os ↔ ∃ o ∈ os, t ∈ o.marks := by
  induction os with
  | nil => simp [allMarks]
  | cons o os ih => simp [allMarks, ih]

/-- A visit stays within a limit when everything it gives rise to does. -/
theorem below_within {v : Visit} {limit : Nat} :
    (v.level ≤ limit ∧ ∀ w ∈ v.below, w.level + w.outline.height ≤ limit + 1) ↔
      v.level + v.outline.height ≤ limit + 1 := by
  obtain ⟨⟨mark, inner⟩, level, near⟩ := v
  have hpos : ∀ o ∈ inner, 1 ≤ o.height := fun o _ => o.height_pos
  simp only [Visit.below, children, height, List.mem_map, List.mem_reverse, forall_exists_index,
    and_imp, forall_apply_eq_imp_iff₂]
  constructor
  · rintro ⟨hlevel, hinner⟩
    have hmax : maxHeight inner ≤ limit - level :=
      maxHeight_le_iff.mpr fun o ho => by have := hinner o ho; omega
    omega
  · intro h
    refine ⟨by omega, fun o ho => ?_⟩
    have := maxHeight_le_iff.mp (Nat.le_refl (maxHeight inner)) o ho
    omega

/-- The search finds nothing exactly when every visited outline stays within the limit. -/
theorem firstBeyond_eq_none_iff (limit : Nat) (visits : List Visit) :
    firstBeyond limit visits = none ↔ ∀ v ∈ visits, v.level + v.outline.height ≤ limit + 1 := by
  induction visits using firstBeyond.induct limit with
  | case1 => simp [firstBeyond]
  | case2 v pending hbeyond =>
    have := v.outline.height_pos
    rw [firstBeyond, if_pos hbeyond]
    simp only [reduceCtorEq, List.mem_cons, forall_eq_or_imp, false_iff, not_and]
    omega
  | case3 v pending hwithin ih =>
    rw [firstBeyond, if_neg hwithin, ih]
    have hlevel : v.level ≤ limit := by omega
    simp only [List.mem_append, List.mem_cons, or_imp, forall_and, forall_eq]
    rw [← below_within]
    simp only [hlevel, true_and]

/-- What a visit gives rise to has no other tokens. -/
theorem marks_of_below {v w : Visit} (h : w ∈ v.below) {t : Token}
    (ht : t = w.near ∨ t ∈ w.outline.marks) : t = v.near ∨ t ∈ v.outline.marks := by
  obtain ⟨⟨mark, inner⟩, level, near⟩ := v
  simp only [Visit.below, children, List.mem_map, List.mem_reverse] at h
  obtain ⟨o, ho, rfl⟩ := h
  rcases ht with rfl | ht
  · cases mark with
    | none => exact Or.inl rfl
    | some u => exact Or.inr (by simp [Visit.blamed, Outline.mark, marks])
  · exact Or.inr (by
      simp only [marks, List.mem_append]
      exact Or.inr (mem_allMarks.mpr ⟨o, ho, ht⟩))

/-- What the search finds is a token of a visited outline or one near a visit. -/
theorem firstBeyond_mem {limit : Nat} {visits : List Visit} {t : Token}
    (h : firstBeyond limit visits = some t) :
    ∃ v ∈ visits, t = v.near ∨ t ∈ v.outline.marks := by
  induction visits using firstBeyond.induct limit with
  | case1 => simp [firstBeyond] at h
  | case2 v pending hbeyond =>
    rw [firstBeyond, if_pos hbeyond] at h
    obtain rfl := Option.some.inj h
    refine ⟨v, List.mem_cons_self, ?_⟩
    obtain ⟨⟨mark, inner⟩, level, near⟩ := v
    cases mark with
    | none => exact Or.inl rfl
    | some u => exact Or.inr (by simp [Visit.blamed, Outline.mark, marks])
  | case3 v pending hwithin ih =>
    rw [firstBeyond, if_neg hwithin] at h
    obtain ⟨w, hw, ht⟩ := ih h
    rcases List.mem_append.mp hw with hw | hw
    · exact ⟨v, List.mem_cons_self, marks_of_below hw ht⟩
    · exact ⟨w, List.mem_cons_of_mem _ hw, ht⟩

end Moonbridge.Outline

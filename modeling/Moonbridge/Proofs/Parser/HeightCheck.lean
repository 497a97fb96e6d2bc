import Moonbridge.Proofs.Parser.Correctness
import Moonbridge.Proofs.Tree.Lineage

/-!
# The check of a declaration's height

A declaration is checked against the limit by the search for a node that stands too deep. The check
needs a token before the cursor, on which a node is blamed if no node of its lineage has a token. It
records one error if the tree is taller than the limit, and leaves the state as it is otherwise.
-/

namespace Moonbridge.Parser

open TreeNode (Lineage nearest)

section Previous

variable {s : State}

/-- The token before the cursor, or the last token if the cursor is at the start. -/
theorem run_previous (s : State) : previous.run s =
    match s.before.head?.or s.after.getLast? with
    | some t => .ok t s
    | none => .error .exhausted s := by
  obtain ⟨before, after, depth, errors⟩ := s
  cases before with
  | cons t before => rfl
  | nil =>
    have hlast : (after.reverse ++ [])[0]? = after.getLast? := by
      rw [List.append_nil, ← List.head?_eq_getElem?, List.head?_reverse]
    change EStateM.run (match (after.reverse ++ [])[0]? with
      | some t => pure t
      | none => throw Failure.exhausted) (⟨[], after, depth, errors⟩ : State) = _
    rw [hlast]
    cases after.getLast? <;> rfl

/-- In a list without tokens there is none in front of the cursor. -/
theorem previous_of_empty (h : s.tokens = []) : previous.run s = .error .exhausted s := by
  obtain ⟨hbefore, hafter⟩ := List.append_eq_nil_iff.mp h
  rw [run_previous, List.reverse_eq_nil_iff.mp hbefore, hafter]
  rfl

/-- Only an empty token list has no token before the cursor. -/
theorem exists_previous (h : s.tokens ≠ []) : ∃ t, previous.run s = .ok t s := by
  cases hbefore : s.before with
  | cons t before => exact ⟨t, previous_cons hbefore⟩
  | nil =>
    have hafter : s.after ≠ [] := by simpa [State.tokens, hbefore] using h
    refine ⟨s.after.getLast hafter, ?_⟩
    rw [run_previous, hbefore, List.getLast?_eq_some_getLast hafter]
    rfl

end Previous

section Height

variable {stmt : Stmt} {last : Token} {s : State}

/-- No error is recorded exactly if the recursive height is within the limit. -/
theorem heightErrors_eq_nil_iff_height :
    heightErrors stmt last = [] ↔ (TreeNode.statement stmt).height ≤ maxHeight := by
  rw [← TreeNode.height_outline]
  exact heightErrors_eq_nil_iff stmt last

/-- The error of a tree that is too tall is located at the nearest token of the lineage of a node at
the first level beyond the limit. -/
theorem heightErrors_of_tall (last : Token) (h : maxHeight < (TreeNode.statement stmt).height) :
    ∃ lineage, Lineage (.statement stmt) lineage ∧ lineage.length = maxHeight + 1 ∧
      heightErrors stmt last = [⟨.tooDeep "expression", nearest lineage last⟩] := by
  have hne : heightErrors stmt last ≠ [] := by
    rw [Ne, heightErrors_eq_nil_iff_height]
    omega
  unfold heightErrors at hne ⊢
  cases hsearch : Outline.firstBeyond maxHeight [⟨stmt.outline, 1, last⟩] with
  | none => simp [hsearch] at hne
  | some t =>
    have htop : Outline.Stands (.statement stmt) last ⟨stmt.outline, 1, last⟩ :=
      ⟨.statement stmt, [], .top, rfl⟩
    obtain ⟨lineage, hlineage, hlength, rfl⟩ := Outline.firstBeyond_nearest hsearch
      (List.forall_mem_singleton.mpr htop)
      (List.forall_mem_singleton.mpr (Nat.succ_le_succ (Nat.zero_le maxHeight)))
    exact ⟨lineage, hlineage, hlength, rfl⟩

/-- What the check of a declaration's height does in a state whose token before the cursor is
`last`. -/
structure HeightChecked (stmt : Stmt) (last : Token) (s : State) : Prop where
  /-- The search ends after at most as many rounds as the tree has nodes. -/
  ends : ∃ found, Outline.firstBeyondWithin maxHeight stmt.outline.size
    [⟨stmt.outline, 1, last⟩] = some found
  low : (TreeNode.statement stmt).height ≤ maxHeight → (checkHeight stmt).run s = .ok () s
  /-- One error is recorded, and nothing else changes. -/
  tall : maxHeight < (TreeNode.statement stmt).height → ∃ (lineage : List TreeNode)
    (e : ParseError), Lineage (.statement stmt) lineage ∧ lineage.length = maxHeight + 1 ∧
      e.token = nearest lineage last ∧ e.reason = "expression nested too deeply" ∧
      (checkHeight stmt).run s = .ok () { s with errors := s.errors.push e }

/-- The check of a declaration's height ends, and records one error exactly if the tree is taller
than the limit: it is located at the nearest token of the lineage of a node at the first level
beyond the limit, or at the token before the cursor. The check fails only where no token stands
before the cursor, because there are no tokens at all. -/
theorem height_checked (stmt : Stmt) (s : State) :
    (∃ last, previous.run s = .ok last s ∧ HeightChecked stmt last s) ∨
      s.tokens = [] ∧ (checkHeight stmt).run s = .error .exhausted s := by
  by_cases htokens : s.tokens = []
  · refine .inr ⟨htokens, ?_⟩
    unfold checkHeight
    rw [EStateM.run_bind, previous_of_empty htokens]
  · obtain ⟨last, hlast⟩ := exists_previous htokens
    have hrun := run_checkHeight_of_previous hlast stmt
    refine .inl ⟨last, hlast, ?_, fun hlow => ?_, fun htall => ?_⟩
    · exact ⟨_, Outline.firstBeyondWithin_eq (by simp [Outline.totalSize])⟩
    · rw [hrun, heightErrors_eq_nil_iff_height.mpr hlow, State.pass_nil]
    · obtain ⟨lineage, hlineage, hlength, herrors⟩ := heightErrors_of_tall last htall
      refine ⟨lineage, ⟨.tooDeep "expression", nearest lineage last⟩, hlineage, hlength, rfl, rfl,
        ?_⟩
      rw [hrun, herrors]
      simp [State.pass]

end Height

end Moonbridge.Parser

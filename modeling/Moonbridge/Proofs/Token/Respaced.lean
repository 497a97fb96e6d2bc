import Mathlib.Data.List.Forall2
import Moonbridge.Proofs.Token.Stream

/-!
# Sources that differ in gaps only

Two sources differ in gaps only if they consist of the same lexemes with gaps around them, up to
their ends or up to a character at which no lexeme starts. The lexer reads them alike: the tokens
are the same up to their lines, or the same fault is found.
-/

namespace Moonbridge

/-- Tokens that are the same up to their lines. -/
structure Token.Alike (t u : Token) : Prop where
  kind : t.kind = u.kind
  lexeme : t.lexeme = u.lexeme
  literal : t.literal = u.literal

namespace Lexer

/-- A character that belongs to no gap and no lexeme. -/
structure Faulty (c : Char) (rest : List Char) : Prop where
  noBlank : c ∉ [' ', '\t', '\r', '\n']
  noLexeme : ∀ {text : List Char} {kind : Kind} {value : Literal}, Lexeme text kind value →
    ¬ text <+: c :: rest

/-- Two sources that differ in the gaps between their lexemes only. Behind a character where no
lexeme starts there are no lexemes, so that all may differ there. -/
inductive Respaced : (input input' : List Char) → Prop
  | ended {gap gap' : List Char} (isGap : Gap [] gap) (isGap' : Gap [] gap') : Respaced gap gap'
  | token {gap gap' text rest rest' : List Char} {kind : Kind} {value : Literal}
      (isGap : Gap (text ++ rest) gap) (isGap' : Gap (text ++ rest') gap')
      (stands : Stands text rest kind value) (stands' : Stands text rest' kind value)
      (tail : Respaced rest rest') : Respaced (gap ++ (text ++ rest)) (gap' ++ (text ++ rest'))
  | fault {gap gap' rest rest' : List Char} {c : Char} (isGap : Gap (c :: rest) gap)
      (isGap' : Gap (c :: rest') gap') (faulty : Faulty c rest) (faulty' : Faulty c rest') :
      Respaced (gap ++ c :: rest) (gap' ++ c :: rest')

/-- Outcomes of the lexer that are the same up to lines. -/
inductive SameReading : (outcome outcome' : Except LexError (List Token)) → Prop
  | read {tokens tokens' : List Token} (alike : List.Forall₂ Token.Alike tokens tokens') :
      SameReading (.ok tokens) (.ok tokens')
  | fault (problem : Problem) (line line' : Nat) :
      SameReading (.error ⟨problem, line⟩) (.error ⟨problem, line'⟩)

variable {input input' gap gap' text rest : List Char} {c : Char}

section Gaps

/-- A gap behind a gap is a gap. -/
theorem Gap.append (h : Gap (gap' ++ rest) gap) (h' : Gap rest gap') :
    Gap rest (gap ++ gap') := by
  induction h with
  | none => exact h'
  | blank isBlank tail ih => exact .blank isBlank ih
  | @comment text gap oneLine ends tail ih =>
    rw [List.append_assoc]
    exact .comment oneLine (by simpa using ends) ih

/-- A blank is a gap. -/
theorem gap_of_isBlank (h : isBlank c = true) (rest : List Char) : Gap rest [c] := by
  simp only [isBlank, Bool.or_eq_true, beq_iff_eq] at h
  exact .blank (by rcases h with (rfl | rfl) | rfl <;> decide) .none

/-- A comment is a gap up to the end of its line. -/
theorem gap_comment (rest : List Char) : Gap (rest.dropWhile (· != '\n'))
    ('-' :: '-' :: rest.takeWhile (· != '\n')) := by
  have hnone : Gap (rest.dropWhile (· != '\n')) [] := .none
  simpa using hnone.comment (oneLine_takeWhile rest) (ends_dropWhile rest)

/-- A gap may be put in front of either source. -/
theorem Respaced.gap_left (h : Respaced input input') (hgap : Gap input gap) :
    Respaced (gap ++ input) input' := by
  cases h with
  | ended isGap isGap' =>
    exact .ended (Gap.append (by simpa using hgap) isGap) isGap'
  | token isGap isGap' stands stands' tail =>
    rw [← List.append_assoc]
    exact .token (hgap.append isGap) isGap' stands stands' tail
  | fault isGap isGap' faulty faulty' =>
    rw [← List.append_assoc]
    exact .fault (hgap.append isGap) isGap' faulty faulty'

/-- The gaps of two sources may be exchanged. -/
theorem Respaced.symm (h : Respaced input input') : Respaced input' input := by
  induction h with
  | ended isGap isGap' => exact .ended isGap' isGap
  | token isGap isGap' stands stands' tail ih => exact .token isGap' isGap stands' stands ih
  | fault isGap isGap' faulty faulty' => exact .fault isGap' isGap faulty' faulty

/-- Sources with the same lexemes differ in gaps only. -/
theorem respaced_of_decomposes {before before' : List Char} {tokens tokens' : List Token}
    (h : Decomposes before input tokens) (h' : Decomposes before' input' tokens')
    (halike : List.Forall₂ Token.Alike tokens tokens') : Respaced input input' := by
  induction h generalizing before' input' tokens' with
  | ended isGap =>
    cases halike
    cases h' with
    | ended isGap' => exact .ended isGap isGap'
  | token isGap stands tail ih =>
    cases halike with
    | cons first others =>
      cases h' with
      | token isGap' stands' tail' =>
        obtain ⟨rfl, hlexeme, rfl⟩ := first
        obtain rfl := String.ofList_inj.mp hlexeme
        exact .token isGap isGap' stands stands' (ih tail' others)

end Gaps

section Faults

/-- The lexer says what is wrong where no lexeme can be cut off. -/
theorem cut_problem {problem : Problem} (h : cut c rest = .error problem) :
    problem = if c = '"' then .unterminatedString else .unexpected c := by
  unfold cut at h
  split at h
  · rename_i hc
    rw [if_pos hc]
    unfold cutString at h
    split at h <;> cases h
    rfl
  · rename_i hc
    rw [if_neg hc]
    split at h
    · cases h
    · split at h
      · cases h
      · split at h
        · unfold cutExtensible at h
          split at h <;> cases h
          rfl
        · split at h <;> cases h
          rfl

/-- At a character that belongs to no lexeme nothing is cut off. -/
theorem Faulty.cut_eq (h : Faulty c rest) :
    cut c rest = .error (if c = '"' then .unterminatedString else .unexpected c) := by
  cases hcut : cut c rest with
  | error problem => rw [cut_problem hcut]
  | ok t => exact absurd ⟨t.rest, cut_text hcut⟩ (h.noLexeme (lexeme_of_cut hcut))

/-- Where nothing is cut off there is no lexeme. -/
theorem faulty_of_cut {problem : Problem} (hc : c ∉ [' ', '\t', '\r', '\n'])
    (h : cut c rest = .error problem) : Faulty c rest where
  noBlank := hc
  noLexeme := by
    rintro text kind value hlexeme ⟨more, hmore⟩
    obtain ⟨c', rest', heq, t, hcut, -⟩ := hlexeme.covers more
    obtain ⟨rfl, rfl⟩ := List.cons.inj (hmore.symm.trans heq)
    cases h.symm.trans hcut

/-- What is neither a blank nor ends a line stands in no gap. -/
theorem notMem_blanks (hline : c ≠ '\n') (hblank : isBlank c = false) :
    c ∉ [' ', '\t', '\r', '\n'] := by
  simp only [isBlank, Bool.or_eq_false_iff, beq_eq_false_iff_ne] at hblank
  simp [hline, hblank]

/-- The lexer stops at a character that belongs to no lexeme. -/
theorem Faulty.scan_eq (h : Faulty c rest) (line : Nat) (done : List Token) :
    scan line (c :: rest) done =
      .error ⟨if c = '"' then .unterminatedString else .unexpected c, line⟩ := by
  have hline : c ≠ '\n' := fun hc => h.noBlank (by simp [hc])
  have hblank : ¬ isBlank c = true := by
    simp only [isBlank, Bool.or_eq_true, beq_iff_eq]
    exact fun hc => h.noBlank (by rcases hc with (hc | hc) | hc <;> simp [hc])
  have hcomment : ¬ (c = '-' ∧ rest.head? = some '-') := by
    rintro ⟨rfl, -⟩
    have hminus : Lexeme ['-'] .minus .nil := .symbol (by decide)
    exact h.noLexeme hminus ⟨rest, rfl⟩
  rw [scan, if_neg hline, if_neg hblank, if_neg hcomment]
  split
  · rename_i problem hproblem
    rw [Except.error.inj (hproblem.symm.trans h.cut_eq)]
  · rename_i t ht
    cases ht.symm.trans h.cut_eq

/-- Every source is a respacing of itself. -/
theorem Respaced.refl (input : List Char) : Respaced input input := by
  -- The recursion of the lexer cuts the source into gaps, lexemes and a fault.
  fun_induction scan 1 input [] with
  | case1 line done => exact .ended .none .none
  | case2 line done rest ih =>
    have hgap : Gap rest ['\n'] := .blank (by decide) .none
    exact (ih.gap_left hgap).symm.gap_left hgap
  | case3 line done c rest hc hblank ih =>
    have hgap := gap_of_isBlank hblank rest
    exact (ih.gap_left hgap).symm.gap_left hgap
  | case4 line done c rest hc hblank hcomment ih =>
    obtain ⟨rfl, hhead⟩ := hcomment
    obtain ⟨rest, rfl⟩ := List.head?_eq_some_iff.mp hhead
    have hgap := gap_comment rest
    have hrespaced := (ih.gap_left hgap).symm.gap_left hgap
    simpa using hrespaced
  | case5 line done c rest hc hblank hcomment problem hcut =>
    have hfaulty := faulty_of_cut (notMem_blanks hc (by simpa using hblank)) hcut
    exact .fault .none .none hfaulty hfaulty
  | case6 line done c rest hc hblank hcomment t hcut ih =>
    have hstands := stands_of_cut hcut hcomment
    have hrespaced := Respaced.token .none .none hstands hstands ih
    simpa [cut_text hcut] using hrespaced

end Faults

/-- The lexer reads sources alike that differ in gaps only. -/
theorem Respaced.sameReading (h : Respaced input input') (before before' : List Char)
    {done done' : List Token} (hdone : List.Forall₂ Token.Alike done done') :
    SameReading (scan (lineAfter before) input done) (scan (lineAfter before') input' done') := by
  induction h generalizing before before' done done' with
  | @ended gap gap' isGap isGap' =>
    have hend := isGap.scan_eq before done
    have hend' := isGap'.scan_eq before' done'
    rw [List.append_nil] at hend hend'
    rw [hend, hend', scan, scan]
    exact .read (List.rel_reverse (.cons ⟨rfl, rfl, rfl⟩ hdone))
  | @token gap gap' text rest rest' kind value isGap isGap' stands stands' tail ih =>
    rw [isGap.scan_eq, isGap'.scan_eq, stands.scan_eq, stands'.scan_eq, ← lineAfter_append,
      ← lineAfter_append]
    exact ih _ _ (.cons ⟨rfl, rfl, rfl⟩ hdone)
  | fault isGap isGap' faulty faulty' =>
    rw [isGap.scan_eq, isGap'.scan_eq, faulty.scan_eq, faulty'.scan_eq]
    exact .fault _ _ _

end Lexer

/-- Sources that differ in gaps only have the same tokens up to lines, or the same fault. -/
theorem tokenize_respaced {source source' : String}
    (h : Lexer.Respaced source.toList source'.toList) :
    Lexer.SameReading (tokenize source) (tokenize source') :=
  h.sameReading [] [] .nil

/-- Sources whose tokens are the same up to lines differ in gaps only. -/
theorem respaced_of_tokenize {source source' : String} {tokens tokens' : List Token}
    (h : tokenize source = .ok tokens) (h' : tokenize source' = .ok tokens')
    (halike : List.Forall₂ Token.Alike tokens tokens') :
    Lexer.Respaced source.toList source'.toList := by
  obtain ⟨inner, rfl, -, hinner⟩ := exists_inner_of_tokenize h
  obtain ⟨inner', rfl, -, hinner'⟩ := exists_inner_of_tokenize h'
  have hlength := halike.length_eq
  simp only [List.length_append, List.length_singleton, Nat.add_right_cancel_iff] at hlength
  have hinits := List.forall₂_take inner.length halike
  rw [List.take_left, hlength, List.take_left] at hinits
  exact Lexer.respaced_of_decomposes hinner hinner' hinits

end Moonbridge

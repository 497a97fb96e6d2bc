import Moonbridge.Proofs.Token.Lexeme

/-!
# The tokens of a source

A source is a sequence of lexemes with gaps around them. A gap consists of blanks, line breaks and
comments, and each lexeme is the longest one at its place. The lexer returns a list of tokens
exactly where the source decomposes in this way, and the list is that of the lexemes, each on the
line of its first character, with a mark for the end of the source behind them.
-/

namespace Moonbridge

namespace Lexer

/-- The line of a place behind a given text. -/
def lineAfter (before : List Char) : Nat := 1 + before.count '\n'

/-- The texts between the tokens of a source that goes on as given. -/
inductive Gap (rest : List Char) : List Char → Prop
  | none : Gap rest []
  | blank {c : Char} {gap : List Char} (isBlank : c ∈ [' ', '\t', '\r', '\n'])
      (tail : Gap rest gap) : Gap rest (c :: gap)
  | comment {text gap : List Char} (oneLine : '\n' ∉ text)
      (ends : ∀ c ∈ (gap ++ rest).head?, c = '\n') (tail : Gap rest gap) :
      Gap rest ('-' :: '-' :: text ++ gap)

/-- A lexeme that is the longest one at its place and no part of a comment. -/
structure Stands (text rest : List Char) (kind : Kind) (value : Literal) : Prop where
  lexeme : Lexeme text kind value
  longest : ∀ {text' : List Char} {kind' : Kind} {value' : Literal}, Lexeme text' kind' value' →
    text' <+: text ++ rest → text'.length ≤ text.length
  noComment : kind = .minus → ¬ ['-', '-'] <+: text ++ rest

/-- A source that goes on behind a given text, as a sequence of lexemes with gaps around them, and
the tokens of the lexemes. -/
inductive Decomposes : (before input : List Char) → List Token → Prop
  | ended {before gap : List Char} (isGap : Gap [] gap) : Decomposes before gap []
  | token {before gap text rest : List Char} {kind : Kind} {value : Literal} {tokens : List Token}
      (isGap : Gap (text ++ rest) gap) (stands : Stands text rest kind value)
      (tail : Decomposes (before ++ gap ++ text) rest tokens) :
      Decomposes before (gap ++ (text ++ rest))
        (⟨kind, String.ofList text, value, lineAfter (before ++ gap)⟩ :: tokens)

/-- The mark of the end of a source. -/
def endMark (source : List Char) : Token := ⟨.endOfInput, "", .nil, lineAfter source⟩

variable {before input gap text rest : List Char} {kind : Kind} {value : Literal}
  {tokens done : List Token} {c : Char} {t : Cut}

/-- Each line feed of a text counts for the line behind it. -/
theorem lineAfter_append (before text : List Char) :
    lineAfter (before ++ text) = lineAfter before + text.count '\n' := by
  simp only [lineAfter, List.count_append]
  omega

/-- The rest of a line has no line break. -/
theorem oneLine_takeWhile (rest : List Char) : '\n' ∉ rest.takeWhile (· != '\n') := by
  intro hmem
  have := List.all_eq_true.mp List.all_takeWhile _ hmem
  simp at this

/-- Behind the rest of a line stands a line break. -/
theorem ends_dropWhile (rest : List Char) :
    ∀ c ∈ (rest.dropWhile (· != '\n')).head?, c = '\n' := by
  intro c hc
  have hnot := List.head?_dropWhile_not (· != '\n') rest
  rw [Option.mem_def.mp hc] at hnot
  simpa using hnot

section Decomposition

/-- A blank in front of a text belongs to the gap. -/
theorem Decomposes.blank (hc : c ∈ [' ', '\t', '\r', '\n'])
    (h : Decomposes (before ++ [c]) input tokens) : Decomposes before (c :: input) tokens := by
  cases h with
  | ended isGap => exact .ended (.blank hc isGap)
  | @token _ gap text rest kind value tokens isGap stands tail =>
    have hdecomposes : Decomposes before (c :: gap ++ (text ++ rest)) _ :=
      .token (.blank hc isGap) stands (by simpa using tail)
    simpa using hdecomposes

/-- A comment in front of a text belongs to the gap up to the end of its line. -/
theorem Decomposes.comment (hline : '\n' ∉ text) (hends : ∀ c ∈ input.head?, c = '\n')
    (h : Decomposes (before ++ '-' :: '-' :: text) input tokens) :
    Decomposes before ('-' :: '-' :: text ++ input) tokens := by
  cases h with
  | ended isGap => exact .ended (.comment hline (by simpa using hends) isGap)
  | @token _ gap text' rest kind value tokens isGap stands tail =>
    have hdecomposes : Decomposes before ('-' :: '-' :: text ++ gap ++ (text' ++ rest)) _ :=
      .token (.comment hline hends isGap) stands (by simpa using tail)
    simpa using hdecomposes

/-- What is cut off where no comment starts stands there. -/
theorem stands_of_cut (h : cut c rest = .ok t) (hcomment : ¬ (c = '-' ∧ rest.head? = some '-')) :
    Stands t.text t.rest t.kind (literal t.kind t.text) where
  lexeme := lexeme_of_cut h
  longest := by
    intro text' kind' value' hlexeme hstands
    rw [cut_text h] at hstands
    exact cut_longest h hlexeme hstands
  noComment := by
    rintro - ⟨more, hmore⟩
    rw [cut_text h] at hmore
    obtain ⟨rfl, rfl⟩ := List.cons.inj hmore
    exact hcomment ⟨rfl, rfl⟩

/-- No lexeme stands where a gap goes on. -/
theorem Stands.not_gap (h : Stands text rest kind value) {input : List Char}
    (hinput : text ++ rest = c :: input) :
    c ≠ '\n' ∧ isBlank c = false ∧ ¬ (c = '-' ∧ input.head? = some '-') := by
  obtain ⟨hcut, -⟩ := h.lexeme.cut_eq hinput h.longest
  refine ⟨?_, ?_, ?_⟩
  · rintro rfl
    cases hcut
  · rw [← Bool.not_eq_true]
    intro hblank
    simp only [isBlank, Bool.or_eq_true, beq_iff_eq] at hblank
    obtain (rfl | rfl) | rfl := hblank <;> cases hcut
  · rintro ⟨rfl, hhead⟩
    obtain ⟨more, rfl⟩ := List.head?_eq_some_iff.mp hhead
    cases hcut
    exact h.noComment rfl ⟨more, hinput.symm⟩

end Decomposition

section Scanning

/-- The lexer goes over a gap and counts its lines. -/
theorem Gap.scan_eq (h : Gap rest gap) (before : List Char) (done : List Token) :
    scan (lineAfter before) (gap ++ rest) done = scan (lineAfter (before ++ gap)) rest done := by
  induction h generalizing before with
  | none => simp
  | @blank c gap isBlank tail ih =>
    have hstep : scan (lineAfter before) (c :: gap ++ rest) done =
        scan (lineAfter (before ++ [c])) (gap ++ rest) done := by
      simp only [List.mem_cons, List.not_mem_nil, or_false] at isBlank
      obtain rfl | rfl | rfl | rfl := isBlank <;>
        simp [scan, Lexer.isBlank, lineAfter_append]
    rw [hstep, ih]
    simp
  | @comment text gap oneLine ends tail ih =>
    have htext : ∀ c ∈ '-' :: text, (c != '\n') = true := by
      intro c hc
      rw [bne_iff_ne]
      rintro rfl
      simp [oneLine] at hc
    have hdrop : ('-' :: text ++ (gap ++ rest)).dropWhile (· != '\n') = gap ++ rest := by
      rw [List.dropWhile_append_of_pos htext]
      cases hinput : gap ++ rest with
      | nil => rfl
      | cons c input =>
        obtain rfl : c = '\n' := ends c (by simp [hinput])
        rfl
    have hstep : scan (lineAfter before) ('-' :: '-' :: text ++ gap ++ rest) done =
        scan (lineAfter (before ++ '-' :: '-' :: text)) (gap ++ rest) done := by
      have hcount : ('-' :: '-' :: text).count '\n' = 0 := by
        simp [List.count_eq_zero, oneLine]
      rw [lineAfter_append, hcount]
      simp only [List.cons_append, List.append_assoc] at hdrop ⊢
      rw [scan]
      simp [isBlank, hdrop]
    rw [hstep, ih]
    simp

/-- Where no gap goes on, the lexer takes the token that is cut off. -/
theorem scan_of_cut (hline : c ≠ '\n') (hblank : isBlank c = false)
    (hcomment : ¬ (c = '-' ∧ rest.head? = some '-')) (hcut : cut c rest = .ok t) (line : Nat)
    (done : List Token) : scan line (c :: rest) done =
      scan (line + t.text.count '\n') t.rest (t.token line :: done) := by
  rw [scan, if_neg hline, if_neg (by simp [hblank]), if_neg hcomment]
  split
  · rename_i problem hproblem
    cases hproblem.symm.trans hcut
  · rename_i t' ht'
    obtain rfl := Except.ok.inj (ht'.symm.trans hcut)
    rfl

/-- Where a lexeme stands, the lexer takes its token. -/
theorem Stands.scan_eq (h : Stands text rest kind value) (line : Nat) (done : List Token) :
    scan line (text ++ rest) done =
      scan (line + text.count '\n') rest (⟨kind, String.ofList text, value, line⟩ :: done) := by
  obtain ⟨c, input, hinput, -⟩ := h.lexeme.covers rest
  obtain ⟨hline, hblank, hcomment⟩ := h.not_gap hinput
  obtain ⟨hcut, rfl⟩ := h.lexeme.cut_eq hinput h.longest
  rw [hinput, scan_of_cut hline hblank hcomment hcut]
  rfl

/-- A decomposition is read token by token. -/
theorem Decomposes.scan_eq (h : Decomposes before input tokens) (done : List Token) :
    scan (lineAfter before) input done =
      .ok (done.reverse ++ tokens ++ [endMark (before ++ input)]) := by
  induction h generalizing done with
  | @ended before gap isGap =>
    have hgap := isGap.scan_eq before done
    rw [List.append_nil] at hgap
    rw [hgap, scan]
    simp [endMark]
  | @token before gap text rest kind value tokens isGap stands tail ih =>
    rw [isGap.scan_eq, stands.scan_eq, ← lineAfter_append, ih]
    simp

/-- What the lexer reads behind a given text is a decomposition. -/
theorem decomposes_of_scan {line : Nat} {all : List Token} (before : List Char)
    (h : scan line input done = .ok all) (hline : line = lineAfter before) : ∃ tokens,
      all = done.reverse ++ tokens ++ [endMark (before ++ input)] ∧
        Decomposes before input tokens := by
  fun_induction scan line input done generalizing before with
  | case1 line done =>
    obtain rfl := Except.ok.inj h
    exact ⟨[], by simp [endMark, hline], .ended .none⟩
  | case2 line done rest ih =>
    obtain ⟨tokens, rfl, htokens⟩ := ih (before ++ ['\n']) h
      (by simp [hline, lineAfter_append])
    exact ⟨tokens, by simp, htokens.blank (by decide)⟩
  | case3 line done c rest hc hblank ih =>
    have hmem : c ∈ [' ', '\t', '\r', '\n'] := by
      simp only [isBlank, Bool.or_eq_true, beq_iff_eq] at hblank
      obtain (rfl | rfl) | rfl := hblank <;> decide
    obtain ⟨tokens, rfl, htokens⟩ := ih (before ++ [c]) h
      (by simp [hline, lineAfter_append, List.count_eq_zero, Ne.symm hc])
    exact ⟨tokens, by simp, htokens.blank hmem⟩
  | case4 line done c rest hc hblank hcomment ih =>
    obtain ⟨rfl, hhead⟩ := hcomment
    obtain ⟨rest, rfl⟩ := List.head?_eq_some_iff.mp hhead
    have hsplit := List.takeWhile_append_dropWhile (p := (· != '\n')) (l := rest)
    have hnone := oneLine_takeWhile rest
    have hends := ends_dropWhile rest
    obtain ⟨tokens, rfl, htokens⟩ := ih (before ++ '-' :: '-' :: rest.takeWhile (· != '\n')) h
      (by simp [hline, lineAfter_append, List.count_eq_zero, hnone])
    refine ⟨tokens, by simp [hsplit], ?_⟩
    have hcomment := htokens.comment hnone hends
    simpa [hsplit] using hcomment
  | case5 line done c rest hc hblank hcomment problem hcut => cases h
  | case6 line done c rest hc hblank hcomment t hcut ih =>
    obtain ⟨tokens, rfl, htokens⟩ := ih (before ++ t.text) h
      (by rw [hline, lineAfter_append])
    have hdecomposes : Decomposes before ([] ++ (t.text ++ t.rest)) _ :=
      .token .none (stands_of_cut hcut hcomment) (by simpa using htokens)
    refine ⟨t.token line :: tokens, ?_, ?_⟩
    · simp [← cut_text hcut]
    · simpa [cut_text hcut, Cut.token, hline] using hdecomposes

/-- The tokens of lexemes do not mark the end of a source. -/
theorem Decomposes.isEnd_eq_false (h : Decomposes before input tokens) :
    ∀ t ∈ tokens, t.isEnd = false := by
  induction h with
  | ended isGap => simp
  | token isGap stands tail ih =>
    simp only [List.mem_cons, forall_eq_or_imp]
    exact ⟨by simpa [Token.isEnd] using stands.lexeme.kind_ne_end, ih⟩

end Scanning

end Lexer

open Lexer

/-- The tokens of a source are those that it is cut into, with the mark of the end behind them. -/
theorem exists_inner_of_tokenize {source : String} {tokens : List Token}
    (h : tokenize source = .ok tokens) : ∃ inner, tokens = inner ++ [endMark source.toList] ∧
      (∀ t ∈ inner, t.isEnd = false) ∧ Decomposes [] source.toList inner := by
  obtain ⟨inner, hinner, hdecomposes⟩ := decomposes_of_scan [] h rfl
  exact ⟨inner, by simpa using hinner, hdecomposes.isEnd_eq_false, hdecomposes⟩

/-- The tokens of a source contain a mark of its end. -/
theorem hasEnd_of_tokenize {source : String} {tokens : List Token}
    (h : tokenize source = .ok tokens) : ∃ t ∈ tokens, t.isEnd = true := by
  obtain ⟨inner, rfl, -, -⟩ := exists_inner_of_tokenize h
  exact ⟨endMark source.toList, List.mem_append_right _ (List.mem_singleton_self _), rfl⟩

/-- The lexer returns the tokens of a decomposition of the source and a mark of its end, and it
returns them wherever the source has a decomposition. -/
theorem tokenize_eq_ok_iff (source : String) (tokens : List Token) :
    tokenize source = .ok tokens ↔
      ∃ inner, tokens = inner ++ [⟨.endOfInput, "", .nil, 1 + source.toList.count '\n'⟩] ∧
        (∀ t ∈ inner, t.isEnd = false) ∧ Decomposes [] source.toList inner := by
  constructor
  · intro h
    exact exists_inner_of_tokenize h
  · rintro ⟨inner, rfl, -, hdecomposes⟩
    simpa [tokenize, lineAfter, endMark] using hdecomposes.scan_eq []

end Moonbridge

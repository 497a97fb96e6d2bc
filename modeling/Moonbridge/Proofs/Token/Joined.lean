import Moonbridge.Proofs.Token.Borders
import Moonbridge.Proofs.Tree.Relabel

/-!
# One source behind another

At a line break the lexer is between tokens, unless it is inside a string. So where a source is
read to its end, a line break and more text behind it change none of its tokens, and the further
text is read as if it stood alone, on later lines.
-/

namespace Moonbridge

/-- Every token stands a number of lines further down. -/
def Relabeling.later (lines : Nat) : Relabeling where
  token t := { t with line := t.line + lines }
  kind_token _ := rfl
  lexeme_token _ := rfl
  literal_token _ := rfl

/-- The fault stands a number of lines further down. -/
def LexError.later (lines : Nat) (e : LexError) : LexError := ⟨e.problem, e.line + lines⟩

namespace Lexer

variable {c : Char} {rest more : List Char} {t : Cut}

section Cutting

/-- A run of a class of characters ends at a line break that is not in the class. -/
theorem dropWhile_break {p : Char → Bool} (hp : p '\n' = false) (text more : List Char) :
    (text ++ '\n' :: more).dropWhile p = text.dropWhile p ++ '\n' :: more := by
  induction text with
  | nil => simp [hp]
  | cons c text ih =>
    cases hc : p c with
    | true => simp [hc, ih]
    | false => simp [hc]

/-- All line breaks of a text stand behind its first line. -/
theorem count_dropWhile_break (text : List Char) :
    (text.dropWhile (· != '\n')).count '\n' = text.count '\n' := by
  have hsplit := congrArg (List.count '\n')
    (List.takeWhile_append_dropWhile (p := (· != '\n')) (l := text))
  rwa [List.count_append, List.count_eq_zero.mpr (oneLine_takeWhile text), Nat.zero_add] at hsplit

/-- A cut of a source that goes on behind a line break. -/
def Cut.followed (t : Cut) (more : List Char) : Cut :=
  ⟨t.kind, t.text, t.rest ++ '\n' :: more⟩

/-- A token is cut off the same way where the source goes on behind a line break. -/
theorem cut_followed (h : cut c rest = .ok t) (more : List Char) :
    cut c (rest ++ '\n' :: more) = .ok (t.followed more) := by
  have hlexeme := lexeme_of_cut h
  have hinput : t.text ++ (t.rest ++ '\n' :: more) = c :: (rest ++ '\n' :: more) := by
    rw [← List.append_assoc, cut_text h, List.cons_append]
  have hline : LedByBlank ('\n' :: more) := by simp [LedByBlank]
  refine (hlexeme.cut_eq hinput ?_).1
  -- A lexeme at this place ends before the line break, so that it stood there before.
  intro text kind value hother hfront
  rw [← List.append_assoc] at hfront
  have hbefore := hlexeme.front_of_ledByBlank hother hline hfront
  rw [cut_text h] at hbefore
  exact cut_longest h hother hbefore

end Cutting

section Scanning

variable {line : Nat} {input : List Char} {done all : List Token}

/-- Where a source is read to its end, the lexer reads on from there behind a line break. -/
theorem scan_followed (h : scan line input done = .ok all) : ∃ read,
    all = (⟨.endOfInput, "", .nil, ↑(line + input.count '\n')⟩ :: read).reverse ∧
      ∀ more, scan line (input ++ '\n' :: more) done =
        scan (line + input.count '\n' + 1) more read := by
  fun_induction scan line input done with
  | case1 line done =>
    obtain rfl := Except.ok.inj h
    refine ⟨done, rfl, fun more => ?_⟩
    rw [List.nil_append, scan, if_pos rfl]
    rfl
  | case2 line done rest ih =>
    obtain ⟨read, rfl, hread⟩ := ih h
    have hcount : line + ('\n' :: rest).count '\n' = line + 1 + rest.count '\n' := by
      rw [List.count_cons_self]
      omega
    refine ⟨read, by rw [hcount], fun more => ?_⟩
    rw [List.cons_append, scan, if_pos rfl, hread, hcount]
  | case3 line done c rest hc hblank ih =>
    obtain ⟨read, rfl, hread⟩ := ih h
    have hcount : (c :: rest).count '\n' = rest.count '\n' := List.count_cons_of_ne hc
    refine ⟨read, by rw [hcount], fun more => ?_⟩
    rw [List.cons_append, scan, if_neg hc, if_pos hblank, hread, hcount]
  | case4 line done c rest hc hblank hcomment ih =>
    obtain ⟨read, rfl, hread⟩ := ih h
    have hdrop := dropWhile_break (p := (· != '\n')) (by decide) rest
    have hcount : (c :: rest).count '\n' = (rest.dropWhile (· != '\n')).count '\n' := by
      rw [List.count_cons_of_ne hc, count_dropWhile_break]
    have hhead : ∀ more, (rest ++ '\n' :: more).head? = some '-' := by
      intro more
      rw [List.head?_append, hcomment.2]
      rfl
    refine ⟨read, by rw [hcount], fun more => ?_⟩
    rw [List.cons_append, scan, if_neg hc, if_neg hblank, if_pos ⟨hcomment.1, hhead more⟩,
      hdrop, hread, hcount]
  | case5 line done c rest hc hblank hcomment problem hcut => cases h
  | case6 line done c rest hc hblank hcomment t hcut ih =>
    obtain ⟨read, rfl, hread⟩ := ih h
    have hcount : line + (c :: rest).count '\n' =
        line + t.text.count '\n' + t.rest.count '\n' := by
      rw [← cut_text hcut, List.count_append]
      omega
    have hcomment' : ∀ more, ¬ (c = '-' ∧ (rest ++ '\n' :: more).head? = some '-') := by
      rintro more ⟨rfl, hhead⟩
      cases rest with
      | nil => cases hhead
      | cons d rest => exact hcomment ⟨rfl, hhead⟩
    refine ⟨read, by rw [hcount], fun more => ?_⟩
    rw [List.cons_append, scan_of_cut hc (by simpa using hblank) (hcomment' more)
      (cut_followed hcut more), hcount, ← hread]
    rfl

/-- On later lines the same tokens are read, and the same fault is found. -/
theorem scan_later (lines : Nat) (line : Nat) (input : List Char) (done before : List Token) :
    scan (line + lines) input (done.map (Relabeling.later lines).token ++ before) =
      ((scan line input done).map fun all =>
        before.reverse ++ all.map (Relabeling.later lines).token).mapError (.later lines) := by
  fun_induction scan line input done with
  | case1 line done =>
    have hread : scan (line + lines) [] (done.map (Relabeling.later lines).token ++ before) =
        .ok (before.reverse ++ (⟨.endOfInput, "", .nil, line⟩ :: done).reverse.map
          (Relabeling.later lines).token) := by
      simp [scan, Relabeling.later]
    exact hread
  | case2 line done rest ih =>
    rw [scan, if_pos rfl, ← ih]
    congr 1
    omega
  | case3 line done c rest hc hblank ih => rw [scan, if_neg hc, if_pos hblank, ← ih]
  | case4 line done c rest hc hblank hcomment ih =>
    rw [scan, if_neg hc, if_neg hblank, if_pos hcomment, ← ih]
  | case5 line done c rest hc hblank hcomment problem hcut =>
    rw [scan, if_neg hc, if_neg hblank, if_neg hcomment]
    split
    · rename_i problem' hproblem
      obtain rfl := Except.error.inj (hproblem.symm.trans hcut)
      rfl
    · rename_i t ht
      cases ht.symm.trans hcut
  | case6 line done c rest hc hblank hcomment t hcut ih =>
    rw [scan_of_cut hc (by simpa using hblank) hcomment hcut, ← ih]
    congr 1
    omega

end Scanning

end Lexer

/-- Behind a source that is read and a line break, the tokens or the fault of another source are
found on later lines, and the tokens of the first one in front of them. -/
theorem tokenize_joined {first : String} {tokens : List Token} (h : tokenize first = .ok tokens)
    (second : String) : ∃ inner, tokens = inner ++ [Lexer.endMark first.toList] ∧
      tokenize (first ++ "\n" ++ second) =
        ((tokenize second).map fun all =>
          inner ++ all.map (Relabeling.later (1 + first.toList.count '\n')).token).mapError
            (.later (1 + first.toList.count '\n')) := by
  obtain ⟨read, rfl, hread⟩ := Lexer.scan_followed h
  refine ⟨read.reverse, by simp [Lexer.endMark, Lexer.lineAfter], ?_⟩
  have hlater := Lexer.scan_later (1 + first.toList.count '\n') 1 second.toList [] read
  have hsource : (first ++ "\n" ++ second).toList = first.toList ++ '\n' :: second.toList := by
    simp
  rw [List.map_nil, List.nil_append] at hlater
  rw [tokenize, hsource, hread, tokenize, ← hlater]
  congr 1
  omega

end Moonbridge

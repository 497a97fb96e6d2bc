import Moonbridge.Proofs.Token.Borders
import Moonbridge.Proofs.Token.Respaced

/-!
# Where the lexer stops

The lexer stops at the first character where neither a gap nor a lexeme starts: a quote that is
never closed, an exclamation mark without an equals sign, or a character that starts nothing. All
in front of it is read, and is read alike if the source ends there. Unless the character is a
quote, the lexer stops at it whatever follows on the next line.
-/

namespace Moonbridge

namespace Lexer

/-- A text that is read as gaps and lexemes where it stands in front of another one. -/
inductive Passable (behind : List Char) : List Char → Prop
  | none : Passable behind []
  | gap {gap rest : List Char} (isGap : Gap (rest ++ behind) gap) (tail : Passable behind rest) :
      Passable behind (gap ++ rest)
  | lexeme {text rest : List Char} {kind : Kind} {value : Literal}
      (stands : Stands text (rest ++ behind) kind value) (tail : Passable behind rest) :
      Passable behind (text ++ rest)

/-- A character that starts no gap and no lexeme, whatever follows it. -/
structure Foreign (c : Char) : Prop where
  noBlank : c ∉ [' ', '\t', '\r', '\n']
  noComment : c ≠ '-'
  noLexeme : ∀ {text : List Char} {kind : Kind} {value : Literal}, Lexeme text kind value →
    text.head? ≠ some c

/-- Why the lexer stops at a character, given what follows it. -/
inductive Cause (after : List Char) : Char → LexError → Prop
  | unclosed {e : LexError} (noQuote : '"' ∉ after) (reason : e.reason = "unterminated string") :
      Cause after '"' e
  | unpaired {e : LexError} (noEquals : after.head? ≠ some '=')
      (reason : e.reason = "unexpected character '!'") : Cause after '!' e
  | foreign {c : Char} {e : LexError} (isForeign : Foreign c)
      (reason : e.reason = "unexpected character " ++ Text.quoted (String.singleton c)) :
      Cause after c e

variable {text rest mid behind behind' gap input : List Char} {kind : Kind} {value : Literal}
  {c : Char} {done : List Token} {line : Nat} {e : LexError}

section Passing

/-- A gap depends on the first character behind it only. -/
theorem Gap.of_head (h : Gap behind gap) (hhead : ∀ c ∈ behind'.head?, c ∈ behind.head?) :
    Gap behind' gap := by
  induction h with
  | none => exact .none
  | blank isBlank tail ih => exact .blank isBlank ih
  | @comment text gap oneLine ends tail ih =>
    refine .comment oneLine ?_ ih
    cases gap with
    | nil => exact fun c hc => ends c (hhead c hc)
    | cons b gap => exact ends

/-- What is read in front of a text is read alike where a blank cuts the text off. -/
theorem Passable.of_ledByBlank (mid : List Char) (h : Passable (mid ++ behind) text)
    (hbehind : LedByBlank behind')
    (hhead : ∀ c ∈ (mid ++ behind').head?, c ∈ (mid ++ behind).head?) :
    Passable (mid ++ behind') text := by
  induction h with
  | none => exact .none
  | @gap gap rest isGap tail ih =>
    refine .gap (isGap.of_head ?_) ih
    cases rest with
    | nil => exact hhead
    | cons b rest => exact fun c hc => hc
  | @lexeme text rest kind value stands tail ih =>
    rw [← List.append_assoc] at stands
    have hstands := stands.of_ledByBlank (rest ++ mid) hbehind
    rw [List.append_assoc] at hstands
    exact .lexeme hstands ih

/-- The lexer goes over what is read in front of a text and counts its lines. -/
theorem Passable.scan_eq (h : Passable behind text) (before : List Char) (done : List Token) :
    ∃ read, scan (lineAfter before) (text ++ behind) done =
      scan (lineAfter (before ++ text)) behind read := by
  induction h generalizing before done with
  | none => exact ⟨done, by simp⟩
  | @gap gap rest isGap tail ih =>
    obtain ⟨read, hread⟩ := ih (before ++ gap) done
    refine ⟨read, ?_⟩
    rw [List.append_assoc, isGap.scan_eq, hread, List.append_assoc]
  | @lexeme text rest kind value stands tail ih =>
    obtain ⟨read, hread⟩ := ih (before ++ text)
      (⟨kind, String.ofList text, value, lineAfter before⟩ :: done)
    refine ⟨read, ?_⟩
    rw [List.append_assoc, stands.scan_eq, ← lineAfter_append, hread, List.append_assoc]

/-- Where the lexer stops, all before is read. -/
theorem exists_passable_of_scan (before : List Char) (h : scan line input done = .error e)
    (hline : line = lineAfter before) : ∃ text c rest, input = text ++ c :: rest ∧
      Passable (c :: rest) text ∧ Faulty c rest ∧
      e = ⟨if c = '"' then .unterminatedString else .unexpected c,
        lineAfter (before ++ text)⟩ := by
  fun_induction scan line input done generalizing before with
  | case1 line done => cases h
  | case2 line done rest ih =>
    obtain ⟨text, c, rest, rfl, hpass, hfaulty, rfl⟩ := ih (before ++ ['\n']) h
      (by simp [hline, lineAfter_append])
    exact ⟨'\n' :: text, c, rest, rfl, .gap (.blank (by decide) .none) hpass, hfaulty, by simp⟩
  | case3 line done b rest hb hblank ih =>
    obtain ⟨text, c, rest, rfl, hpass, hfaulty, rfl⟩ := ih (before ++ [b]) h
      (by simp [hline, lineAfter_append, List.count_eq_zero, Ne.symm hb])
    exact ⟨b :: text, c, rest, rfl, .gap (gap_of_isBlank hblank _) hpass, hfaulty, by simp⟩
  | case4 line done b rest hb hblank hcomment ih =>
    obtain ⟨rfl, hhead⟩ := hcomment
    obtain ⟨rest, rfl⟩ := List.head?_eq_some_iff.mp hhead
    have hsplit := List.takeWhile_append_dropWhile (p := (· != '\n')) (l := rest)
    have hgap := gap_comment rest
    obtain ⟨text, c, after, hrest, hpass, hfaulty, rfl⟩ :=
      ih (before ++ '-' :: '-' :: rest.takeWhile (· != '\n')) h
        (by simp [hline, lineAfter_append, List.count_eq_zero, oneLine_takeWhile rest])
    have hdrop : rest.dropWhile (· != '\n') = text ++ c :: after := by simpa using hrest
    rw [hdrop] at hgap hsplit
    refine ⟨_, c, after, ?_, .gap hgap hpass, hfaulty, by simp⟩
    rw [List.append_assoc, List.cons_append, List.cons_append, hsplit]
  | case5 line done c rest hc hblank hcomment problem hcut =>
    obtain rfl := Except.error.inj h
    have hfaulty := faulty_of_cut (notMem_blanks hc (by simpa using hblank)) hcut
    refine ⟨[], c, rest, rfl, .none, hfaulty, ?_⟩
    rw [cut_problem hcut, hline, List.append_nil]
  | case6 line done b rest hb hblank hcomment t hcut ih =>
    obtain ⟨text, c, after, hrest, hpass, hfaulty, rfl⟩ := ih (before ++ t.text) h
      (by rw [hline, lineAfter_append])
    have hstands := stands_of_cut hcut hcomment
    rw [hrest] at hstands
    refine ⟨t.text ++ text, c, after, ?_, .lexeme hstands hpass, hfaulty, by simp⟩
    rw [← cut_text hcut, hrest, List.append_assoc]

end Passing

section Faults

/-- A character that starts a symbol is one itself, except for the exclamation mark. -/
theorem symbol_head (h : (text, kind) ∈ symbols) (hc : text.head? = some c) (hmark : c ≠ '!') :
    ∃ kind', ([c], kind') ∈ symbols := by
  have htable : ∀ p ∈ symbols, p.1.head?.all fun c =>
      c = '!' ∨ ∃ q ∈ symbols, q.1 = [c] := by
    decide
  have htest := (Option.all_eq_true _ _).mp (htable _ h) c hc
  obtain heq | ⟨⟨single, kind'⟩, hsingle, rfl⟩ := of_decide_eq_true htest
  · exact absurd heq hmark
  · exact ⟨kind', hsingle⟩

/-- A character that starts a lexeme starts one in front of everything, unless it is a quote or an
exclamation mark. -/
theorem Lexeme.cut_head (h : Lexeme (c :: text) kind value) (hquote : c ≠ '"') (hmark : c ≠ '!')
    (rest : List Char) : ∃ t, cut c rest = .ok t := by
  have hword : IsWord (c :: text) → ∃ t, cut c rest = .ok t := by
    rintro ⟨⟨d, hd, hstart⟩, -⟩
    obtain rfl : c = d := by simpa using hd
    exact ⟨_, cut_wordStart hstart rest⟩
  generalize htext : c :: text = lexeme at h
  cases h with
  | string closed => exact absurd (List.cons.inj htext).1 hquote
  | whole nonempty isDigit =>
    exact ⟨_, cut_digit (isDigit c (htext ▸ List.mem_cons_self)) rest⟩
  | fractional wholeNonempty wholeDigit fractionNonempty fractionDigit =>
    obtain ⟨d, digits, rfl⟩ := List.exists_cons_of_ne_nil wholeNonempty
    obtain rfl : c = d := (List.cons.inj htext).1
    exact ⟨_, cut_digit (wholeDigit c List.mem_cons_self) rest⟩
  | keyword listed => exact hword (htext ▸ (keyword_isWord listed).1)
  | identifier isWord unlisted => exact hword (htext ▸ isWord)
  | symbol listed =>
    obtain ⟨kind', hsingle⟩ := symbol_head listed (c := c) (by simp [← htext]) hmark
    obtain ⟨d, rest', hinput, t, hcut, -⟩ := (Lexeme.symbol hsingle).covers rest
    obtain ⟨rfl, rfl⟩ := List.cons.inj hinput
    exact ⟨t, hcut⟩

/-- Unless a fault is a quote or an exclamation mark, it starts no lexeme at all. -/
theorem Faulty.foreign (h : Faulty c rest) (hquote : c ≠ '"') (hmark : c ≠ '!') : Foreign c where
  noBlank := h.noBlank
  noComment := by
    rintro rfl
    have hminus : Lexeme ['-'] .minus .nil := .symbol (by decide)
    exact h.noLexeme hminus ⟨rest, rfl⟩
  noLexeme := by
    intro text kind value hlexeme hhead
    obtain ⟨tail, rfl⟩ := List.head?_eq_some_iff.mp hhead
    obtain ⟨t, hcut⟩ := hlexeme.cut_head hquote hmark rest
    cases hcut.symm.trans h.cut_eq

/-- There are three causes of a fault. -/
theorem Faulty.cause (h : Faulty c rest) (line : Nat) :
    Cause rest c ⟨if c = '"' then .unterminatedString else .unexpected c, line⟩ := by
  by_cases hquote : c = '"'
  · subst hquote
    refine .unclosed (fun hclosed => ?_) rfl
    obtain ⟨body, more, rfl, hbody⟩ := List.eq_append_cons_of_mem hclosed
    exact h.noLexeme (.string hbody) ⟨more, by simp⟩
  rw [if_neg hquote]
  by_cases hmark : c = '!'
  · subst hmark
    refine .unpaired (fun hequals => ?_) rfl
    obtain ⟨more, rfl⟩ := List.head?_eq_some_iff.mp hequals
    have hunequal : Lexeme ['!', '='] .notEqual .nil := .symbol (by decide)
    exact h.noLexeme hunequal ⟨more, rfl⟩
  · exact .foreign (h.foreign hquote hmark) rfl

/-- A fault that is no quote is one in front of every blank. -/
theorem Faulty.of_ledByBlank (h : Faulty c rest) (hquote : c ≠ '"')
    (hbehind : LedByBlank behind) : Faulty c behind where
  noBlank := h.noBlank
  noLexeme := by
    intro text kind value hlexeme hfront
    have hkind : kind ≠ .string := by
      rintro rfl
      obtain ⟨body, -, rfl⟩ := hlexeme.exists_body
      obtain ⟨more, hmore⟩ := hfront
      exact hquote (List.cons.inj hmore).1.symm
    have hsingle : text <+: [c] := front_of_blankless hbehind
      (fun b hb => hlexeme.notMem_of_separator hkind (List.mem_cons_of_mem _ hb)) hfront
    exact h.noLexeme hlexeme (hsingle.trans (List.prefix_append [c] rest))

end Faults

section Sources

variable {source : String}

/-- What is read in front of a text is also read if the source ends there. -/
theorem Passable.tokenize_ok (h : Passable behind text) :
    ∃ tokens, tokenize (String.ofList text) = .ok tokens := by
  have hends : Passable [] text := h.of_ledByBlank [] (by simp [LedByBlank]) (by simp)
  obtain ⟨read, hread⟩ := hends.scan_eq [] []
  rw [List.append_nil, scan] at hread
  rw [tokenize, String.toList_ofList]
  exact ⟨_, hread⟩

/-- The lexer stops at a fault behind a text that is read. -/
theorem Passable.tokenize_error (h : Passable (c :: rest) text) (hfaulty : Faulty c rest)
    (hsource : source.toList = text ++ c :: rest) : tokenize source =
      .error ⟨if c = '"' then .unterminatedString else .unexpected c, lineAfter text⟩ := by
  obtain ⟨read, hread⟩ := h.scan_eq [] []
  rw [tokenize, hsource]
  exact hread.trans (hfaulty.scan_eq _ read)

end Sources

end Lexer

open Lexer

/-- A fault is located at a character of a source. All before the character is read, the fault
names it and its line, and unless it is a quote, the lexer stops there whatever follows on the next
line. -/
structure Located (source : String) (e : LexError) (before : List Char) (c : Char)
    (after : List Char) : Prop where
  split : source.toList = before ++ c :: after
  read : ∃ tokens, tokenize (String.ofList before) = .ok tokens
  character : e.character = c
  line : e.line = 1 + before.count '\n'
  cause : Cause after c e
  again : c ≠ '"' → ∀ more : String,
    tokenize (String.ofList (before ++ [c]) ++ "\n" ++ more) = .error e

/-- Every fault of a source is located at a character of it. -/
theorem fault_located {source : String} {e : LexError} (h : tokenize source = .error e) :
    ∃ before c after, Located source e before c after := by
  obtain ⟨before, c, after, hsource, hpass, hfaulty, rfl⟩ := exists_passable_of_scan [] h rfl
  refine ⟨before, c, after, hsource, hpass.tokenize_ok, ?_, rfl, hfaulty.cause _, ?_⟩
  · by_cases hquote : c = '"' <;> simp [LexError.character, hquote]
  · intro hquote more
    have hline : LedByBlank ('\n' :: more.toList) := by simp [LedByBlank]
    have hbefore : Passable (c :: '\n' :: more.toList) before :=
      hpass.of_ledByBlank [c] hline (fun _ hc => hc)
    exact hbefore.tokenize_error (hfaulty.of_ledByBlank hquote hline) (by simp)

/-- A character that starts nothing, behind a comment and a string with a line break in it. -/
theorem fault_located_foreign :
    tokenize "x -- \"\n\"a\nb\" @ \"" = .error ⟨.unexpected '@', 3⟩ ∧
      ∃ before c after, Located "x -- \"\n\"a\nb\" @ \"" ⟨.unexpected '@', 3⟩ before c after := by
  have hfault : tokenize "x -- \"\n\"a\nb\" @ \"" = .error ⟨.unexpected '@', 3⟩ := by
    decide +kernel
  exact ⟨hfault, fault_located hfault⟩

end Moonbridge

import Moonbridge.Proofs.Token.Spelling

/-!
# The token grammar

A lexeme is a text of the token grammar: a string between double quotes, a number, a word, an
operator or a punctuation mark. The text determines the category and the value. What the lexer
cuts off the front of a source is the longest lexeme that stands there, and it cuts one off
wherever one stands.
-/

namespace Moonbridge.Lexer

/-- The operators and punctuation marks. -/
def symbols : List (List Char × Kind) :=
  [(['('], .leftParen), ([')'], .rightParen), (['\x7b'], .leftBrace), (['\x7d'], .rightBrace),
    (['['], .leftBracket), ([']'], .rightBracket), ([','], .comma), (['.'], .dot),
    ([';'], .semicolon), ([':'], .colon), (['+'], .plus), (['-'], .minus), (['*'], .star),
    (['/'], .slash), (['='], .assign), (['=', '='], .equal), (['!', '='], .notEqual),
    (['<'], .less), (['<', '='], .lessEqual), (['>'], .greater), (['>', '='], .greaterEqual)]

/-- The texts of the token grammar, each with the category and the value it determines. -/
inductive Lexeme : List Char → Kind → Literal → Prop
  | string {body : List Char} (closed : '"' ∉ body) :
      Lexeme ('"' :: body ++ ['"']) .string (.text (String.ofList body))
  | whole {digits : List Char} (nonempty : digits ≠ [])
      (isDigit : ∀ c ∈ digits, isDigit c = true) :
      Lexeme digits .number (.number (Decimal.ofNumeral digits []).toDouble)
  | fractional {whole fraction : List Char} (wholeNonempty : whole ≠ [])
      (wholeDigit : ∀ c ∈ whole, isDigit c = true) (fractionNonempty : fraction ≠ [])
      (fractionDigit : ∀ c ∈ fraction, isDigit c = true) :
      Lexeme (whole ++ '.' :: fraction) .number
        (.number (Decimal.ofNumeral whole fraction).toDouble)
  | keyword {text : List Char} {kind : Kind} (listed : (String.ofList text, kind) ∈ keywords) :
      Lexeme text kind .nil
  | identifier {text : List Char} (isWord : IsWord text)
      (unlisted : ∀ kind, (String.ofList text, kind) ∉ keywords) : Lexeme text .identifier .nil
  | symbol {text : List Char} {kind : Kind} (listed : (text, kind) ∈ symbols) :
      Lexeme text kind .nil

section Tables

/-- Every keyword is a word, and the table of keywords has one category for it. -/
theorem keyword_spec : ∀ p ∈ keywords, p.1.toList.head?.any isWordStart = true ∧
    p.1.toList.all isWordPart = true ∧ keywords.lookup p.1 = some p.2 := by
  decide +kernel

/-- A keyword is a word and is told by its text. -/
theorem keyword_isWord {text : List Char} {kind : Kind}
    (h : (String.ofList text, kind) ∈ keywords) : IsWord text ∧ wordKind text = kind := by
  obtain ⟨hstart, hparts, hlookup⟩ := keyword_spec _ h
  rw [String.toList_ofList] at hstart hparts
  exact ⟨⟨(Option.any_eq_true _ _).mp hstart, List.all_eq_true.mp hparts⟩,
    by rw [wordKind, hlookup, Option.getD_some]⟩

/-- A word that is no keyword is an identifier. -/
theorem wordKind_identifier {text : List Char}
    (h : ∀ kind, (String.ofList text, kind) ∉ keywords) : wordKind text = .identifier := by
  cases hlookup : keywords.lookup (String.ofList text) with
  | none => rw [wordKind, hlookup, Option.getD_none]
  | some kind => exact absurd (mem_of_lookup hlookup) (h kind)

/-- Only strings and numbers have a value. -/
theorem literal_of_ne {kind : Kind} (hs : kind ≠ .string) (hn : kind ≠ .number)
    (text : List Char) : literal kind text = .nil := by
  unfold literal
  split <;> simp_all

/-- No keyword is a literal or the mark of the end. -/
theorem keyword_kind : ∀ p ∈ keywords, p.2 ≠ .string ∧ p.2 ≠ .number ∧ p.2 ≠ .endOfInput := by
  decide

/-- No symbol is a literal or the mark of the end. -/
theorem symbol_kind : ∀ p ∈ symbols, p.2 ≠ .string ∧ p.2 ≠ .number ∧ p.2 ≠ .endOfInput := by
  decide

/-- A character that starts neither a string nor a number nor a word. -/
structure IsSign (c : Char) : Prop where
  noQuote : c ≠ '"'
  noDigit : isDigit c = false
  noWord : isWordStart c = false

/-- A sign is cut off alone or with an equals sign, as the tables say. -/
theorem cut_sign {c : Char} (h : IsSign c) (rest : List Char) :
    cut c rest = match extensible.lookup c with
      | some (alone, pair) => cutExtensible c alone pair rest
      | none =>
        match punctuation.lookup c with
        | some kind => .ok ⟨kind, [c], rest⟩
        | none => .error (.unexpected c) := by
  have hdigit : ¬isDigit c = true := Bool.not_eq_true _ ▸ h.noDigit
  have hword : ¬isWordStart c = true := Bool.not_eq_true _ ▸ h.noWord
  exact (if_neg h.noQuote).trans ((if_neg hdigit).trans (if_neg hword))

/-- How the tables of the lexer list a symbol: it is a sign alone or with an equals sign. -/
structure Listed (c : Char) (text : List Char) (kind : Kind) : Prop where
  sign : IsSign c
  extended : ∀ e ∈ extensible.lookup c,
    text = [c] ∧ e.1 = some kind ∨ text = [c, '='] ∧ e.2 = kind
  single : extensible.lookup c = none → text = [c] ∧ punctuation.lookup c = some kind

/-- Every symbol is listed in the tables of the lexer. -/
theorem listed_of_symbol {text : List Char} {kind : Kind} (h : (text, kind) ∈ symbols) :
    ∃ c rest, text = c :: rest ∧ Listed c text kind := by
  -- A test on the head of each symbol, so that the table is checked by evaluation.
  have htable : ∀ p ∈ symbols, p.1.head?.any fun c =>
      (c ≠ '"' ∧ isDigit c = false ∧ isWordStart c = false) ∧
        (∀ e ∈ extensible.lookup c, p.1 = [c] ∧ e.1 = some p.2 ∨ p.1 = [c, '='] ∧ e.2 = p.2) ∧
        (extensible.lookup c = none → p.1 = [c] ∧ punctuation.lookup c = some p.2) := by
    decide
  obtain ⟨c, hc, htest⟩ := (Option.any_eq_true _ _).mp (htable _ h)
  obtain ⟨⟨hquote, hdigit, hword⟩, hextends, hsingle⟩ := of_decide_eq_true htest
  obtain ⟨rest, htext⟩ := List.head?_eq_some_iff.mp hc
  exact ⟨c, rest, htext, ⟨hquote, hdigit, hword⟩, hextends, hsingle⟩

/-- What the tables of the lexer hold are symbols. -/
theorem punctuation_symbol : ∀ p ∈ punctuation, ([p.1], p.2) ∈ symbols := by
  decide

/-- A sign that an equals sign may extend is a listed symbol with it, and without it if it stands
alone. -/
theorem extensible_symbol : ∀ e ∈ extensible,
    ([e.1, '='], e.2.2) ∈ symbols ∧ ∀ kind ∈ e.2.1, ([e.1], kind) ∈ symbols := by
  decide

end Tables

/-- A word is not empty. -/
theorem IsWord.exists_cons {text : List Char} (h : IsWord text) : ∃ c rest, text = c :: rest := by
  obtain ⟨c, hc, -⟩ := h.start
  obtain ⟨rest, htext⟩ := List.head?_eq_some_iff.mp hc
  exact ⟨c, rest, htext⟩

section Cutting

variable {c : Char} {rest text : List Char} {t : Cut} {kind : Kind} {value : Literal}

/-- A digit starts a number. -/
theorem cut_digit (hc : isDigit c = true) (rest : List Char) :
    cut c rest = .ok (cutNumber (c :: rest)) := by
  have hquote : c ≠ '"' := by
    rintro rfl
    simp [isDigit] at hc
  simp [cut, hquote, hc]

/-- A letter is no digit. -/
theorem isDigit_of_isWordStart (hc : isWordStart c = true) : isDigit c = false := by
  rw [← Bool.not_eq_true]
  intro hdigit
  simp only [isDigit, isWordStart, Bool.or_eq_true, Bool.and_eq_true, decide_eq_true_eq,
    Char.le_def, UInt32.le_iff_toNat_le, beq_iff_eq] at hc hdigit
  rcases hc with (hc | hc) | rfl
  · have : c.val.toNat ≤ 57 := hdigit.2
    have : 97 ≤ c.val.toNat := hc.1
    omega
  · have : c.val.toNat ≤ 57 := hdigit.2
    have : 65 ≤ c.val.toNat := hc.1
    omega
  · exact absurd hdigit.2 (by decide)

/-- A letter starts a word. -/
theorem cut_wordStart (hc : isWordStart c = true) (rest : List Char) :
    cut c rest = .ok (cutWord (c :: rest)) := by
  have hquote : c ≠ '"' := by
    rintro rfl
    simp [isWordStart] at hc
  simp [cut, hquote, isDigit_of_isWordStart hc, hc]

/-- A run of characters of a class is part of the longest one. -/
theorem length_le_takeWhile {p : Char → Bool} (h : ∀ c ∈ text, p c = true) (rest : List Char) :
    text.length ≤ ((text ++ rest).takeWhile p).length := by
  rw [List.takeWhile_append_of_pos h, List.length_append]
  omega

/-- What is cut off where a lexeme stands: it is not shorter, and if it is the lexeme, it has its
category and value. -/
def Covers (c : Char) (rest text : List Char) (kind : Kind) (value : Literal) : Prop :=
  ∃ t, cut c rest = .ok t ∧ text.length ≤ t.text.length ∧
    (t.text = text → t.kind = kind ∧ literal kind text = value)

/-- A string is cut off up to its closing quote. -/
theorem cut_string {body : List Char} (h : '"' ∉ body) (more : List Char) :
    cut '"' (body ++ '"' :: more) = .ok ⟨.string, '"' :: body ++ ['"'], more⟩ := by
  have hbody : ∀ c ∈ body, (c != '"') = true := by
    intro c hc
    simp only [bne_iff_ne]
    rintro rfl
    exact h hc
  simp [cut, cutString, List.takeWhile_append_of_pos hbody, List.dropWhile_append_of_pos hbody]

/-- A string is cut at its second quote. -/
theorem covers_string {body : List Char} (h : '"' ∉ body) (more : List Char) :
    Covers '"' (body ++ '"' :: more) ('"' :: body ++ ['"']) .string
      (.text (String.ofList body)) := by
  refine ⟨_, cut_string h more, Nat.le_refl _, fun _ => ⟨rfl, ?_⟩⟩
  simp [literal]

/-- A number has at least the digits at its front. -/
theorem takeWhile_le_cutNumber (input : List Char) :
    (input.takeWhile isDigit).length ≤ (cutNumber input).text.length := by
  unfold cutNumber
  simp only []
  split
  · split
    · simp
    · exact Nat.le_refl _
  · exact Nat.le_refl _

/-- What starts with a digit is cut as a number. -/
theorem kind_cutNumber (input : List Char) : (cutNumber input).kind = .number := by
  unfold cutNumber
  simp only []
  split
  · split <;> rfl
  · rfl

/-- The digits at the front of a number are the run of digits before the point. -/
theorem takeWhile_point {whole : List Char} (h : ∀ c ∈ whole, isDigit c = true)
    (after : List Char) : (whole ++ '.' :: after).takeWhile isDigit = whole := by
  have hpoint : isDigit '.' = false := by decide
  rw [List.takeWhile_append_of_pos h, List.takeWhile_cons, hpoint]
  simp

/-- The digits of a number go up to its point. -/
theorem dropWhile_point {whole : List Char} (h : ∀ c ∈ whole, isDigit c = true)
    (after : List Char) : (whole ++ '.' :: after).dropWhile isDigit = '.' :: after := by
  have hpoint : isDigit '.' = false := by decide
  rw [List.dropWhile_append_of_pos h, List.dropWhile_cons, hpoint]
  simp

/-- The value of a number without a fraction. -/
theorem literal_whole (h : ∀ c ∈ text, isDigit c = true) :
    literal .number text = .number (Decimal.ofNumeral text []).toDouble := by
  have htake : (text ++ []).takeWhile isDigit = text ++ [].takeWhile isDigit :=
    List.takeWhile_append_of_pos h
  have hdrop : (text ++ []).dropWhile isDigit = [].dropWhile isDigit :=
    List.dropWhile_append_of_pos h
  rw [List.append_nil] at htake hdrop
  simp [literal, numeral, htake, hdrop]

/-- The value of a number with a fraction. -/
theorem literal_fractional {whole : List Char} (h : ∀ c ∈ whole, isDigit c = true)
    (fraction : List Char) : literal .number (whole ++ '.' :: fraction) =
      .number (Decimal.ofNumeral whole fraction).toDouble := by
  rw [literal, numeral, takeWhile_point h, dropWhile_point h, List.drop_succ_cons, List.drop_zero]

/-- A number without a fraction is cut behind its last digit. -/
theorem covers_whole (h : ∀ c ∈ text, isDigit c = true) (htext : text = c :: rest)
    (more : List Char) :
    Covers c (rest ++ more) text .number (.number (Decimal.ofNumeral text []).toDouble) := by
  subst htext
  refine ⟨_, cut_digit (h c List.mem_cons_self) _, ?_, fun _ => ⟨kind_cutNumber _, ?_⟩⟩
  · exact Nat.le_trans (length_le_takeWhile h more) (takeWhile_le_cutNumber _)
  · exact literal_whole h

/-- A number with a fraction is cut behind the last digit of the fraction. -/
theorem covers_fractional {whole fraction : List Char} (hw : ∀ c ∈ whole, isDigit c = true)
    (hne : fraction ≠ []) (hf : ∀ c ∈ fraction, isDigit c = true) (hwhole : whole = c :: rest)
    (more : List Char) :
    Covers c (rest ++ '.' :: fraction ++ more) (whole ++ '.' :: fraction) .number
      (.number (Decimal.ofNumeral whole fraction).toDouble) := by
  subst hwhole
  obtain ⟨d, ds, rfl⟩ := List.exists_cons_of_ne_nil hne
  have hd : isDigit d = true := hf d List.mem_cons_self
  have hds : ∀ c ∈ ds, isDigit c = true := fun c hc => hf c (List.mem_cons_of_mem d hc)
  have hnumber : (cutNumber (c :: rest ++ '.' :: d :: (ds ++ more))).text =
      c :: rest ++ '.' :: d :: (ds ++ more).takeWhile isDigit := by
    unfold cutNumber
    simp only [takeWhile_point hw, dropWhile_point hw, hd, if_true]
  have hlength := length_le_takeWhile hds more
  refine ⟨cutNumber (c :: rest ++ '.' :: d :: (ds ++ more)), ?_, ?_,
    fun _ => ⟨kind_cutNumber _, literal_fractional hw _⟩⟩
  · rw [cut_digit (hw c List.mem_cons_self)]
    simp
  · rw [hnumber]
    simp only [List.length_append, List.length_cons]
    omega

/-- A word is cut behind its last character. -/
theorem covers_word (h : IsWord text) (htext : text = c :: rest) (hkind : wordKind text = kind)
    (hs : kind ≠ .string) (hn : kind ≠ .number) (more : List Char) :
    Covers c (rest ++ more) text kind .nil := by
  subst htext
  have hstart : isWordStart c = true := by
    obtain ⟨d, hd, hstart⟩ := h.start
    obtain rfl : c = d := by simpa using hd
    exact hstart
  refine ⟨_, cut_wordStart hstart _, length_le_takeWhile h.parts more, fun heq => ⟨?_, ?_⟩⟩
  · rw [← hkind, ← heq]
    rfl
  · exact literal_of_ne hs hn _

/-- A listed symbol is cut as listed. -/
theorem covers_symbol (h : (text, kind) ∈ symbols) (htext : text = c :: rest)
    (hc : Listed c text kind) (more : List Char) : Covers c (rest ++ more) text kind .nil := by
  have hvalue : literal kind text = .nil :=
    literal_of_ne (symbol_kind _ h).1 (symbol_kind _ h).2.1 text
  unfold Covers
  rw [cut_sign hc.sign]
  cases hlookup : extensible.lookup c with
  | none =>
    obtain ⟨rfl, hkind⟩ := hc.single hlookup
    simp only [hkind]
    exact ⟨_, rfl, Nat.le_refl _, fun _ => ⟨rfl, hvalue⟩⟩
  | some e =>
    obtain ⟨alone, pair⟩ := e
    rcases hc.extended _ hlookup with ⟨rfl, hkind⟩ | ⟨rfl, rfl⟩
    · -- A single sign may be cut off with the equals sign behind it.
      obtain rfl : rest = [] := (List.cons.inj htext).2.symm
      obtain rfl : alone = some kind := hkind
      cases more with
      | nil => exact ⟨⟨kind, [c], []⟩, rfl, Nat.le_refl _, fun _ => ⟨rfl, hvalue⟩⟩
      | cons d more =>
        by_cases hd : d = '='
        · subst hd
          exact ⟨⟨pair, [c, '='], more⟩, rfl, by simp, fun heq => by simp at heq⟩
        · refine ⟨⟨kind, [c], d :: more⟩, ?_, Nat.le_refl _, fun _ => ⟨rfl, hvalue⟩⟩
          simp [cutExtensible, hd]
    · obtain rfl : rest = ['='] := (List.cons.inj htext).2.symm
      exact ⟨⟨pair, [c, '='], more⟩, rfl, Nat.le_refl _, fun _ => ⟨rfl, hvalue⟩⟩

/-- Where a lexeme stands, the lexer cuts off one that is not shorter. -/
theorem Lexeme.covers (h : Lexeme text kind value) (more : List Char) :
    ∃ c rest, text ++ more = c :: rest ∧ Covers c rest text kind value := by
  cases h with
  | @string body closed => exact ⟨'"', body ++ '"' :: more, by simp, covers_string closed more⟩
  | whole nonempty isDigit =>
    obtain ⟨c, rest, htext⟩ := List.exists_cons_of_ne_nil nonempty
    exact ⟨c, rest ++ more, by rw [htext]; rfl, covers_whole isDigit htext more⟩
  | @fractional whole fraction wholeNonempty wholeDigit fractionNonempty fractionDigit =>
    obtain ⟨c, rest, hwhole⟩ := List.exists_cons_of_ne_nil wholeNonempty
    refine ⟨c, rest ++ '.' :: fraction ++ more, by rw [hwhole]; rfl, ?_⟩
    exact covers_fractional wholeDigit fractionNonempty fractionDigit hwhole more
  | keyword listed =>
    obtain ⟨hword, hkind⟩ := keyword_isWord listed
    obtain ⟨hs, hn, -⟩ := keyword_kind _ listed
    obtain ⟨c, rest, htext⟩ := hword.exists_cons
    exact ⟨c, rest ++ more, by rw [htext]; rfl, covers_word hword htext hkind hs hn more⟩
  | identifier isWord unlisted =>
    obtain ⟨c, rest, htext⟩ := isWord.exists_cons
    have hkind := wordKind_identifier unlisted
    exact ⟨c, rest ++ more, by rw [htext]; rfl,
      covers_word isWord htext hkind (by decide) (by decide) more⟩
  | symbol listed =>
    obtain ⟨c, rest, htext, hc⟩ := listed_of_symbol listed
    exact ⟨c, rest ++ more, by rw [htext]; rfl, covers_symbol listed htext hc more⟩

/-- A symbol is a lexeme without a value. -/
theorem lexeme_symbol (h : (text, kind) ∈ symbols) : Lexeme text kind (literal kind text) := by
  obtain ⟨hs, hn, -⟩ := symbol_kind _ h
  rw [literal_of_ne hs hn]
  exact .symbol h

/-- What is cut as a string is the lexeme of one. -/
theorem lexeme_of_cutString (h : cutString rest = .ok t) :
    Lexeme t.text t.kind (literal t.kind t.text) := by
  have hbody : '"' ∉ rest.takeWhile (· != '"') := by
    intro hmem
    have := List.all_eq_true.mp (List.all_takeWhile (p := (· != '"')) (l := rest)) _ hmem
    simp at this
  unfold cutString at h
  split at h
  · cases h
  · cases h
    have hlexeme := Lexeme.string hbody
    simpa [literal] using hlexeme

/-- A number that is cut off has a fraction or none. -/
theorem lexeme_cutNumber (hc : isDigit c = true) (rest : List Char) :
    Lexeme (cutNumber (c :: rest)).text (cutNumber (c :: rest)).kind
      (literal (cutNumber (c :: rest)).kind (cutNumber (c :: rest)).text) := by
  have hrun : ∀ l : List Char, ∀ d ∈ l.takeWhile isDigit, isDigit d = true :=
    fun l => List.all_eq_true.mp List.all_takeWhile
  have hne : (c :: rest).takeWhile isDigit ≠ [] := by simp [hc]
  have hwhole : Lexeme ((c :: rest).takeWhile isDigit) .number
      (literal .number ((c :: rest).takeWhile isDigit)) := by
    rw [literal_whole (hrun _)]
    exact .whole hne (hrun _)
  unfold cutNumber
  simp only []
  split
  · rename_i d after heq
    split
    · rename_i hd
      have hfraction : ∀ e ∈ d :: after.takeWhile isDigit, isDigit e = true := by
        simpa [hd] using hrun after
      simp only []
      rw [literal_fractional (hrun _)]
      exact .fractional hne (hrun _) (by simp) hfraction
    · exact hwhole
  · exact hwhole

/-- A word that is cut off is a keyword or an identifier. -/
theorem lexeme_cutWord (hc : isWordStart c = true) (rest : List Char) :
    Lexeme (cutWord (c :: rest)).text (cutWord (c :: rest)).kind
      (literal (cutWord (c :: rest)).kind (cutWord (c :: rest)).text) := by
  have hpart : isWordPart c = true := by simp [isWordPart, hc]
  have hword : IsWord ((c :: rest).takeWhile isWordPart) :=
    ⟨⟨c, by simp [hpart], hc⟩, List.all_eq_true.mp List.all_takeWhile⟩
  simp only [cutWord, wordKind]
  cases hlookup : keywords.lookup (String.ofList ((c :: rest).takeWhile isWordPart)) with
  | none =>
    rw [Option.getD_none, literal_of_ne (by decide) (by decide)]
    refine .identifier hword fun kind hmem => ?_
    have hnone := List.lookup_eq_none_iff.mp hlookup _ hmem
    simp at hnone
  | some kind =>
    have hmem := mem_of_lookup hlookup
    obtain ⟨hs, hn, -⟩ := keyword_kind _ hmem
    rw [Option.getD_some, literal_of_ne hs hn]
    exact .keyword hmem

/-- What is cut as a sign, extended or not, is the lexeme of a symbol. -/
theorem lexeme_of_cutExtensible {alone : Option Kind} {pair : Kind}
    (hmem : (c, alone, pair) ∈ extensible) (h : cutExtensible c alone pair rest = .ok t) :
    Lexeme t.text t.kind (literal t.kind t.text) := by
  obtain ⟨hpair, halone⟩ := extensible_symbol _ hmem
  unfold cutExtensible at h
  split at h
  · cases h
    exact lexeme_symbol hpair
  · cases h
    exact lexeme_symbol (halone _ rfl)
  · cases h

/-- What is cut off is a lexeme. -/
theorem lexeme_of_cut (h : cut c rest = .ok t) :
    Lexeme t.text t.kind (literal t.kind t.text) := by
  unfold cut at h
  split at h
  · exact lexeme_of_cutString h
  · split at h
    · rename_i hdigit
      cases h
      exact lexeme_cutNumber hdigit rest
    · split at h
      · rename_i hword
        cases h
        exact lexeme_cutWord hword rest
      · split at h
        · rename_i alone pair hlookup
          exact lexeme_of_cutExtensible (mem_of_lookup hlookup) h
        · split at h
          · rename_i kind hlookup
            cases h
            exact lexeme_symbol (punctuation_symbol _ (mem_of_lookup hlookup))
          · cases h

/-- What is cut off is not shorter than any lexeme at its place. -/
theorem cut_longest (h : cut c rest = .ok t) (hlexeme : Lexeme text kind value)
    (hstands : text <+: c :: rest) : text.length ≤ t.text.length := by
  obtain ⟨more, hmore⟩ := hstands
  obtain ⟨c', rest', heq, t', hcut, hle, -⟩ := hlexeme.covers more
  obtain ⟨rfl, rfl⟩ := List.cons.inj (hmore.symm.trans heq)
  obtain rfl := Except.ok.inj (h.symm.trans hcut)
  exact hle

/-- The longest lexeme at a place is what is cut off there. -/
theorem Lexeme.cut_eq (h : Lexeme text kind value) {more : List Char}
    (hmore : text ++ more = c :: rest)
    (hlongest : ∀ {text' kind' value'}, Lexeme text' kind' value' → text' <+: text ++ more →
      text'.length ≤ text.length) :
    cut c rest = .ok ⟨kind, text, more⟩ ∧ literal kind text = value := by
  obtain ⟨c', rest', heq, t, hcut, hle, hsame⟩ := h.covers more
  obtain ⟨rfl, rfl⟩ := List.cons.inj (hmore.symm.trans heq)
  have hsplit : t.text ++ t.rest = text ++ more := by rw [cut_text hcut, hmore]
  have hge := hlongest (lexeme_of_cut hcut) ⟨t.rest, hsplit⟩
  obtain ⟨htext, hrest⟩ := List.append_inj hsplit (Nat.le_antisymm hge hle)
  obtain ⟨hkind, hvalue⟩ := hsame htext
  refine ⟨?_, hvalue⟩
  rw [hcut, ← hkind, ← htext, ← hrest]

/-- No lexeme marks the end of the input. -/
theorem Lexeme.kind_ne_end (h : Lexeme text kind value) : kind ≠ .endOfInput := by
  cases h with
  | string closed => decide
  | whole nonempty isDigit => decide
  | fractional wholeNonempty wholeDigit fractionNonempty fractionDigit => decide
  | keyword listed => exact (keyword_kind _ listed).2.2
  | identifier isWord unlisted => decide
  | symbol listed => exact (symbol_kind _ listed).2.2

end Cutting

end Moonbridge.Lexer

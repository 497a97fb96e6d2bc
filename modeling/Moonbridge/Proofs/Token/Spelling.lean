import Moonbridge.Token.Lexer

/-!
# The spelling of tokens

A token of a source is spelled as its category says: an identifier is a word, a minus sign is
a hyphen, a number has a value that is neither negative nor undefined, and a string has a text.
-/

namespace Moonbridge

/-- The texts of words. -/
structure Lexer.IsWord (text : List Char) : Prop where
  start : ∃ c ∈ text.head?, isWordStart c = true
  parts : ∀ c ∈ text, isWordPart c = true

/-- A token whose text and value suit its category. -/
def Token.WellSpelled (t : Token) : Prop :=
  match t.kind with
  | .identifier => Lexer.IsWord t.lexeme.toList
  | .minus => t.lexeme = "-"
  | .number => ∃ x : Double, t.literal = .number x ∧ x.negative = false ∧ x.isNaN = false
  | .string => ∃ value, t.literal = .text value
  | _ => True

/-- The categories that say something about the spelling. -/
def Kind.spelled : List Kind := [.identifier, .minus, .number, .string]

/-- A token of a category without a spelling of its own is well spelled. -/
theorem Token.wellSpelled_of_other {t : Token} (h : t.kind ∉ Kind.spelled) : t.WellSpelled := by
  unfold WellSpelled
  split <;> simp_all [Kind.spelled]

namespace Lexer

/-- A decimal has a value that is neither negative nor undefined. -/
theorem toDouble_regular (d : Decimal) :
    d.toDouble.negative = false ∧ d.toDouble.isNaN = false := by
  have hle := Double.magnitudeOfRatio_le (d.coefficient * 10 ^ d.exponent.toNat)
    (10 ^ (-d.exponent).toNat)
  exact ⟨rfl, decide_eq_false (Nat.not_lt.mpr hle)⟩

/-- What a table assigns to a key is listed in it. -/
theorem mem_of_lookup {α β : Type} [BEq α] [LawfulBEq α] {table : List (α × β)} {a : α} {b : β}
    (h : table.lookup a = some b) : (a, b) ∈ table := by
  obtain ⟨before, after, rfl, -⟩ := List.lookup_eq_some_iff.mp h
  simp

/-- A word is well spelled, keyword or not. -/
theorem wellSpelled_word {c : Char} (hc : isWordStart c = true) (rest : List Char) (line : Nat) :
    ((cutWord (c :: rest)).token line).WellSpelled := by
  have hpart : isWordPart c = true := by simp [isWordPart, hc]
  have hword : IsWord ((c :: rest).takeWhile isWordPart) := by
    refine ⟨⟨c, by simp [hpart], hc⟩, ?_⟩
    intro d hd
    exact List.all_eq_true.mp List.all_takeWhile d hd
  have hkeyword : ∀ k ∈ keywords, k.2 ∉ Kind.spelled := by decide
  cases hlookup : keywords.lookup (String.ofList ((c :: rest).takeWhile isWordPart)) with
  | none =>
    simp only [Token.WellSpelled, Cut.token, cutWord, wordKind, hlookup, Option.getD_none,
      String.toList_ofList]
    exact hword
  | some kind =>
    apply Token.wellSpelled_of_other
    simp only [Cut.token, cutWord, wordKind, hlookup, Option.getD_some]
    exact hkeyword _ (mem_of_lookup hlookup)

/-- A number is well spelled. -/
theorem wellSpelled_number (input : List Char) (line : Nat) :
    ((cutNumber input).token line).WellSpelled := by
  have hkind : (cutNumber input).kind = .number := by
    simp only [cutNumber]
    split
    · split <;> rfl
    · rfl
  simp only [Token.WellSpelled, Cut.token, hkind]
  exact ⟨_, rfl, toDouble_regular _⟩

/-- Of the single characters only the hyphen has a category with a spelling. -/
theorem wellSpelled_punctuation {c : Char} {kind : Kind} (h : (c, kind) ∈ punctuation)
    (rest : List Char) (line : Nat) : ((Cut.mk kind [c] rest).token line).WellSpelled := by
  have hminus : ∀ p ∈ punctuation, p.2 ∈ Kind.spelled → p = ('-', .minus) := by decide
  by_cases hkind : kind ∈ Kind.spelled
  · obtain ⟨rfl, rfl⟩ := Prod.mk.inj (hminus _ h hkind)
    rfl
  · exact Token.wellSpelled_of_other hkind

/-- A sign is well spelled, extended or not. -/
theorem wellSpelled_extensible {c : Char} {alone : Option Kind} {pair : Kind} {rest : List Char}
    {t : Cut} (hmem : (c, alone, pair) ∈ extensible) (h : cutExtensible c alone pair rest = .ok t)
    (line : Nat) : (t.token line).WellSpelled := by
  have hkinds : ∀ e ∈ extensible, e.2.2 ∉ Kind.spelled ∧ ∀ k ∈ e.2.1, k ∉ Kind.spelled := by decide
  obtain ⟨hpair, halone⟩ := hkinds _ hmem
  unfold cutExtensible at h
  split at h
  · cases h
    exact Token.wellSpelled_of_other hpair
  · cases h
    exact Token.wellSpelled_of_other (halone _ rfl)
  · cases h

/-- Every token that is cut off is well spelled. -/
theorem wellSpelled_of_cut {c : Char} {rest : List Char} {t : Cut} (h : cut c rest = .ok t)
    (line : Nat) : (t.token line).WellSpelled := by
  unfold cut at h
  split at h
  · unfold cutString at h
    split at h
    · cases h
    · cases h
      exact ⟨_, rfl⟩
  · split at h
    · cases h
      exact wellSpelled_number (c :: rest) line
    · split at h
      · rename_i hword
        cases h
        exact wellSpelled_word hword rest line
      · split at h
        · rename_i alone pair hlookup
          exact wellSpelled_extensible (mem_of_lookup hlookup) h line
        · split at h
          · rename_i kind hlookup
            cases h
            exact wellSpelled_punctuation (mem_of_lookup hlookup) rest line
          · cases h

/-- The tokens of a source are well spelled if those read so far are. -/
theorem wellSpelled_of_scan {line : Nat} {input : List Char} {done tokens : List Token}
    (h : scan line input done = .ok tokens) (hdone : ∀ t ∈ done, t.WellSpelled) :
    ∀ t ∈ tokens, t.WellSpelled := by
  fun_induction scan line input done with
  | case1 line done =>
    obtain rfl := Except.ok.inj h
    simp only [List.mem_reverse, List.mem_cons, forall_eq_or_imp]
    exact ⟨trivial, hdone⟩
  | case2 line done rest ih => exact ih h hdone
  | case3 line done c rest hc hblank ih => exact ih h hdone
  | case4 line done c rest hc hblank hcomment ih => exact ih h hdone
  | case5 line done c rest hc hblank hcomment problem hcut => cases h
  | case6 line done c rest hc hblank hcomment t hcut ih =>
    apply ih h
    simp only [List.mem_cons, forall_eq_or_imp]
    exact ⟨wellSpelled_of_cut hcut line, hdone⟩

end Lexer

/-- The tokens of a source are well spelled. -/
theorem wellSpelled_of_tokenize {source : String} {tokens : List Token}
    (h : tokenize source = .ok tokens) : ∀ t ∈ tokens, t.WellSpelled :=
  Lexer.wellSpelled_of_scan h (by simp)

end Moonbridge

import Moonbridge.Proofs.Json.Printed

/-!
# Printed texts that are no documents

What is printed for an infinity and for what is not a number is no text of the grammar, and a reader
refuses it. It comes to the first such number through parts that it can read, so that it refuses the
whole text. A printed text is therefore a document exactly if all numbers in it are finite.
-/

namespace Moonbridge.Json

open JavaScript (advance advance_some)

/-- A text is not read as a value, whatever stands behind it. -/
def Refused (text : List Char) : Prop := ∀ rest, Ends rest → readValue (text ++ rest) = none

section Numbers

/-- The texts of the numbers that are not finite. -/
def improper : List (List Char) := ["NaN".toList, "Infinity".toList, "-Infinity".toList]

/-- A number that is not finite is written as one of the words that no grammar knows. -/
theorem improper_write {x : Double} (h : x.isFinite = false) :
    (numberFormat.write x).toList ∈ improper := by
  have hzero := Double.isZero_of_not_isFinite h
  cases hnan : x.isNaN with
  | true => simp [NumberFormat.write, hnan, improper]
  | false =>
    have hinfinite : x.isInfinite = true := by
      rw [← Bool.not_eq_false]
      intro hinfinite
      rw [Double.isFinite_iff.mpr ⟨hnan, hinfinite⟩] at h
      cases h
    cases hsign : x.negative <;>
      simp [NumberFormat.write, hnan, hinfinite, hzero, hsign, improper]

/-- No word starts like the text of such a number, and behind a minus there is no digit. -/
theorem refused_improper {text : List Char} (h : text ∈ improper) : Refused text := by
  intro rest _
  simp only [improper, List.mem_cons, List.not_mem_nil, or_false] at h
  rcases h with rfl | rfl | rfl
  · simp [readValue, readWord, words]
  · simp [readValue, readWord, words]
  · simp [readValue, readNumber, readSign, readDigits]

/-- The texts of the numbers that are not finite start as values may start. -/
theorem head_improper {text : List Char} (h : text ∈ improper) :
    ∃ c tail, text = c :: tail ∧ c ∉ outside := by
  simp only [improper, List.mem_cons, List.not_mem_nil, or_false] at h
  rcases h with rfl | rfl | rfl
  · exact ⟨'N', _, rfl, by decide⟩
  · exact ⟨'I', _, rfl, by decide⟩
  · exact ⟨'-', _, rfl, by decide⟩

end Numbers

section Values

variable {layout : Layout} {level : Nat} {before after : List Char}

/-- A printed value starts with a character of its own. -/
theorem head_render (layout : Layout) (level : Nat) (value : Json) :
    ∃ c tail, (render layout level value).toList = c :: tail ∧ c ∉ outside := by
  by_cases hfinite : value.Finite
  · exact head_value (denotes_render layout level hfinite)
  · cases value with
    | null | bool | int | string => exact absurd (by simp [Finite]) hfinite
    | number x =>
      have hx : x.isFinite = false := by simpa [Finite] using hfinite
      exact head_improper (improper_write hx)
    | array items =>
      have hne : items ≠ [] := by
        rintro rfl
        exact hfinite (finite_array.mpr (by simp))
      rw [toList_render_array hne]
      exact ⟨'[', _, rfl, by decide⟩
    | object members =>
      have hne : members ≠ [] := by
        rintro rfl
        exact hfinite (finite_object.mpr (by simp))
      rw [toList_render_object hne]
      exact ⟨'\x7b', _, rfl, by decide⟩

/-- A written value opens as a value does, behind a gap or without one. -/
theorem opens_render (hbefore : Blank before) (value : Json) :
    Opens (before ++ (render layout level value).toList) := by
  obtain ⟨c, tail, htext, hc⟩ := head_render layout level value
  rw [htext]
  exact opens_of_blank hbefore hc tail

/-- A value that is refused is refused with blanks in front of it. -/
theorem readElement_refused {rest : List Char} {value : Json} (hbefore : Blank before)
    (h : Refused (render layout level value).toList) (hrest : Ends rest) :
    readElement (before ++ (render layout level value).toList ++ rest) = none := by
  obtain ⟨c, tail, htext, hc⟩ := head_render layout level value
  rw [htext] at h ⊢
  have hskip : skipBlanks (before ++ (c :: tail) ++ rest) = c :: tail ++ rest := by
    rw [List.append_assoc]
    exact skipBlanks_append hbefore (stops_cons (fun h => hc (List.mem_append_left _ h)) _)
  rw [readElement, hskip, h rest hrest]
  rfl

/-- A value with finite numbers is read up to the comma behind it. -/
theorem readElement_finite {value : Json} (hbefore : Blank before) (h : value.Finite)
    (rest : List Char) :
    readElement (before ++ (render layout level value).toList ++ ',' :: rest) =
      some (value, ',' :: rest) := by
  have hdenotes := Denotes.element hbefore (denotes_render layout level h) blank_nil
  have hread := hdenotes.read (',' :: rest) (closes_cons (by simp) rest)
  simpa using hread

/-- Where no first element can be read, no items can. -/
theorem readItems_of_none {input : List Char} (h : readElement input = none) :
    readItems input = none := by
  rw [readItems, h]
  rfl

/-- The items of an array are refused with the first of them that is. -/
theorem readItems_refused {items : List Json}
    (h : ∀ item ∈ items, ¬ item.Finite → Refused (render layout level item).toList)
    (himproper : ∃ item ∈ items, ¬ item.Finite) (hbefore : Blank before) (hafter : Blank after)
    (rest : List Char) :
    readItems (before ++ itemsText layout level items ++ after ++ ']' :: rest) = none := by
  have hspace := blank_space layout level
  induction items generalizing before with
  | nil => simp at himproper
  | cons item items ih =>
    have hitem : ¬ item.Finite → ∀ tail, Ends tail →
        readItems (before ++ (render layout level item).toList ++ tail) = none :=
      fun himproper tail htail => readItems_of_none
        (readElement_refused hbefore (h item List.mem_cons_self himproper) htail)
    cases items with
    | nil =>
      have hends : Ends (after ++ ']' :: rest) := (closes_cons (by simp) rest).ends hafter
      rw [itemsText_singleton, List.append_assoc _ after]
      exact hitem (by simpa using himproper) _ hends
    | cons second others =>
      have htext : before ++ itemsText layout level (item :: second :: others) ++ after ++
          ']' :: rest = before ++ (render layout level item).toList ++ ',' ::
            (layout.space level ++ itemsText layout level (second :: others) ++ after ++
              ']' :: rest) := by
        simp [itemsText_cons]
      rw [htext]
      by_cases hfinite : item.Finite
      · have hothers : ∃ v ∈ second :: others, ¬ v.Finite := by
          simpa [hfinite] using himproper
        have hrest := ih (fun v hv => h v (List.mem_cons_of_mem _ hv)) hothers hspace
        rw [readItems_comma (opens_render hbefore item) (readElement_finite hbefore hfinite _),
          hrest]
        rfl
      · exact hitem hfinite _ ((closes_cons (by simp) _).ends blank_nil)

/-- Where no first value can be read behind its name, no members can. -/
theorem readMembers_of_none {name input : List Char} {key : String} (hname : Name name key)
    (h : readElement input = none) : readMembers (name ++ ':' :: input) = none := by
  rw [readMembers, hname.readName_eq, advance_some (hname.opens.length_lt _)]
  simp [behind?_self, h, advance]

/-- The members of an object are refused with the first of them that is. -/
theorem readMembers_refused {members : List (String × Json)}
    (h : ∀ member ∈ members, ¬ member.2.Finite → Refused (render layout level member.2).toList)
    (himproper : ∃ member ∈ members, ¬ member.2.Finite) (hbefore : Blank before)
    (hafter : Blank after) (rest : List Char) :
    readMembers (before ++ membersText layout level members ++ after ++ '\x7d' :: rest) =
      none := by
  have hcolon : Blank [' '] := by simp [Blank, blanks]
  have hspace := blank_space layout level
  induction members generalizing before with
  | nil => simp at himproper
  | cons member members ih =>
    obtain ⟨key, value⟩ := member
    have hname := name_quoted hbefore key
    have hvalue : ¬ value.Finite → ∀ tail, Ends tail →
        readMembers (before ++ (quoted key).toList ++ [] ++
          ':' :: ([' '] ++ (render layout level value).toList ++ tail)) = none :=
      fun himproper tail htail => readMembers_of_none hname
        (readElement_refused hcolon (h (key, value) List.mem_cons_self himproper) htail)
    cases members with
    | nil =>
      have hends : Ends (after ++ '\x7d' :: rest) := (closes_cons (by simp) rest).ends hafter
      have hread := hvalue (by simpa using himproper) _ hends
      rw [membersText_singleton]
      simpa using hread
    | cons second others =>
      have htext : before ++ membersText layout level ((key, value) :: second :: others) ++
          after ++ '\x7d' :: rest = before ++ (quoted key).toList ++ [] ++
            ':' :: ([' '] ++ (render layout level value).toList ++ ',' ::
              (layout.space level ++ membersText layout level (second :: others) ++ after ++
                '\x7d' :: rest)) := by
        simp [membersText_cons]
      rw [htext]
      by_cases hfinite : value.Finite
      · have hothers : ∃ m ∈ second :: others, ¬ m.2.Finite := by
          simpa [hfinite] using himproper
        have hrest := ih (fun m hm => h m (List.mem_cons_of_mem _ hm)) hothers hspace
        rw [readMembers_comma hname (opens_render hcolon value)
          (readElement_finite hcolon hfinite _), hrest]
        rfl
      · exact hvalue hfinite _ ((closes_cons (by simp) _).ends blank_nil)

/-- The items of an array start with a character of a value. -/
theorem opens_itemsText {items : List Json} (hne : items ≠ []) (hbefore : Blank before)
    (after : List Char) : Opens (before ++ itemsText layout level items ++ after) := by
  have hfirst : ∃ item tail,
      itemsText layout level items = (render layout level item).toList ++ tail := by
    match items with
    | [] => exact absurd rfl hne
    | [item] => exact ⟨item, [], by rw [itemsText_singleton, List.append_nil]⟩
    | item :: second :: others => exact ⟨item, _, itemsText_cons item second others⟩
  obtain ⟨item, tail, htext⟩ := hfirst
  have hopens : Opens (before ++ (render layout level item).toList) := opens_render hbefore item
  rw [htext]
  simpa using hopens.append (tail ++ after)

/-- The members of an object start with a quote. -/
theorem opens_membersText {members : List (String × Json)} (hne : members ≠ [])
    (hbefore : Blank before) (after : List Char) :
    Opens (before ++ membersText layout level members ++ after) := by
  have hfirst : ∃ tail, membersText layout level members = '"' :: tail := by
    match members with
    | [] => exact absurd rfl hne
    | [(key, value)] =>
      rw [membersText_singleton, quoted, String.toList_ofList]
      exact ⟨_, rfl⟩
    | (key, value) :: second :: others =>
      rw [membersText_cons, quoted, String.toList_ofList]
      exact ⟨_, rfl⟩
  obtain ⟨tail, htext⟩ := hfirst
  rw [htext]
  have hopens := opens_of_blank hbefore (by decide : '"' ∉ outside) (tail ++ after)
  simpa using hopens

/-- The text of a value with a number that is not finite is refused. -/
theorem refused_render (layout : Layout) (level : Nat) {value : Json} (h : ¬ value.Finite) :
    Refused (render layout level value).toList := by
  induction value using Json.induction_on generalizing level with
  | null | bool | int | string => exact absurd (by simp [Finite]) h
  | number x =>
    have hx : x.isFinite = false := by simpa [Finite] using h
    exact refused_improper (improper_write hx)
  | array items ih =>
    have himproper : ∃ item ∈ items, ¬ item.Finite := by simpa [finite_array] using h
    have hne : items ≠ [] := List.ne_nil_of_mem himproper.choose_spec.1
    intro rest _
    have hread := readItems_refused (fun item hitem => ih item hitem (level + 1)) himproper
      (blank_gap layout (level + 1)) (blank_gap layout level) rest
    have hopens : Opens ((layout.gap (level + 1)).toList ++ itemsText layout (level + 1) items ++
        (layout.gap level).toList) := opens_itemsText hne (blank_gap _ _) _
    have hvalue := readValue_array hopens rest
    rw [hread] at hvalue
    rw [toList_render_array hne]
    simpa using hvalue
  | object members ih =>
    have himproper : ∃ member ∈ members, ¬ member.2.Finite := by simpa [finite_object] using h
    have hne : members ≠ [] := List.ne_nil_of_mem himproper.choose_spec.1
    intro rest _
    have hread := readMembers_refused (fun member hmember => ih member hmember (level + 1))
      himproper (blank_gap layout (level + 1)) (blank_gap layout level) rest
    have hopens : Opens ((layout.gap (level + 1)).toList ++
        membersText layout (level + 1) members ++ (layout.gap level).toList) :=
      opens_membersText hne (blank_gap _ _) _
    have hvalue := readValue_object hopens rest
    rw [hread] at hvalue
    rw [toList_render_object hne]
    simpa using hvalue

end Values

section Documents

variable {layout : Layout} {value : Json}

/-- A value with finite numbers is printed as a document that denotes it. -/
theorem document_print (h : value.Finite) : Document (print layout value) value := by
  have hdenotes := Denotes.element blank_nil (denotes_render layout 0 h) blank_nil
  simpa [Document, print] using hdenotes

/-- A value with a number that is not finite has no text that can be read. -/
theorem decode_print_eq_none (h : ¬ value.Finite) : decode (print layout value) = none := by
  have hends : Ends [] := by simp [Ends]
  have hread := readElement_refused blank_nil (refused_render layout 0 h) hends
  simp only [List.nil_append, List.append_nil] at hread
  rw [decode, print, hread]
  rfl

/-- A printed text denotes the value it was printed from, if the numbers in it are finite, and
nothing else. -/
theorem document_print_iff {value' : Json} :
    Document (print layout value) value' ↔ value' = value ∧ value.Finite := by
  constructor
  · intro h
    by_cases hfinite : value.Finite
    · exact ⟨h.unique (document_print hfinite), hfinite⟩
    · have hdecode := decode_of_document h
      rw [decode_print_eq_none hfinite] at hdecode
      cases hdecode
  · rintro ⟨rfl, hfinite⟩
    exact document_print hfinite

/-- What is read from a printed text is what the text denotes. -/
theorem decode_print_iff {value' : Json} :
    decode (print layout value) = some value' ↔ Document (print layout value) value' := by
  refine ⟨fun h => ?_, decode_of_document⟩
  by_cases hfinite : value.Finite
  · have hdocument : Document (print layout value) value := document_print hfinite
    obtain rfl := Option.some.inj (h.symm.trans (decode_of_document hdocument))
    exact hdocument
  · rw [decode_print_eq_none hfinite] at h
    cases h

end Documents

end Moonbridge.Json

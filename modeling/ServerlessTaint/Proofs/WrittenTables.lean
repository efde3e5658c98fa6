import ServerlessTaint.Csv
import ServerlessTaint.Proofs.Keyed

/-!
# Tables that are written and read

A table that is written row by row is read as the same rows, whatever commas, quotes and line ends its
fields hold (`rows_written`). Reading a file as text makes `\n` of every line end, so a field is read with
`\n` for each of its line ends as well; a field without `\r` is read as it was. A record made of such a row
has its fields under their names, and is written as that row again.
-/

namespace ServerlessTaint

open List Text

namespace Text

/-! ## Line ends -/

theorem normalizeNewlines_cons {c : Char} (h : c ≠ '\r') (rest : List Char) :
    normalizeNewlines (c :: rest) = c :: normalizeNewlines rest := by
  rw [normalizeNewlines.eq_def]
  split <;> simp_all

variable {rest cs : List Char}

theorem normalizeNewlines_return (h : rest.head? ≠ some '\n') :
    normalizeNewlines ('\r' :: rest) = '\n' :: normalizeNewlines rest := by
  cases rest with
  | nil => rfl
  | cons c rest =>
    have hc : c ≠ '\n' := by simpa using h
    rw [normalizeNewlines.eq_def]
    simp [hc]

theorem normalizeNewlines_returnNewline (rest : List Char) :
    normalizeNewlines ('\r' :: '\n' :: rest) = '\n' :: normalizeNewlines rest := rfl

/-- A text is made of line ends, of which `\r\n` is one, and of other characters. -/
theorem newlines_induction {motive : List Char → Prop} (nil : motive [])
    (returnNewline : ∀ rest, motive rest → motive ('\r' :: '\n' :: rest))
    (onlyReturn : ∀ rest : List Char, rest.head? ≠ some '\n' → motive rest → motive ('\r' :: rest))
    (other : ∀ c rest, c ≠ '\r' → motive rest → motive (c :: rest)) (cs : List Char) : motive cs := by
  fun_induction normalizeNewlines cs with
  | case1 => exact nil
  | case2 rest ih => exact returnNewline rest ih
  | case3 rest hno ih =>
    refine onlyReturn rest ?_ ih
    intro hhead
    obtain ⟨tail, rfl⟩ := head?_eq_some_iff.1 hhead
    exact hno tail rfl
  | case4 c rest _ hc ih =>
    refine other c rest ?_ ih
    rintro rfl
    exact hc rfl

theorem normalizeNewlines_of_not_mem (h : '\r' ∉ cs) : normalizeNewlines cs = cs := by
  induction cs with
  | nil => rfl
  | cons c rest ih =>
    rw [mem_cons, not_or] at h
    rw [normalizeNewlines_cons (Ne.symm h.1), ih h.2]

theorem normalizeNewlines_eq_nil_iff : normalizeNewlines cs = [] ↔ cs = [] := by
  induction cs using newlines_induction with
  | nil => exact iff_of_true rfl rfl
  | returnNewline rest => simp [normalizeNewlines_returnNewline]
  | onlyReturn rest h => simp [normalizeNewlines_return h]
  | other c rest h => simp [normalizeNewlines_cons h]

theorem not_mem_normalizeNewlines (cs : List Char) : '\r' ∉ normalizeNewlines cs := by
  induction cs using newlines_induction with
  | nil => exact not_mem_nil
  | returnNewline rest ih => simpa [normalizeNewlines_returnNewline] using ih
  | onlyReturn rest h ih => simpa [normalizeNewlines_return h] using ih
  | other c rest h ih => simpa [normalizeNewlines_cons h, Ne.symm h] using ih

/-- A text without `\r` is read as it is. -/
theorem readAsText_of_not_mem {s : String} (h : '\r' ∉ s.toList) : readAsText s = s := by
  rw [readAsText, normalizeNewlines_of_not_mem h, String.ofList_toList]

/-- A text that was read has no `\r` left. -/
theorem readAsText_readAsText (s : String) : readAsText (readAsText s) = readAsText s :=
  readAsText_of_not_mem (by rw [readAsText, String.toList_ofList]; exact not_mem_normalizeNewlines _)

/-- Parts of a text are read apart, unless a `\r\n` stands across them. -/
theorem normalizeNewlines_append {first : List Char} (h : first.getLast? = some '\r' → rest.head? ≠ some '\n') :
    normalizeNewlines (first ++ rest) = normalizeNewlines first ++ normalizeNewlines rest := by
  have htail : ∀ {c : Char} {cs : List Char}, ((c :: cs).getLast? = some '\r' → rest.head? ≠ some '\n') →
      cs.getLast? = some '\r' → rest.head? ≠ some '\n' := by
    intro c cs hcs hlast
    apply hcs
    simp [getLast?_cons, hlast]
  induction first using newlines_induction with
  | nil => rfl
  | returnNewline first ih =>
    rw [cons_append, cons_append, normalizeNewlines_returnNewline, ih (htail (htail h)),
      normalizeNewlines_returnNewline, cons_append]
  | onlyReturn first hfirst ih =>
    have hhead : (first ++ rest).head? ≠ some '\n' := by
      cases first with
      | nil => exact h rfl
      | cons c first => exact hfirst
    rw [cons_append, normalizeNewlines_return hhead, ih (htail h), normalizeNewlines_return hfirst,
      cons_append]
  | other c first hc ih =>
    rw [cons_append, normalizeNewlines_cons hc, ih (htail h), normalizeNewlines_cons hc, cons_append]

end Text

namespace Csv

open Text (normalizeNewlines)

/-! ## Fields -/

/-- Whether a field needs quotes does not depend on how its line ends are written. -/
theorem any_isSpecial_normalizeNewlines (field : List Char) :
    (normalizeNewlines field).any isSpecial = field.any isSpecial := by
  induction field using newlines_induction with
  | nil => rfl
  | returnNewline rest => rfl
  | onlyReturn rest h => rw [normalizeNewlines_return h]; rfl
  | other c rest h ih => rw [normalizeNewlines_cons h, any_cons, any_cons, ih]

theorem head?_doubleQuotes (field : List Char) : (doubleQuotes field).head? = field.head? := by
  cases field with
  | nil => rfl
  | cons c rest =>
    rw [doubleQuotes]
    split
    · rename_i hc
      simp [hc]
    · rfl

theorem normalizeNewlines_doubleQuotes (field : List Char) :
    normalizeNewlines (doubleQuotes field) = doubleQuotes (normalizeNewlines field) := by
  induction field using newlines_induction with
  | nil => rfl
  | returnNewline rest ih => simp [doubleQuotes, normalizeNewlines_returnNewline, ih]
  | onlyReturn rest h ih =>
    have hhead : (doubleQuotes rest).head? ≠ some '\n' := by rwa [head?_doubleQuotes]
    simp [doubleQuotes, normalizeNewlines_return h, normalizeNewlines_return hhead, ih]
  | other c rest h ih =>
    by_cases hquote : c = '"'
    · simp [doubleQuotes, hquote, normalizeNewlines_cons, ih]
    · simp [doubleQuotes, hquote, normalizeNewlines_cons h, ih]

variable {c : Char} {place : Place} {field text : List Char}

/-- A field without commas, quotes and line ends is written as it is. -/
theorem not_mem_of_plain (h : ¬ field.any isSpecial) (hc : isSpecial c) : c ∉ field := by
  intro hmem
  exact h (any_eq_true.2 ⟨c, hmem, hc⟩)

/-- The text of a field is read as the text of the field with its line ends read. -/
theorem normalizeNewlines_fieldText (field : List Char) :
    normalizeNewlines (fieldText field) = fieldText (normalizeNewlines field) := by
  unfold fieldText
  rw [any_isSpecial_normalizeNewlines]
  split
  · have hclosed : normalizeNewlines (doubleQuotes field ++ ['"']) =
        doubleQuotes (normalizeNewlines field) ++ ['"'] := by
      rw [normalizeNewlines_append (by simp), normalizeNewlines_doubleQuotes]
      rfl
    rw [quotedField, cons_append, normalizeNewlines_cons (by decide), hclosed]
    rfl
  · rfl

/-- The text of a field does not end with `\r`. -/
theorem getLast?_fieldText (field : List Char) : (fieldText field).getLast? ≠ some '\r' := by
  unfold fieldText
  split
  · rw [quotedField, getLast?_concat]
    decide
  · rename_i hplain
    intro hlast
    exact not_mem_of_plain hplain (by decide : isSpecial '\r') (mem_of_getLast? hlast)

theorem getLast?_fieldTexts (fields : List (List Char)) : (fieldTexts fields).getLast? ≠ some '\r' := by
  fun_induction fieldTexts fields with
  | case1 => simp
  | case2 field => exact getLast?_fieldText field
  | case3 field fields _ ih =>
    cases hlast : (fieldTexts fields).getLast? <;> simp_all [getLast?_append, getLast?_cons]

/-- The texts of the fields of a row are read as those of the fields with their line ends read. -/
theorem normalizeNewlines_fieldTexts (fields : List (List Char)) :
    normalizeNewlines (fieldTexts fields) = fieldTexts (fields.map normalizeNewlines) := by
  fun_induction fieldTexts fields with
  | case1 => rfl
  | case2 field => exact normalizeNewlines_fieldText field
  | case3 field fields hne ih =>
    rw [normalizeNewlines_append (by simp [getLast?_fieldText]), normalizeNewlines_fieldText,
      normalizeNewlines_cons (by decide), ih, map_cons, fieldTexts]
    simpa using hne

/-! ## Reading a row -/

/-- A field is read up to its closing quote. -/
theorem rowsFrom_quoted (row : List String) (field text rest : List Char) :
    rowsFrom .quoted row field (doubleQuotes text ++ '"' :: rest) = rowsFrom .afterQuote row (field ++ text) rest := by
  induction text generalizing field with
  | nil => simp [doubleQuotes, rowsFrom]
  | cons c text ih =>
    by_cases hc : c = '"' <;> simp [doubleQuotes, hc, rowsFrom, ih]

theorem not_special_cons (h : ¬ (c :: text).any isSpecial) : c ≠ ',' ∧ c ≠ '"' ∧ c ≠ '\n' ∧ ¬ text.any isSpecial := by
  rw [any_cons, Bool.or_eq_true, not_or] at h
  refine ⟨?_, ?_, ?_, h.2⟩ <;> rintro rfl <;> exact h.1 rfl

/-- A field without quotes is read up to the next comma or line end. -/
theorem rowsFrom_plain (h : ¬ text.any isSpecial) (row : List String) (field rest : List Char) :
    rowsFrom .plain row field (text ++ rest) = rowsFrom .plain row (field ++ text) rest := by
  induction text generalizing field with
  | nil => simp
  | cons c text ih =>
    obtain ⟨hcomma, -, hend, htext⟩ := not_special_cons h
    rw [cons_append, rowsFrom, if_neg hend, if_neg hcomma, ih htext, append_assoc]
    rfl

def Place.Begins (place : Place) : Prop := place = .rowStart ∨ place = .fieldStart

section

variable (hplace : place.Begins)

include hplace

theorem rowsFrom_openingQuote (row : List String) (rest : List Char) :
    rowsFrom place row [] ('"' :: rest) = rowsFrom .quoted row [] rest := by
  rcases hplace with rfl | rfl <;> rfl

/-- After a field that is not empty it does not matter whether it stood in quotes. -/
theorem rowsFrom_field (row : List String) (hfield : field ≠ []) (hc : c = ',' ∨ c = '\n') (rest : List Char) :
    rowsFrom place row [] (fieldText field ++ c :: rest) = rowsFrom .plain row field (c :: rest) := by
  unfold fieldText
  split
  · have hclosed : rowsFrom .afterQuote row field (c :: rest) = rowsFrom .plain row field (c :: rest) := by
      rcases hc with rfl | rfl <;> rfl
    rw [quotedField, cons_append, cons_append, append_assoc, singleton_append,
      rowsFrom_openingQuote hplace, rowsFrom_quoted, nil_append, hclosed]
  · rename_i hplain
    obtain ⟨d, text, rfl⟩ := exists_cons_of_ne_nil hfield
    obtain ⟨hcomma, hquote, hend, htext⟩ := not_special_cons hplain
    have hfirst : rowsFrom place row [] (d :: (text ++ c :: rest)) =
        rowsFrom .plain row [d] (text ++ c :: rest) := by
      rcases hplace with rfl | rfl <;> simp [rowsFrom, hcomma, hquote, hend]
    rw [cons_append, hfirst, rowsFrom_plain htext]
    rfl

theorem rowsFrom_field_comma (row : List String) (field rest : List Char) :
    rowsFrom place row [] (fieldText field ++ ',' :: rest) =
      rowsFrom .fieldStart (row ++ [String.ofList field]) [] rest := by
  by_cases hfield : field = []
  · subst hfield
    rcases hplace with rfl | rfl <;> rfl
  · rw [rowsFrom_field hplace row hfield (.inl rfl)]
    rfl

/-- A line end after a field ends the row, unless nothing stands on the line. -/
theorem rowsFrom_field_end (row : List String) (hfield : place = .fieldStart ∨ field ≠ []) (rest : List Char) :
    rowsFrom place row [] (fieldText field ++ '\n' :: rest) =
      (row ++ [String.ofList field]) :: rowsFrom .rowStart [] [] rest := by
  by_cases hnil : field = []
  · subst hnil
    obtain rfl := hfield.resolve_right (by simp)
    rfl
  · rw [rowsFrom_field hplace row hnil (.inr rfl)]
    rfl

/-- A row with fields is read to its line end. -/
theorem rowsFrom_fieldTexts (row : List String) {fields : List (List Char)}
    (hfields : place = .fieldStart ∨ field :: fields ≠ [[]]) (rest : List Char) :
    rowsFrom place row [] (fieldTexts (field :: fields) ++ '\n' :: rest) =
      (row ++ (field :: fields).map String.ofList) :: rowsFrom .rowStart [] [] rest := by
  induction fields generalizing place row field with
  | nil => exact rowsFrom_field_end hplace row (by simpa using hfields) rest
  | cons next fields ih =>
    rw [fieldTexts, append_assoc, cons_append, rowsFrom_field_comma hplace,
      ih (.inr rfl) _ (.inl rfl)]
    · simp
    · simp

end

/-! ## Tables -/

/-- A row as it stands in a file that is read. -/
theorem normalizeNewlines_rowText (row : List String) (rest : List Char) :
    normalizeNewlines ((rowText row).toList ++ rest) =
      (if row = [""] then ['"', '"'] else fieldTexts (row.map fun field => normalizeNewlines field.toList)) ++
        '\n' :: normalizeNewlines rest := by
  rw [rowText, String.toList_ofList, append_assoc]
  split
  · rfl
  · rw [normalizeNewlines_append (by simp [getLast?_fieldTexts]), normalizeNewlines_fieldTexts, map_map]
    rfl

theorem rowsFrom_rowText (row : List String) (rest : List Char) :
    rowsFrom .rowStart [] [] (normalizeNewlines ((rowText row).toList ++ rest)) =
      row.map readAsText :: rowsFrom .rowStart [] [] (normalizeNewlines rest) := by
  rw [normalizeNewlines_rowText]
  split
  · rename_i hrow
    subst hrow
    rfl
  · rename_i hrow
    cases row with
    | nil => rfl
    | cons field fields =>
      have hne : normalizeNewlines field.toList :: fields.map (fun field => normalizeNewlines field.toList) ≠ [[]] := by
        intro heq
        rw [cons.injEq, normalizeNewlines_eq_nil_iff, map_eq_nil_iff, String.toList_eq_nil_iff] at heq
        exact hrow (by rw [heq.1, heq.2])
      rw [map_cons, rowsFrom_fieldTexts (.inl rfl) [] (.inr hne)]
      simp [readAsText]

/-- A table is read as it was written, with `\n` for every line end in its fields. -/
theorem rows_written (table : List (List String)) :
    rows (readAsText (String.join (table.map rowText))) = table.map (·.map readAsText) := by
  rw [rows, readAsText, String.toList_ofList, String.toList_join]
  induction table with
  | nil => rfl
  | cons row table ih =>
    rw [map_cons, flatMap_cons, rowsFrom_rowText, ih, map_cons]

/-- A table that was written is read with names for its fields. -/
theorem sheet_written (names : List String) {table : List (List String)} (h : ∀ row ∈ table, row ≠ []) :
    Sheet.ofText (readAsText (String.join ((names :: table).map rowText))) =
      ⟨some (names.map readAsText),
        table.map fun row => Record.ofRow (names.map readAsText) (row.map readAsText)⟩ := by
  have hfilter : (table.map (·.map readAsText)).filter (fun row => !row.isEmpty) =
      table.map (·.map readAsText) := by
    refine filter_eq_self.2 fun row hrow => ?_
    obtain ⟨written, hwritten, rfl⟩ := mem_map.1 hrow
    simpa using h written hwritten
  rw [Sheet.ofText, rows_written, map_cons]
  simp [hfilter]

/-- A row that has been begun has a field. -/
theorem exists_rowsFrom_cons (hplace : place ≠ .rowStart) (row : List String) (field cs : List Char) :
    ∃ first rest, rowsFrom place row field cs = first :: rest ∧ first ≠ [] := by
  induction cs generalizing place row field with
  | nil => cases place <;> simp_all [rowsFrom]
  | cons c cs ih =>
    cases place with
    | rowStart => exact absurd rfl hplace
    | fieldStart | plain | quoted | afterQuote =>
      rw [rowsFrom]
      repeat' split
      all_goals first | exact ih (by decide) _ _ | simp

/-- What stands in the first row: there is none in an empty text, and it is empty if the text begins with a
line end. -/
theorem names_cases (text : String) :
    (text = "" ∧ (Sheet.ofText text).names = none) ∨
      (text.toList.head? = some '\n' ∧ (Sheet.ofText text).names = some []) ∨
      (text ≠ "" ∧ text.toList.head? ≠ some '\n' ∧ ∃ names, (Sheet.ofText text).names = some names ∧ names ≠ []) := by
  cases htext : text.toList with
  | nil =>
    obtain rfl := String.toList_eq_nil_iff.1 htext
    exact .inl ⟨rfl, rfl⟩
  | cons c cs =>
    have hne : text ≠ "" := by
      rintro rfl
      cases htext
    by_cases hc : c = '\n'
    · subst hc
      exact .inr (.inl ⟨rfl, by simp [Sheet.ofText, rows, htext, rowsFrom]⟩)
    · obtain ⟨first, rest, hrows, hfirst⟩ : ∃ first rest, rows text = first :: rest ∧ first ≠ [] := by
        rw [rows, htext, rowsFrom, if_neg hc]
        split
        · exact exists_rowsFrom_cons (by decide) _ _ _
        · split <;> exact exists_rowsFrom_cons (by decide) _ _ _
      exact .inr (.inr ⟨hne, by simpa using hc, first, by simp [Sheet.ofText, hrows], hfirst⟩)

/-! ## Records -/

namespace Record

variable {names row : List String} (hnames : names.Nodup) (hlength : names.length = row.length)

include hnames hlength

/-- A row with a field for each name is the record of these fields. -/
theorem ofRow_eq : ofRow names row = ⟨names.zip (row.map some), []⟩ := by
  have hkeys : (Keyed.keys (names.zip (row.map some))).Nodup := by
    rw [Keyed.keys, map_fst_zip (by simp [hlength])]
    exact hnames
  simp [ofRow, hlength, Keyed.ofEntries_eq_self hkeys]

theorem map_find?_ofRow :
    names.map (fun name => Keyed.find? name (ofRow names row).values) = row.map fun field => some (some field) := by
  have hfind := Keyed.map_find?_zip hnames (show names.length = (row.map some).length by simpa using hlength)
  rw [ofRow_eq hnames hlength, hfind, map_map]
  rfl

/-- The fields of a row stand under their names. -/
theorem get_ofRow {i : Nat} {name field : String} (hname : names[i]? = some name) (hfield : row[i]? = some field) :
    (ofRow names row).get name = .ok (some field) := by
  have hfind := congrArg (·[i]?) (map_find?_ofRow hnames hlength)
  simp only [getElem?_map, hname, hfield, Option.map_some, Option.some.injEq] at hfind
  rw [get, hfind]

/-- A record of a row is written as that row. -/
theorem rowText_ofRow : rowText names (ofRow names row) = .ok (Csv.rowText row) := by
  have hfields : names.map (fun name => ((Keyed.find? name (ofRow names row).values).getD none).getD "") = row := by
    have hfind := congrArg (map fun found : Option (Option String) => (found.getD none).getD "")
      (map_find?_ofRow hnames hlength)
    simpa [Function.comp_def] using hfind
  rw [rowText, hfields, ofRow_eq hnames hlength]
  refine if_pos ?_
  rw [isEmpty_nil, Bool.true_and, all_eq_true]
  rintro ⟨name, value⟩ hmem
  simpa using (of_mem_zip hmem).1

end Record

end Csv

end ServerlessTaint

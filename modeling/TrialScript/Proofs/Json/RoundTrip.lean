import TrialScript.Proofs.Json.Numbers
import TrialScript.Proofs.Json.Strings
import TrialScript.Proofs.Value.Reordered

/-! JSON texts: every value that JSON has is read back from its compact text, in order of name. -/

namespace TrialScript

/-- A value that JSON has: none in it is a date, and every mapping names each of its fields once. -/
inductive Value.JsonShaped : Value → Prop where
  | scalar (value : Scalar) : JsonShaped (.scalar value)
  | list {items : List Value} (each : ∀ item ∈ items, JsonShaped item) : JsonShaped (.list items)
  | dict {fields : Table Value} (distinct : fields.names.Nodup)
      (each : ∀ field ∈ fields, JsonShaped field.2) : JsonShaped (.dict fields)

namespace Value

variable {value : Value}

/-- Nothing has to be changed in a value that JSON has. -/
theorem JsonShaped.plain_eq (shaped : value.JsonShaped) : value.plain = value := by
  -- By induction on the shape: items and fields keep their places.
  induction shaped with
  | scalar => rfl
  | list each ih =>
    rw [plain, plainItems_eq_map]
    exact congrArg Value.list ((List.map_congr_left ih).trans (List.map_id _))
  | dict distinct each ih =>
    rw [plain, plainFields_eq_mapValues]
    have same : ∀ field ∈ _, (field.1, plain field.2) = id field :=
      fun field member => Prod.ext rfl (ih field member)
    exact congrArg Value.dict ((List.map_congr_left same).trans (List.map_id _))

end Value

section Entries

variable {α : Type}

/-- An entry of a new name is put at the end. -/
theorem Table.put_of_not_mem {name : String} {table : Table α} (isNew : name ∉ table.names)
    (value : α) : table.put name value = table ++ [(name, value)] := by
  -- By induction on the table, since a new name is looked for at each entry.
  induction table with
  | nil => rfl
  | cons entry rest ih =>
    obtain ⟨key, old⟩ := entry
    simp only [names, List.map_cons, List.mem_cons, not_or] at isNew ih
    rw [put, if_neg (Ne.symm isNew.1), ih isNew.2, List.cons_append]

/-- Entries of different names make up a table as they are. -/
theorem Table.ofEntries_eq {entries : Table α} (distinct : entries.names.Nodup) :
    ofEntries entries = entries := by
  -- The induction is on the entries that are left, whose names are not in the table so far.
  have onward : ∀ entries table : Table α, (names (table ++ entries)).Nodup →
      entries.foldl (fun table entry => table.put entry.1 entry.2) table = table ++ entries := by
    intro entries
    induction entries with
    | nil => simp
    | cons entry rest ih =>
      intro table distinct
      have isNew : entry.1 ∉ table.names := by
        rw [names, List.map_append, List.nodup_append] at distinct
        exact fun old => distinct.2.2 _ old _ List.mem_cons_self rfl
      rw [List.foldl_cons, put_of_not_mem isNew, ih _ (by simpa using distinct), List.append_assoc,
        List.singleton_append]
  exact onward entries [] distinct

end Entries

namespace Json

/-- A text that is read as a value before any end, with a step for every character. -/
def Reads (text : List Char) (value : Value) : Prop :=
  ∀ fuel rest, Ends rest → text.length ≤ fuel → value? fuel (text ++ rest) = some (value, rest)

section Beginnings

variable {text : List Char} {value : Value}

/-- What is read as a value begins with no blank and closes no list. -/
theorem begins_of_value? {fuel : Nat} {read : Value × List Char}
    (reads : value? fuel text = some read) :
    ∃ first tail, text = first :: tail ∧ isBlank first = false ∧ first ≠ ']' := by
  cases fuel with
  | zero => cases reads
  | succ fuel =>
    cases text with
    | nil => cases reads
    | cons first tail =>
      refine ⟨first, tail, rfl, ?_, ?_⟩
      · -- Neither a word nor a number begins with a blank.
        by_contra blank
        simp only [isBlank, Bool.not_eq_false, Bool.or_eq_true, decide_eq_true_eq] at blank
        rcases blank with ((rfl | rfl) | rfl) | rfl <;> cases reads
      · rintro rfl
        cases reads

/-- No text that is read begins with a blank or closes a list. -/
theorem Reads.begins (reads : Reads text value) :
    ∃ first tail, text = first :: tail ∧ isBlank first = false ∧ first ≠ ']' := by
  have read := reads text.length [] (by simp [Ends]) (Nat.le_refl _)
  rw [List.append_nil] at read
  exact begins_of_value? read

/-- No text that is read is empty. -/
theorem Reads.length_pos (reads : Reads text value) : 0 < text.length := by
  obtain ⟨first, tail, rfl, -⟩ := reads.begins
  exact Nat.succ_pos _

/-- Nothing is skipped where the first character is no blank. -/
theorem skipBlank_cons {c : Char} (shown : isBlank c = false) (rest : List Char) :
    skipBlank (c :: rest) = c :: rest := by
  simp [skipBlank, shown]

/-- Nothing is skipped before a text that is read. -/
theorem Reads.skipBlank_append (reads : Reads text value) (rest : List Char) :
    skipBlank (text ++ rest) = text ++ rest := by
  obtain ⟨first, tail, rfl, shown, -⟩ := reads.begins
  exact skipBlank_cons shown _

end Beginnings

section Parts

variable {α : Type} {parts : List α} {text : α → List Char} {form : α → Value} {fuel : Nat}

/-- A comma or a closing bracket ends the value before it. -/
theorem ends_cons {c : Char} (isEnd : c = ',' ∨ c = ']' ∨ c = '\x7d') (rest : List Char) :
    Ends (c :: rest) := by
  rintro _ ⟨⟩
  exact isEnd

/-- Parts between commas begin with the first of them. -/
theorem intercalate_begins (text : α → List Char) (part : α) (others : List α) (rest : List Char) :
    ∃ behind, List.intercalate [','] ((part :: others).map text) ++ rest = text part ++ behind := by
  -- Only if there are others is there a comma behind the first.
  cases others with
  | nil => exact ⟨rest, by simp⟩
  | cons next others => exact ⟨_, by
      rw [List.map_cons, List.map_cons, List.intercalate_cons_cons, List.append_assoc,
        List.append_assoc]⟩

/-- Items between commas are read one by one, up to the bracket. -/
theorem items?_intercalate (some : parts ≠ []) (each : ∀ part ∈ parts, Reads (text part) (form part))
    (enough : (List.intercalate [','] (parts.map text)).length < fuel) (rest : List Char) :
    items? fuel (List.intercalate [','] (parts.map text) ++ ']' :: rest) =
      .some (parts.map form, rest) := by
  -- The induction is on the items, each of which takes one step and leaves enough for the others.
  induction parts generalizing fuel with
  | nil => exact absurd rfl some
  | cons part others ih =>
    obtain ⟨steps, rfl⟩ : ∃ steps, fuel = steps + 1 := ⟨fuel - 1, by omega⟩
    obtain ⟨here, later⟩ := List.forall_mem_cons.mp each
    cases others with
    -- The last item is followed by the bracket.
    | nil =>
      simp only [List.map_cons, List.map_nil, List.intercalate_singleton] at enough ⊢
      rw [items?, here steps _ (ends_cons (by simp) rest) (by omega)]
      rfl
    -- Any other item is followed by a comma, and the next one begins without a blank.
    | cons next others =>
      have positive := here.length_pos
      rw [List.map_cons, List.map_cons, List.intercalate_cons_cons, ← List.map_cons] at enough ⊢
      simp only [List.length_append, List.length_singleton] at enough
      have onward := @ih steps (by simp) later (by omega)
      obtain ⟨behind, first⟩ := intercalate_begins text next others (']' :: rest)
      have shown := (later next List.mem_cons_self).skipBlank_append behind
      rw [List.append_assoc, List.append_assoc, items?, List.singleton_append,
        here steps _ (ends_cons (by simp) _) (by omega)]
      simp only [Option.bind_eq_bind, Option.bind_some, skipBlank_cons (c := ',') rfl, first, shown]
      rw [← first, onward]
      rfl

/-- The text of a field: its name, a colon, and the text of what it holds. -/
def fieldText (text : α → List Char) (field : String × α) : List Char :=
  (string field.1).toList ++ ':' :: text field.2

/-- The text of a field begins with a quote, behind which its name is read. -/
theorem fieldText_begins (text : α → List Char) (field : String × α) (rest : List Char) :
    ∃ behind, fieldText text field ++ rest = '\x22' :: behind ∧
      stringBody? behind.length.succ behind =
        some (field.1.toList, ':' :: (text field.2 ++ rest)) := by
  -- The quote is split off, so that the reader of texts starts behind it.
  obtain ⟨behind, quoted⟩ : ∃ behind,
      (string field.1).toList ++ ':' :: (text field.2 ++ rest) = '\x22' :: behind :=
    ⟨_, by rw [string, String.toList_ofList]; rfl⟩
  refine ⟨behind, ?_, stringBody?_string field.1 _ quoted⟩
  rw [fieldText, List.append_assoc, List.cons_append, quoted]

section Field

variable {field : String × α} (reads : Reads (text field.2) (form field.2))
  (enough : (text field.2).length ≤ fuel) {rest : List Char}
include reads enough

/-- The last field is followed by the brace. -/
theorem fields?_last :
    fields? (fuel + 1) (fieldText text field ++ '\x7d' :: rest) =
      some ([(field.1, form field.2)], rest) := by
  -- The name, the colon, the value and the brace are read in turn.
  have read := reads fuel ('\x7d' :: rest) (ends_cons (by simp) rest) enough
  obtain ⟨behind, quoted, name⟩ := fieldText_begins text field ('\x7d' :: rest)
  rw [quoted, fields?]
  simp only [strip?, if_true, Option.bind_eq_bind, Option.bind_some, name,
    skipBlank_cons (c := ':') rfl, reads.skipBlank_append, read, skipBlank_cons (c := '\x7d') rfl,
    String.ofList_toList]

/-- Any other field is followed by a comma and by the fields behind it. -/
theorem fields?_next {others : List (String × Value)} {after : List Char}
    (onward : fields? fuel (skipBlank rest) = some (others, after)) :
    fields? (fuel + 1) (fieldText text field ++ ',' :: rest) =
      some ((field.1, form field.2) :: others, after) := by
  -- The name, the colon, the value and the comma are read in turn, and then the other fields.
  have read := reads fuel (',' :: rest) (ends_cons (by simp) rest) enough
  obtain ⟨behind, quoted, name⟩ := fieldText_begins text field (',' :: rest)
  rw [quoted, fields?]
  simp only [strip?, if_true, Option.bind_eq_bind, Option.bind_some, name,
    skipBlank_cons (c := ':') rfl, reads.skipBlank_append, read, skipBlank_cons (c := ',') rfl,
    String.ofList_toList, onward]

end Field

/-- Fields between commas are read one by one, up to the brace. -/
theorem fields?_intercalate {fields : Table α} (some : fields ≠ [])
    (each : ∀ field ∈ fields, Reads (text field.2) (form field.2))
    (enough : (List.intercalate [','] (fields.map (fieldText text))).length < fuel)
    (rest : List Char) :
    fields? fuel (List.intercalate [','] (fields.map (fieldText text)) ++ '\x7d' :: rest) =
      .some (fields.mapValues form, rest) := by
  -- The induction is on the fields, each of which takes one step and leaves enough for the others.
  induction fields generalizing fuel with
  | nil => exact absurd rfl some
  | cons field others ih =>
    obtain ⟨steps, rfl⟩ : ∃ steps, fuel = steps + 1 := ⟨fuel - 1, by omega⟩
    obtain ⟨here, later⟩ := List.forall_mem_cons.mp each
    have long : (text field.2).length < (fieldText text field).length := by
      simp only [fieldText, List.length_append, List.length_cons]
      omega
    -- A last field is followed by the closing brace, any other one by a comma and a field.
    cases others with
    | nil =>
      simp only [List.map_cons, List.map_nil, List.intercalate_singleton] at enough ⊢
      exact fields?_last here (by omega)
    | cons next others =>
      rw [List.map_cons, List.map_cons, List.intercalate_cons_cons, ← List.map_cons] at enough ⊢
      simp only [List.length_append, List.length_singleton] at enough
      have onward := @ih steps (by simp) later (by omega)
      -- What follows the comma begins with the quote of a name, so no blank is skipped there.
      obtain ⟨behind, first⟩ := intercalate_begins (fieldText text) next others ('\x7d' :: rest)
      obtain ⟨tail, quoted, -⟩ := fieldText_begins text next behind
      rw [List.append_assoc, List.append_assoc, List.singleton_append]
      refine fields?_next here (by omega) ?_
      rw [first, quoted, skipBlank_cons rfl, ← quoted, ← first]
      exact onward

end Parts

section Values

/-- What is read in one step is read in as many as it has characters. -/
theorem reads_of_step {text : List Char} {value : Value}
    (read : ∀ steps rest, Ends rest → value? (steps + 1) (text ++ rest) = some (value, rest)) :
    Reads text value := by
  -- The text is not empty, so as many steps as characters are at least one.
  intro fuel rest ends enough
  have alone := read 0 [] (by simp [Ends])
  rw [List.append_nil] at alone
  obtain ⟨first, tail, rfl, -⟩ := begins_of_value? alone
  rw [List.length_cons] at enough
  obtain ⟨steps, rfl⟩ : ∃ steps, fuel = steps + 1 := ⟨fuel - 1, by omega⟩
  exact read steps rest ends

/-- A scalar is read back. -/
theorem reads_scalar (value : Scalar) : Reads (scalar value).toList (.scalar value) := by
  -- Only a text and a number take more than their first characters to tell.
  refine reads_of_step fun steps rest ends => ?_
  cases value with
  | null => rfl
  | bool value => cases value <;> rfl
  | num value => exact value?_number value ends steps
  | str text =>
    obtain ⟨behind, quoted⟩ : ∃ behind, (string text).toList ++ rest = '\x22' :: behind :=
      ⟨_, by rw [string, String.toList_ofList]; rfl⟩
    have read := stringBody?_string text rest quoted
    rw [scalar, quoted, value?]
    simp only [read, Option.map_some, String.ofList_toList]

/-- Parts in brackets are read back if they are read behind the first bracket, up to the last. -/
theorem reads_bracketed {depth : Nat} {opening closing : String} {first last : Char}
    {parts : List String} {value : Value} (opens : opening.toList = [first])
    (closes : closing.toList = [last]) (some : parts ≠ [])
    (inside : ∀ steps rest, (List.intercalate [','] (parts.map String.toList)).length < steps →
      value? (steps + 1) (first :: (List.intercalate [','] (parts.map String.toList) ++ last :: rest)) =
        .some (value, rest)) :
    Reads (bracketed .compact depth opening closing parts).toList value := by
  -- A compact text has no line breaks, so there is nothing but commas between the parts.
  have text : (bracketed .compact depth opening closing parts).toList =
      first :: (List.intercalate [','] (parts.map String.toList) ++ [last]) := by
    have filled : parts.isEmpty = false := by simpa using some
    simp [bracketed, filled, Layout.compact, Layout.break, String.toList_intercalate, opens, closes]
  intro fuel rest _ enough
  rw [text] at enough ⊢
  rw [List.length_cons, List.length_append, List.length_singleton] at enough
  obtain ⟨steps, rfl⟩ : ∃ steps, fuel = steps + 1 := ⟨fuel - 1, by omega⟩
  rw [List.cons_append, List.append_assoc, List.singleton_append]
  exact inside steps rest (by omega)

/-- A list is read back if its items are. -/
theorem reads_list {items : List Value} {text : Value → String} {form : Value → Value} {depth : Nat}
    (each : ∀ item ∈ items, Reads (text item).toList (form item)) :
    Reads (bracketed .compact depth "[" "]" (items.map text)).toList (.list (items.map form)) := by
  rcases items with - | ⟨item, others⟩
  · have empty : (bracketed .compact depth "[" "]" []).toList = ['[', ']'] := by simp [bracketed]
    rw [List.map_nil, empty]
    exact reads_of_step fun steps rest _ => rfl
  · have brackets : "[".toList = ['['] ∧ "]".toList = [']'] := by decide
    refine reads_bracketed brackets.1 brackets.2 (by simp) fun steps rest enough => ?_
    rw [List.map_map] at enough ⊢
    have read := @items?_intercalate _ _ (String.toList ∘ text) form steps (List.cons_ne_nil item others)
      each enough rest
    -- The first item does not begin with a bracket that would close an empty list.
    obtain ⟨behind, begins⟩ := intercalate_begins (String.toList ∘ text) item others (']' :: rest)
    obtain ⟨first, tail, leads, shown, noBracket⟩ := (each item List.mem_cons_self).begins
    rw [begins, Function.comp_apply, leads, List.cons_append] at read ⊢
    rw [value?]
    simp [skipBlank_cons shown, noBracket, read]

/-- A mapping of different names is read back if what its fields hold is. -/
theorem reads_dict {fields : Table Value} {text : Value → String} {form : Value → Value} {depth : Nat}
    (distinct : fields.names.Nodup)
    (each : ∀ field ∈ fields, Reads (text field.2).toList (form field.2)) :
    Reads (bracketed .compact depth "\x7b" "\x7d" ((fields.mapValues text).map
      fun field => string field.1 ++ Layout.compact.colon ++ field.2)).toList
      (.dict (fields.mapValues form)) := by
  have table : Table.ofEntries (fields.mapValues form) = fields.mapValues form := by
    refine Table.ofEntries_eq ?_
    rwa [Table.names, Table.mapValues, List.map_map]
  have parts : ((fields.mapValues text).map fun field =>
      string field.1 ++ Layout.compact.colon ++ field.2).map String.toList =
        fields.map (fieldText (String.toList ∘ text)) := by
    rw [Table.mapValues, List.map_map, List.map_map]
    exact List.map_congr_left fun field _ => by simp [fieldText, Layout.compact]
  -- An empty mapping has no inside, which is why its reader takes a step of its own.
  rcases fields with - | ⟨field, others⟩
  · have empty : (bracketed .compact depth "\x7b" "\x7d" []).toList = ['\x7b', '\x7d'] := by
      simp [bracketed]
    rw [Table.mapValues, Table.mapValues, List.map_nil, List.map_nil, List.map_nil, empty]
    exact reads_of_step fun steps rest _ => rfl
  · have braces : "\x7b".toList = ['\x7b'] ∧ "\x7d".toList = ['\x7d'] := by decide
    refine reads_bracketed braces.1 braces.2 (by simp [Table.mapValues]) ?_
    rw [parts]
    intro steps rest enough
    have read := @fields?_intercalate _ (String.toList ∘ text) form steps _
      (List.cons_ne_nil field others) each enough rest
    -- The first field begins with a quote, so the mapping is not empty.
    obtain ⟨behind, begins⟩ := intercalate_begins (fieldText (String.toList ∘ text)) field others
      ('\x7d' :: rest)
    obtain ⟨tail, quoted, -⟩ := fieldText_begins (String.toList ∘ text) field behind
    rw [begins, quoted] at read ⊢
    rw [value?]
    simp [skipBlank_cons (c := '\x22') rfl, read, table]

/-- A value that JSON has is read back from its compact text with its fields in order of name. -/
theorem reads_writeAt {value : Value} (shaped : value.JsonShaped) (depth : Nat) :
    Reads (writeAt .compact depth value).toList value.ordered := by
  -- By induction on the value, at any depth: its parts are read first, and their order is the
  -- sorted one.
  induction shaped generalizing depth with
  | scalar value => exact reads_scalar value
  | @list items each ih =>
    rw [writeAt, writeItems_eq_map, Value.ordered, Value.orderedItems_eq_map]
    exact reads_list fun item member => ih item member (depth + 1)
  | @dict fields distinct each ih =>
    rw [writeAt, writeFields_eq_mapValues, Value.ordered, Value.orderedFields_eq_mapValues,
      ← Table.mapValues_sortByName, ← Table.mapValues_sortByName]
    refine reads_dict (Table.nodup_names_sortByName distinct) fun field member => ?_
    exact ih field ((Table.sortByName_perm fields).mem_iff.mp member) (depth + 1)

/-- A value that JSON has is read back from its text with its fields in order of name. -/
theorem read?_write {value : Value} (shaped : value.JsonShaped) :
    read? (write .compact value) = some value.ordered := by
  have reads := reads_writeAt shaped 0
  have shown := reads.skipBlank_append []
  have read := reads (2 * (writeAt .compact 0 value).toList.length + 2) [] (by simp [Ends]) (by omega)
  rw [List.append_nil] at shown read
  -- Nothing is left behind the value.
  simp only [read?, write, shown, read, Option.bind_eq_bind, Option.bind_some]
  rfl

end Values

end Json
end TrialScript

import TrialScript.Proofs.Tree.Grammar
import TrialScript.Proofs.Tree.Parts

/-! Reading written scripts: every script that is written as it should be has a tree. -/

namespace TrialScript.Tree

/-- A script has a tree. -/
def Reads (script : Value) : Prop :=
  ∃ tree, read? script = some tree

variable {key : String} {fields : Table Value}

/-- The tree in a field that must be there is that of the part that a lookup finds. -/
theorem readField?_eq (key : String) (fields : Table Value) :
    readField? key fields = (fields.lookup? key).elim none read? :=
  Table.eq_elim_lookup? rfl
    (fun name part rest => readField?.eq_def key ((name, part) :: rest)) fields

/-- The tree in a field that may be left out is the constant null where a lookup finds nothing. -/
theorem readOptional?_eq (key : String) (fields : Table Value) :
    readOptional? key fields = (fields.lookup? key).elim (some null) read? :=
  Table.eq_elim_lookup? rfl
    (fun name part rest => readOptional?.eq_def key ((name, part) :: rest)) fields

/-- The trees in a field are those of the items that it lists. -/
theorem readTrees?_eq (key : String) (fields : Table Value) :
    readTrees? key fields = ((fields.lookup? key).bind Value.items?).bind readItems? := by
  -- The search stops at the first entry of that name, as a lookup does.
  have searched := Table.eq_elim_lookup? rfl
    (fun name part rest => readTrees?.eq_def key ((name, part) :: rest)) fields
  rw [searched]
  rcases fields.lookup? key with _ | part
  · rfl
  · cases part <;> rfl

/-- The clauses in a field are those of the items that it lists. -/
theorem readClauses?_eq (key : String) (fields : Table Value) :
    readClauses? key fields = ((fields.lookup? key).bind Value.items?).bind readClauseItems? := by
  -- The search stops at the first entry of that name, as a lookup does.
  have searched := Table.eq_elim_lookup? rfl
    (fun name part rest => readClauses?.eq_def key ((name, part) :: rest)) fields
  rw [searched]
  rcases fields.lookup? key with _ | part
  · rfl
  · cases part <;> rfl

/-- The tree in a field is read from the part that a lookup finds. -/
theorem exists_of_readField? {tree : Tree} (reads : readField? key fields = some tree) :
    ∃ part, fields.lookup? key = some part ∧ read? part = some tree := by
  rw [readField?_eq] at reads
  cases found : fields.lookup? key with
  | none => simp [found] at reads
  | some part => exact ⟨part, rfl, by simpa [found] using reads⟩

/-- The tree in a field that may be left out is read in the same way where there is a part. -/
theorem null_or_exists_of_readOptional? {tree : Tree}
    (reads : readOptional? key fields = some tree) :
    tree = null ∨ ∃ part, fields.lookup? key = some part ∧ read? part = some tree := by
  rw [readOptional?_eq] at reads
  cases found : fields.lookup? key with
  | none => exact .inl (by simpa [found] using reads.symm)
  | some part => exact .inr ⟨part, rfl, by simpa [found] using reads⟩

/-- What is read from the items that a field lists is read from a list in that field. -/
theorem exists_items_of_bind {α : Type} {read : List Value → Option α} {found : α}
    (reads : ((fields.lookup? key).bind Value.items?).bind read = some found) :
    ∃ items, fields.lookup? key = some (.list items) ∧ read items = some found := by
  -- Only a list has items to read.
  simp only [Option.bind_eq_some_iff] at reads
  obtain ⟨items, ⟨part, holds, isList⟩, reads⟩ := reads
  cases part <;> cases isList
  exact ⟨items, holds, reads⟩

/-- Trees in a field are read from a list in that field. -/
theorem exists_items_of_readTrees? {trees : List Tree} (reads : readTrees? key fields = some trees) :
    ∃ items, fields.lookup? key = some (.list items) ∧ readItems? items = some trees := by
  rw [readTrees?_eq] at reads
  exact exists_items_of_bind reads

/-- Clauses in a field are read from a list in that field. -/
theorem exists_items_of_readClauses? {clauses : List (Tree × Tree)}
    (reads : readClauses? key fields = some clauses) :
    ∃ items, fields.lookup? key = some (.list items) ∧ readClauseItems? items = some clauses := by
  rw [readClauses?_eq] at reads
  exact exists_items_of_bind reads

/-- Where a field holds a list, its items are read. -/
theorem readTrees?_of_lookup? {items : List Value}
    (found : fields.lookup? key = some (.list items)) :
    readTrees? key fields = readItems? items := by
  rw [readTrees?_eq, found]
  rfl

/-- Where a field holds a list, its clauses are read. -/
theorem readClauses?_of_lookup? {clauses : List Value}
    (found : fields.lookup? key = some (.list clauses)) :
    readClauses? key fields = readClauseItems? clauses := by
  rw [readClauses?_eq, found]
  rfl

/-- A field that is there is read if its part is. -/
theorem reads_field (present : fields.has key = true)
    (each : ∀ part, fields.lookup? key = some part → Reads part) :
    ∃ tree, readField? key fields = some tree := by
  -- A lookup finds a part, because the field is there.
  obtain ⟨part, found⟩ := Option.isSome_iff_exists.mp present
  obtain ⟨tree, reads⟩ := each part found
  exact ⟨tree, by rw [readField?_eq, found, Option.elim_some, reads]⟩

/-- A field that may be left out is read if its part is. -/
theorem reads_optional (each : ∀ part, fields.lookup? key = some part → Reads part) :
    ∃ tree, readOptional? key fields = some tree := by
  -- Where the field is left out, the constant null stands for it.
  rw [readOptional?_eq]
  cases found : fields.lookup? key with
  | none => exact ⟨null, rfl⟩
  | some part => exact each part found

/-- Items are read if each of them is. -/
theorem reads_items {items : List Value} (each : ∀ item ∈ items, Reads item) :
    ∃ trees, readItems? items = some trees := by
  -- The induction is on the items.
  induction items with
  | nil => exact ⟨[], rfl⟩
  | cons item rest ih =>
    obtain ⟨here, others⟩ := List.forall_mem_cons.mp each
    obtain ⟨tree, reads⟩ := here
    obtain ⟨trees, onward⟩ := ih others
    exact ⟨tree :: trees, by simp [readItems?, reads, onward]⟩

/-- Clauses are read if the guard and the body of each are. -/
theorem reads_clauses {clauses : List Value} (each : ∀ clause ∈ clauses, ClauseHolds Reads clause) :
    ∃ trees, readClauseItems? clauses = some trees := by
  -- The induction is on the clauses.
  induction clauses with
  | nil => exact ⟨[], rfl⟩
  | cons clause rest ih =>
    obtain ⟨⟨parts, rfl, present, sides⟩, others⟩ := List.forall_mem_cons.mp each
    obtain ⟨guard, readsGuard⟩ := reads_field (present "if" (by simp)) (sides "if" (by simp))
    obtain ⟨body, readsBody⟩ := reads_field (present "then" (by simp)) (sides "then" (by simp))
    obtain ⟨trees, onward⟩ := ih others
    exact ⟨(guard, body) :: trees, by simp [readClauseItems?, readsGuard, readsBody, onward]⟩

/-- A node has a tree if its tag is known and each of its fields holds parts that have trees. -/
theorem reads_dict {op : Operation} (tag : Tagged fields op)
    (holds : ∀ field ∈ op.fields fields, FieldHolds Reads field fields) : Reads (.dict fields) := by
  -- The fields of the operation have what reading it asks for, by their shapes.
  have known := operationOf_eq_ok.mpr tag
  have required : ∀ key, ⟨key, .tree⟩ ∈ op.fields fields →
      ∃ tree, readField? key fields = some tree := by
    intro key member
    obtain ⟨present, each⟩ := holds _ member
    exact reads_field (present key (by simp)) (each key (by simp))
  have optional : ∀ key, ⟨key, .optionalTree⟩ ∈ op.fields fields →
      ∃ tree, readOptional? key fields = some tree := by
    intro key member
    exact reads_optional (holds _ member key (by simp))
  have several : ∀ key shape, shape = .trees ∨ shape = .presentTrees →
      ⟨key, shape⟩ ∈ op.fields fields → ∃ trees, readTrees? key fields = some trees := by
    intro key shape listed member
    have held : HasList key fields ∧ EachItem Reads key fields := by
      rcases listed with rfl | rfl <;> exact holds _ member
    obtain ⟨⟨items, found⟩, each⟩ := held
    rw [readTrees?_of_lookup? found]
    exact reads_items (each items found)
  have named : ⟨"var", .name⟩ ∈ op.fields fields → ∃ name, nameField? fields = some name := by
    intro member
    obtain ⟨name, found⟩ := holds _ member
    exact ⟨name, by rw [nameField?, found]⟩
  -- Each operation is read from the fields that it is written in.
  unfold Reads
  cases op with
  | literal =>
    have present := holds ⟨"value", .anything⟩ List.mem_cons_self
    obtain ⟨value, found⟩ := Option.isSome_iff_exists.mp (present "value" List.mem_cons_self)
    exact ⟨.literal value, by simp [read?, known, found]⟩
  | array =>
    obtain ⟨trees, reads⟩ := several "values" .trees (.inl rfl) List.mem_cons_self
    exact ⟨.array trees, by simp [read?, known, reads]⟩
  | lookup =>
    obtain ⟨name, reads⟩ := named List.mem_cons_self
    exact ⟨.lookup name, by simp [read?, known, reads]⟩
  | assign =>
    obtain ⟨name, readsName⟩ := named List.mem_cons_self
    obtain ⟨value, readsValue⟩ := required "value" (by simp [Operation.fields])
    exact ⟨.assign name value, by simp [read?, known, readsName, readsValue]⟩
  | sequence =>
    obtain ⟨trees, reads⟩ := several "seq" .trees (.inl rfl) List.mem_cons_self
    exact ⟨.sequence trees, by simp [read?, known, reads]⟩
  | cond =>
    have written := holds ⟨"cond", .clauses⟩ List.mem_cons_self
    obtain ⟨clauses, found, each⟩ := clauses_hold.mp written
    obtain ⟨trees, reads⟩ := reads_clauses each
    exact ⟨.cond trees, by simp [read?, known, readClauses?_of_lookup? found, reads]⟩
  | index =>
    obtain ⟨base, readsBase⟩ := required "base" (by simp [Operation.fields])
    obtain ⟨key, readsKey⟩ := required "index" (by simp [Operation.fields])
    exact ⟨.index base key, by simp [read?, known, readsBase, readsKey]⟩
  | includes =>
    obtain ⟨collection, readsCollection⟩ := required "collection" (by simp [Operation.fields])
    obtain ⟨item, readsItem⟩ := required "value" (by simp [Operation.fields])
    exact ⟨.includes collection item, by simp [read?, known, readsCollection, readsItem]⟩
  | binary op =>
    cases negates : op.isNegation fields with
    | true =>
      obtain ⟨operand, reads⟩ := required "value" (by simp [Operation.fields, negates])
      exact ⟨.unary .negate operand, by simp [read?, known, negates, reads]⟩
    | false =>
      obtain ⟨left, readsLeft⟩ := required "left" (by simp [Operation.fields, negates])
      obtain ⟨right, readsRight⟩ := required "right" (by simp [Operation.fields, negates])
      exact ⟨.binary op left right, by simp [read?, known, negates, readsLeft, readsRight]⟩
  | connective op =>
    cases sides : writtenBetween fields with
    | true =>
      obtain ⟨left, readsLeft⟩ := required "left" (by simp [Operation.fields, sides])
      obtain ⟨right, readsRight⟩ := required "right" (by simp [Operation.fields, sides])
      exact ⟨.connective op [left, right], by simp [read?, known, sides, readsLeft, readsRight]⟩
    | false =>
      have listed : ⟨"values", .trees⟩ ∈ Operation.fields fields (.connective op) := by
        simp [Operation.fields, sides]
      obtain ⟨trees, reads⟩ := several "values" .trees (.inl rfl) listed
      exact ⟨.connective op trees, by simp [read?, known, sides, reads]⟩
  | fold op =>
    obtain ⟨trees, reads⟩ := several "values" .presentTrees (.inr rfl) List.mem_cons_self
    exact ⟨.fold op trees, by simp [read?, known, reads]⟩
  | unary op =>
    obtain ⟨operand, reads⟩ := required "value" List.mem_cons_self
    exact ⟨.unary op operand, by simp [read?, known, reads]⟩
  | randomRange kind =>
    obtain ⟨low, readsLow⟩ := required "min" (by simp [Operation.fields])
    obtain ⟨high, readsHigh⟩ := required "max" (by simp [Operation.fields])
    obtain ⟨unit, readsUnit⟩ := optional "unit" (by simp [Operation.fields])
    exact ⟨.randomRange kind low high unit, by simp [read?, known, readsLow, readsHigh, readsUnit]⟩
  | bernoulliTrial =>
    obtain ⟨p, readsP⟩ := required "p" (by simp [Operation.fields])
    obtain ⟨unit, readsUnit⟩ := optional "unit" (by simp [Operation.fields])
    exact ⟨.bernoulliTrial p unit, by simp [read?, known, readsP, readsUnit]⟩
  | bernoulliFilter =>
    obtain ⟨p, readsP⟩ := required "p" (by simp [Operation.fields])
    obtain ⟨choices, readsChoices⟩ := required "choices" (by simp [Operation.fields])
    obtain ⟨unit, readsUnit⟩ := optional "unit" (by simp [Operation.fields])
    exact ⟨.bernoulliFilter p choices unit, by simp [read?, known, readsP, readsChoices, readsUnit]⟩
  | uniformChoice =>
    obtain ⟨choices, readsChoices⟩ := required "choices" (by simp [Operation.fields])
    obtain ⟨unit, readsUnit⟩ := optional "unit" (by simp [Operation.fields])
    exact ⟨.uniformChoice choices unit, by simp [read?, known, readsChoices, readsUnit]⟩
  | weightedChoice =>
    obtain ⟨choices, readsChoices⟩ := required "choices" (by simp [Operation.fields])
    obtain ⟨weights, readsWeights⟩ := required "weights" (by simp [Operation.fields])
    obtain ⟨unit, readsUnit⟩ := optional "unit" (by simp [Operation.fields])
    exact ⟨.weightedChoice choices weights unit,
      by simp [read?, known, readsChoices, readsWeights, readsUnit]⟩
  | sample =>
    obtain ⟨choices, readsChoices⟩ := required "choices" (by simp [Operation.fields])
    obtain ⟨draws, readsDraws⟩ := optional "draws" (by simp [Operation.fields])
    obtain ⟨unit, readsUnit⟩ := optional "unit" (by simp [Operation.fields])
    exact ⟨.sample choices draws unit, by simp [read?, known, readsChoices, readsDraws, readsUnit]⟩

/-- Every written script has a tree. -/
theorem reads_of_written {script : Value} (written : Written script) : Reads script := by
  -- The parts that the traversal goes to are written, and so they have trees.
  induction script using induction_findings with
  | step script ih =>
    have passes : Passes Reads (findings script) := by
      intro finding member
      have here := written_iff_passes.mp written finding member
      cases finding with
      | wrong problem => exact here
      | visit path part => exact ih path part member here
    cases script with
    | scalar value => exact ⟨.scalar value, rfl⟩
    | list items =>
      obtain ⟨trees, reads⟩ := reads_items ((passes_itemFindings 0).mp passes)
      exact ⟨.array trees, by simp [read?, reads]⟩
    | dict fields =>
      obtain ⟨op, tag, holds⟩ := passes_findings_dict.mp passes
      exact reads_dict tag holds
    | date value | datetime value => cases written

/-- A node that has a tree has a known operation. -/
theorem exists_operationOf_of_read? {tree : Tree} (reads : read? (.dict fields) = some tree) :
    ∃ op, operationOf fields = .ok op := by
  cases known : operationOf fields with
  | error defect => simp [read?, known] at reads
  | ok op => exact ⟨op, rfl⟩

/-- A node that is read as a literal holds the value of the literal. -/
theorem lookup?_of_read?_literal {value : Value} (reads : read? (.dict fields) = some (.literal value)) :
    fields.lookup? "value" = some value := by
  obtain ⟨op, known⟩ := exists_operationOf_of_read? reads
  simp only [read?, known] at reads
  -- Nodes of every other operation are read as trees of another shape.
  cases op with
  | literal => simpa using reads
  | binary op =>
    cases negates : op.isNegation fields <;> simp [negates, Option.bind_eq_some_iff] at reads
  | connective op =>
    cases sides : writtenBetween fields <;> simp [sides, Option.bind_eq_some_iff] at reads
  | _ => simp [Option.bind_eq_some_iff] at reads

/-- A part of a node that is read from one of the fields that the operation is written in. -/
inductive ReadFrom (fields : Table Value) (op : Operation) : Tree → Prop where
  | field {key : String} {part : Tree} (listed : ⟨key, .tree⟩ ∈ op.fields fields)
      (reads : readField? key fields = some part) : ReadFrom fields op part
  | optional {key : String} {part : Tree} (listed : ⟨key, .optionalTree⟩ ∈ op.fields fields)
      (reads : readOptional? key fields = some part) : ReadFrom fields op part
  | several {key : String} {trees : List Tree} {part : Tree}
      (listed : ⟨key, .trees⟩ ∈ op.fields fields ∨ ⟨key, .presentTrees⟩ ∈ op.fields fields)
      (reads : readTrees? key fields = some trees) (member : part ∈ trees) : ReadFrom fields op part
  | side {key : String} {clauses : List (Tree × Tree)} {part : Tree}
      (listed : ⟨key, .clauses⟩ ∈ op.fields fields)
      (reads : readClauses? key fields = some clauses) (member : part ∈ (cond clauses).parts) :
      ReadFrom fields op part

/-- Every part of a node is read from one of its fields. -/
theorem readFrom_of_mem_parts {op : Operation} {tree part : Tree}
    (known : operationOf fields = .ok op) (reads : read? (.dict fields) = some tree)
    (member : part ∈ tree.parts) : ReadFrom fields op part := by
  simp only [read?, known] at reads
  -- Each operation is read from the fields that it is written in.
  cases op with
  | literal | lookup =>
    simp only [Option.map_eq_some_iff] at reads
    obtain ⟨value, -, rfl⟩ := reads
    cases member
  | array | sequence =>
    simp only [Option.map_eq_some_iff] at reads
    obtain ⟨trees, gave, rfl⟩ := reads
    exact .several (.inl List.mem_cons_self) gave member
  | fold op =>
    simp only [Option.map_eq_some_iff] at reads
    obtain ⟨trees, gave, rfl⟩ := reads
    exact .several (.inr List.mem_cons_self) gave member
  | cond =>
    simp only [Option.map_eq_some_iff] at reads
    obtain ⟨clauses, gave, rfl⟩ := reads
    exact .side List.mem_cons_self gave member
  | unary op =>
    simp only [Option.map_eq_some_iff] at reads
    obtain ⟨operand, gave, rfl⟩ := reads
    cases List.mem_singleton.mp member
    exact .field List.mem_cons_self gave
  | assign =>
    simp only [Option.bind_eq_bind, Option.bind_eq_some_iff, Option.some.injEq] at reads
    obtain ⟨name, -, value, gave, rfl⟩ := reads
    cases List.mem_singleton.mp member
    exact .field (by simp [Operation.fields]) gave
  | index | includes =>
    simp only [Option.bind_eq_bind, Option.bind_eq_some_iff, Option.some.injEq] at reads
    obtain ⟨first, gave, second, gave', rfl⟩ := reads
    simp only [parts, List.mem_cons, List.not_mem_nil, or_false] at member
    rcases member with rfl | rfl
    · exact .field (by simp [Operation.fields]) gave
    · exact .field (by simp [Operation.fields]) gave'
  | bernoulliTrial | uniformChoice =>
    simp only [Option.bind_eq_bind, Option.bind_eq_some_iff, Option.some.injEq] at reads
    obtain ⟨first, gave, unit, gave', rfl⟩ := reads
    simp only [parts, List.mem_cons, List.not_mem_nil, or_false] at member
    rcases member with rfl | rfl
    · exact .field (by simp [Operation.fields]) gave
    · exact .optional (by simp [Operation.fields]) gave'
  | randomRange kind | bernoulliFilter | weightedChoice =>
    simp only [Option.bind_eq_bind, Option.bind_eq_some_iff, Option.some.injEq] at reads
    obtain ⟨first, gave, second, gave', unit, gave'', rfl⟩ := reads
    simp only [parts, List.mem_cons, List.not_mem_nil, or_false] at member
    rcases member with rfl | rfl | rfl
    · exact .field (by simp [Operation.fields]) gave
    · exact .field (by simp [Operation.fields]) gave'
    · exact .optional (by simp [Operation.fields]) gave''
  | sample =>
    simp only [Option.bind_eq_bind, Option.bind_eq_some_iff, Option.some.injEq] at reads
    obtain ⟨choices, gave, draws, gave', unit, gave'', rfl⟩ := reads
    simp only [parts, List.mem_cons, List.not_mem_nil, or_false] at member
    rcases member with rfl | rfl | rfl
    · exact .field (by simp [Operation.fields]) gave
    · exact .optional (by simp [Operation.fields]) gave'
    · exact .optional (by simp [Operation.fields]) gave''
  | binary op =>
    cases negates : op.isNegation fields with
    | true =>
      -- A subtraction of a single operand is read as its negation.
      simp only [negates, if_true, Option.map_eq_some_iff] at reads
      obtain ⟨operand, gave, rfl⟩ := reads
      cases List.mem_singleton.mp member
      exact .field (by simp [Operation.fields, negates]) gave
    | false =>
      simp only [negates, Bool.false_eq_true, if_false, Option.bind_eq_bind,
        Option.bind_eq_some_iff, Option.some.injEq] at reads
      obtain ⟨left, gave, right, gave', rfl⟩ := reads
      simp only [parts, List.mem_cons, List.not_mem_nil, or_false] at member
      rcases member with rfl | rfl
      · exact .field (by simp [Operation.fields, negates]) gave
      · exact .field (by simp [Operation.fields, negates]) gave'
  | connective op =>
    cases sides : writtenBetween fields with
    | true =>
      simp only [sides, if_true, Option.bind_eq_bind, Option.bind_eq_some_iff,
        Option.some.injEq] at reads
      obtain ⟨left, gave, right, gave', rfl⟩ := reads
      simp only [parts, List.mem_cons, List.not_mem_nil, or_false] at member
      rcases member with rfl | rfl
      · exact .field (by simp [Operation.fields, sides]) gave
      · exact .field (by simp [Operation.fields, sides]) gave'
    | false =>
      simp only [sides, Bool.false_eq_true, if_false, Option.map_eq_some_iff] at reads
      obtain ⟨trees, gave, rfl⟩ := reads
      exact .several (.inl (by simp [Operation.fields, sides])) gave member

end TrialScript.Tree

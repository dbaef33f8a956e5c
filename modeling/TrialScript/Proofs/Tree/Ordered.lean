import TrialScript.Proofs.Tree.Parsing
import TrialScript.Proofs.Value.Reordered

/-! Scripts up to the order of fields: their trees differ in the literals, and there in order only. -/

namespace TrialScript

/-- What holds of a script once it holds of all that its fields, lists and clauses hold. -/
theorem Value.induction_script {motive : Value → Prop} (scalar : ∀ value, motive (.scalar value))
    (list : ∀ items, (∀ item ∈ items, motive item) → motive (.list items))
    (dict : ∀ fields : Table Value,
      (∀ key part, fields.lookup? key = some part → motive part) →
      (∀ key items, fields.lookup? key = some (.list items) → ∀ item ∈ items, motive item) →
      (∀ key clauses, fields.lookup? key = some (.list clauses) → ∀ parts, .dict parts ∈ clauses →
        ∀ side part, Table.lookup? side parts = some part → motive part) → motive (.dict fields))
    (date : ∀ day, motive (.date day)) (datetime : ∀ moment, motive (.datetime moment)) :
    ∀ value, motive value
  | .scalar value => scalar value
  | .list items => list items fun item _ => induction_script scalar list dict date datetime item
  | .dict fields =>
    dict fields
      (fun _ part _ => induction_script scalar list dict date datetime part)
      (fun _ _ _ item _ => induction_script scalar list dict date datetime item)
      (fun _ _ _ _ _ _ part _ => induction_script scalar list dict date datetime part)
  | .date day => date day
  | .datetime moment => datetime moment
termination_by value => sizeOf value
decreasing_by
  · have := List.sizeOf_lt_of_mem ‹_›
    simp only [Value.list.sizeOf_spec]
    omega
  · next found =>
    have := sizeOf_lt_of_lookup? found
    simp only [Value.dict.sizeOf_spec]
    omega
  · next found member =>
    have := sizeOf_lt_of_lookup? found
    have := List.sizeOf_lt_of_mem member
    simp only [Value.dict.sizeOf_spec, Value.list.sizeOf_spec] at *
    omega
  · next found parts member side found' =>
    have := sizeOf_lt_of_lookup? found
    have := List.sizeOf_lt_of_mem member
    have := sizeOf_lt_of_lookup? found'
    simp only [Value.dict.sizeOf_spec, Value.list.sizeOf_spec] at *
    omega

namespace Value

/-- Ordering makes a scalar only of that scalar. -/
theorem ordered_eq_scalar {value : Value} {scalar : Scalar} :
    value.ordered = .scalar scalar ↔ value = .scalar scalar := by
  cases value <;> simp [ordered]

/-- Ordering makes a list only of a list, whose items it orders. -/
theorem ordered_eq_list {value : Value} {items : List Value} :
    value.ordered = .list items ↔ ∃ items', value = .list items' ∧ items'.map ordered = items := by
  cases value <;> simp [ordered, orderedItems_eq_map]

/-- Ordering makes a mapping only of a mapping, whose keys it sorts. -/
theorem ordered_eq_dict {value : Value} {fields : Table Value} :
    value.ordered = .dict fields ↔
      ∃ fields', value = .dict fields' ∧ Table.sortByName (orderedFields fields') = fields := by
  cases value <;> simp [ordered]

end Value

/-- Fields that hold the ordered forms of what some fields hold, in any order. -/
def OrderedFields (fields fields' : Table Value) : Prop :=
  ∀ key, fields'.lookup? key = (fields.lookup? key).map Value.ordered

namespace OrderedFields

variable {fields fields' : Table Value}

/-- The sorted fields are the fields in order, key by key. -/
theorem sorted (fields : Table Value) :
    OrderedFields fields (Table.sortByName (Value.orderedFields fields)) :=
  fun key => Value.lookup?_sorted_orderedFields key fields

section Shapes

variable (alike : OrderedFields fields fields')
include alike

/-- Ordering neither adds nor drops a key. -/
theorem has (key : String) : fields'.has key = fields.has key := by
  rw [Table.has, Table.has, alike, Option.isSome_map]

/-- The tag of an operation is a text, so it is the same in order. -/
theorem tagged {op : Operation} : Tagged fields' op ↔ Tagged fields op := by
  simp only [Tagged, alike "op", Option.map_eq_some_iff, Value.ordered_eq_scalar,
    exists_eq_right]

/-- The operation that the fields name does not depend on their order. -/
theorem operationOf_eq_ok {op : Operation} :
    operationOf fields' = .ok op ↔ operationOf fields = .ok op := by
  rw [TrialScript.operationOf_eq_ok, TrialScript.operationOf_eq_ok, alike.tagged]

/-- Whether a subtraction is written as a negation is seen from the keys. -/
theorem isNegation (op : BinaryOp) : op.isNegation fields' = op.isNegation fields := by
  rw [BinaryOp.isNegation, BinaryOp.isNegation, alike.has, alike.has]

/-- Whether a comparison is written with two bounds is seen from the keys. -/
theorem writtenBetween : writtenBetween fields' = TrialScript.writtenBetween fields := by
  rw [TrialScript.writtenBetween, TrialScript.writtenBetween, alike.has]

/-- An operation is written in the same fields, which depend on the keys alone. -/
theorem fields_eq (op : Operation) : op.fields fields' = op.fields fields := by
  -- Only these two kinds of operations are written in more than one way.
  cases op with
  | binary op => rw [Operation.fields, Operation.fields, alike.isNegation]
  | connective op => rw [Operation.fields, Operation.fields, alike.writtenBetween]
  | _ => rfl

/-- The same keys are present in order. -/
theorem present {keys : List String} : Present keys fields' ↔ Present keys fields := by
  simp only [Present, alike.has]

variable {derived : Value → Prop}

/-- What a field holds is derived in order exactly if it is as it stands. -/
theorem eachPart {keys : List String}
    (each : ∀ key part, fields.lookup? key = some part → (derived part.ordered ↔ derived part)) :
    EachPart derived keys fields' ↔ EachPart derived keys fields := by
  -- What is missing is missing in order too, and what is there is the same part in order.
  refine forall₂_congr fun key _ => ?_
  rw [alike]
  cases found : fields.lookup? key with
  | none => simp
  | some part => simp [each key part found]

/-- A field holds a list in order exactly if it does as it stands. -/
theorem hasList {key : String} : HasList key fields' ↔ HasList key fields := by
  simp only [HasList, alike key, Option.map_eq_some_iff, Value.ordered_eq_list]
  constructor
  · rintro ⟨_, _, found, items, rfl, -⟩
    exact ⟨items, found⟩
  · rintro ⟨items, found⟩
    exact ⟨_, _, found, items, rfl, rfl⟩

/-- What a field lists is derived in order exactly if it is as it stands. -/
theorem eachItem {key : String}
    (each : ∀ items, fields.lookup? key = some (.list items) → ∀ item ∈ items,
      (derived item.ordered ↔ derived item)) :
    EachItem derived key fields' ↔ EachItem derived key fields := by
  -- The items in order are the ordered items, so either direction goes through the map.
  simp only [EachItem, alike key, Option.map_eq_some_iff, Value.ordered_eq_list]
  constructor
  · intro holds items found item member
    exact (each items found item member).mp
      (holds _ ⟨_, found, items, rfl, rfl⟩ _ (List.mem_map_of_mem member))
  · rintro holds _ ⟨_, found, items, rfl, rfl⟩ _ inside
    obtain ⟨item, member, rfl⟩ := List.mem_map.mp inside
    exact (each items found item member).mpr (holds items found item member)

/-- A field holds clauses in order exactly if it does as it stands. -/
theorem hasClauses {key : String} : HasClauses key fields' ↔ HasClauses key fields := by
  simp only [HasClauses, alike key, Option.map_eq_some_iff, Value.ordered_eq_list]
  constructor
  -- A clause that is a mapping in order was one, with the same sides.
  · rintro ⟨_, ⟨_, found, clauses, rfl, rfl⟩, each⟩
    refine ⟨clauses, found, fun clause member => ?_⟩
    obtain ⟨_, same, present⟩ := each _ (List.mem_map_of_mem member)
    obtain ⟨parts, rfl, rfl⟩ := Value.ordered_eq_dict.mp same
    exact ⟨parts, rfl, (sorted parts).present.mp present⟩
  · rintro ⟨clauses, found, each⟩
    refine ⟨_, ⟨_, found, clauses, rfl, rfl⟩, fun _ inside => ?_⟩
    obtain ⟨clause, member, rfl⟩ := List.mem_map.mp inside
    obtain ⟨parts, rfl, present⟩ := each clause member
    exact ⟨_, Value.ordered_eq_dict.mpr ⟨parts, rfl, rfl⟩, (sorted parts).present.mpr present⟩

/-- The sides of the clauses in a field are derived in order exactly if they are as they stand. -/
theorem eachClause {key : String}
    (each : ∀ clauses, fields.lookup? key = some (.list clauses) → ∀ parts, .dict parts ∈ clauses →
      ∀ side part, Table.lookup? side parts = some part → (derived part.ordered ↔ derived part)) :
    EachClause derived key fields' ↔ EachClause derived key fields := by
  -- Each clause is a mapping of its own, of which the sides are compared.
  simp only [EachClause, alike key, Option.map_eq_some_iff, Value.ordered_eq_list]
  constructor
  · intro holds clauses found parts member
    refine ((sorted parts).eachPart (each clauses found parts member)).mp ?_
    exact holds _ ⟨_, found, clauses, rfl, rfl⟩ _ (List.mem_map_of_mem member)
  · rintro holds _ ⟨_, found, clauses, rfl, rfl⟩ _ inside
    obtain ⟨clause, member, same⟩ := List.mem_map.mp inside
    obtain ⟨parts, rfl, rfl⟩ := Value.ordered_eq_dict.mp same
    exact ((sorted parts).eachPart (each clauses found parts member)).mpr
      (holds clauses found parts member)

end Shapes
end OrderedFields

/-- A script is written in the grammar exactly if it is with its fields in order of name. -/
theorem written_ordered (script : Value) : Written script.ordered ↔ Written script := by
  induction script using Value.induction_script with
  | scalar | date | datetime => rfl
  -- The items of a list are rewritten one by one, at the places where they were.
  | list items ih =>
    rw [Value.ordered, Value.orderedItems_eq_map]
    constructor
    · rintro ⟨⟩
      next each =>
      exact .list fun item member => (ih item member).mp (each _ (List.mem_map_of_mem member))
    · rintro ⟨⟩
      next each =>
      refine .list fun _ inside => ?_
      obtain ⟨item, member, rfl⟩ := List.mem_map.mp inside
      exact (ih item member).mpr (each item member)
  | dict fields inField inList inClause =>
    have alike := OrderedFields.sorted fields
    -- Each field of the operation is as its shape says in both or in neither.
    have holds : ∀ field, FieldHolds Written field (Table.sortByName (Value.orderedFields fields)) ↔
        FieldHolds Written field fields := by
      rintro ⟨key, shape⟩
      cases shape with
      | anything => exact alike.present
      | name =>
        simp only [FieldHolds, HasName, alike key, Option.map_eq_some_iff,
          Value.ordered_eq_scalar, exists_eq_right]
      | tree => exact and_congr alike.present (alike.eachPart inField)
      | optionalTree => exact alike.eachPart inField
      | trees | presentTrees => exact and_congr alike.hasList (alike.eachItem (inList key))
      | clauses => exact and_congr alike.hasClauses (alike.eachClause (inClause key))
    -- The operation is the same for both, and so are the fields it asks for.
    rw [Value.ordered]
    constructor
    · intro written
      obtain ⟨op, tag, each⟩ := written.holds
      refine .of_holds (alike.tagged.mp tag) fun field member => (holds field).mp (each field ?_)
      rwa [alike.fields_eq]
    · intro written
      obtain ⟨op, tag, each⟩ := written.holds
      refine .of_holds (alike.tagged.mpr tag) fun field member => (holds field).mpr (each field ?_)
      rwa [alike.fields_eq] at member

namespace Tree

mutual

/-- The script with the fields of every mapping in its literals in order of name. -/
def ordered : Tree → Tree
  | .scalar value => .scalar value
  | .literal value => .literal value.ordered
  | .array items => .array (orderedAll items)
  | .lookup name => .lookup name
  | .assign name value => .assign name (ordered value)
  | .sequence steps => .sequence (orderedAll steps)
  | .cond clauses => .cond (orderedClauses clauses)
  | .binary op left right => .binary op (ordered left) (ordered right)
  | .connective op operands => .connective op (orderedAll operands)
  | .fold op operands => .fold op (orderedAll operands)
  | .unary op operand => .unary op (ordered operand)
  | .randomRange kind low high unit => .randomRange kind (ordered low) (ordered high) (ordered unit)
  | .bernoulliTrial probability unit => .bernoulliTrial (ordered probability) (ordered unit)
  | .bernoulliFilter probability choices unit =>
    .bernoulliFilter (ordered probability) (ordered choices) (ordered unit)
  | .uniformChoice choices unit => .uniformChoice (ordered choices) (ordered unit)
  | .weightedChoice choices weights unit =>
    .weightedChoice (ordered choices) (ordered weights) (ordered unit)
  | .sample choices draws unit => .sample (ordered choices) (ordered draws) (ordered unit)
  | .index base key => .index (ordered base) (ordered key)
  | .includes collection item => .includes (ordered collection) (ordered item)

/-- The scripts of a row, each with its literals in order. -/
def orderedAll : List Tree → List Tree
  | [] => []
  | tree :: rest => ordered tree :: orderedAll rest

/-- The guards and bodies of clauses, each with its literals in order. -/
def orderedClauses : List (Tree × Tree) → List (Tree × Tree)
  | [] => []
  | (guard, body) :: rest => (ordered guard, ordered body) :: orderedClauses rest

end

/-- Scripts that differ at most in the order in which mappings in their literals name fields. -/
def Reordered (left right : Tree) : Prop :=
  left.ordered = right.ordered

/-- A script whose fields are put in order is read as the tree whose literals are. -/
def ReadsOrdered (script : Value) : Prop :=
  read? script.ordered = (read? script).map ordered

section Reading

variable {fields fields' : Table Value}

/-- The items of a list are read one by one. -/
theorem readItems?_ordered {items : List Value} (each : ∀ item ∈ items, ReadsOrdered item) :
    readItems? (items.map Value.ordered) = (readItems? items).map orderedAll := by
  -- By induction on the items; a failure of the first one ends both readings.
  induction items with
  | nil => rfl
  | cons item rest ih =>
    obtain ⟨here, others⟩ := List.forall_mem_cons.mp each
    rw [List.map_cons, readItems?, readItems?, here, ih others]
    simp [Option.map_bind, Option.bind_map, Function.comp_def, orderedAll]

section Alike

variable (alike : OrderedFields fields fields')
include alike

/-- The tree in a field that must be there. -/
theorem readField?_ordered (inField : ∀ key part, fields.lookup? key = some part → ReadsOrdered part)
    (key : String) : readField? key fields' = (readField? key fields).map ordered := by
  -- The lookup in order finds the ordered part, which is read as the ordered tree.
  rw [readField?_eq, readField?_eq, alike]
  cases found : fields.lookup? key with
  | none => rfl
  | some part => exact inField key part found

/-- The tree in a field that may be left out. -/
theorem readOptional?_ordered
    (inField : ∀ key part, fields.lookup? key = some part → ReadsOrdered part) (key : String) :
    readOptional? key fields' = (readOptional? key fields).map ordered := by
  -- A field that is left out is read as nothing on both sides.
  rw [readOptional?_eq, readOptional?_eq, alike]
  cases found : fields.lookup? key with
  | none => rfl
  | some part => exact inField key part found

/-- The trees in the list of a field. -/
theorem readTrees?_ordered
    (inList : ∀ key items, fields.lookup? key = some (.list items) → ∀ item ∈ items,
      ReadsOrdered item) (key : String) :
    readTrees? key fields' = (readTrees? key fields).map orderedAll := by
  rw [readTrees?_eq, readTrees?_eq, alike]
  cases found : fields.lookup? key with
  | none => rfl
  | some part =>
    -- Only a list has items, in order or as it stands.
    cases part with
    | list items =>
      simp only [Option.map_some, Option.bind_some, Value.ordered, Value.items?,
        Value.orderedItems_eq_map]
      exact readItems?_ordered (inList key items found)
    | _ => rfl

end Alike

/-- The guards and bodies of clauses are read one by one. -/
theorem readClauseItems?_ordered {clauses : List Value}
    (inClause : ∀ parts, .dict parts ∈ clauses → ∀ side part, Table.lookup? side parts = some part →
      ReadsOrdered part) :
    readClauseItems? (clauses.map Value.ordered) = (readClauseItems? clauses).map orderedClauses := by
  -- By induction on the clauses, each a mapping with two sides that must be there.
  induction clauses with
  | nil => rfl
  | cons clause rest ih =>
    have onward := ih fun parts member => inClause parts (List.mem_cons_of_mem _ member)
    cases clause with
    | dict parts =>
      have sides := readField?_ordered (.sorted parts) (inClause parts List.mem_cons_self)
      rw [List.map_cons, Value.ordered, readClauseItems?, readClauseItems?, sides, sides, onward]
      simp [Option.map_bind, Option.bind_map, Function.comp_def, orderedClauses]
    | _ => rfl

/-- The clauses in the list of a field. -/
theorem readClauses?_ordered (alike : OrderedFields fields fields')
    (inClause : ∀ key clauses, fields.lookup? key = some (.list clauses) →
      ∀ parts, .dict parts ∈ clauses → ∀ side part, Table.lookup? side parts = some part →
        ReadsOrdered part) (key : String) :
    readClauses? key fields' = (readClauses? key fields).map orderedClauses := by
  rw [readClauses?_eq, readClauses?_eq, alike]
  cases found : fields.lookup? key with
  | none => rfl
  | some part =>
    -- Only a list has clauses, in order or as it stands.
    cases part with
    | list clauses =>
      simp only [Option.map_some, Option.bind_some, Value.ordered, Value.items?,
        Value.orderedItems_eq_map]
      exact readClauseItems?_ordered (inClause key clauses found)
    | _ => rfl

/-- A name is read as it stands. -/
theorem nameField?_ordered (alike : OrderedFields fields fields') :
    nameField? fields' = nameField? fields := by
  -- Only a text is a name, and a text is the same in order.
  rw [nameField?, nameField?, alike]
  cases fields.lookup? "var" with
  | none => rfl
  | some part =>
    cases part with
    | scalar value => rfl
    | _ => rfl

/-- Reading a script and putting its fields in order can be done in either order. -/
theorem read?_ordered (script : Value) : read? script.ordered = (read? script).map ordered := by
  show ReadsOrdered script
  induction script using Value.induction_script with
  | scalar | date | datetime => rfl
  | list items ih =>
    rw [ReadsOrdered, Value.ordered, Value.orderedItems_eq_map, read?, read?,
      readItems?_ordered ih, Option.map_map, Option.map_map]
    rfl
  | dict fields inField inList inClause =>
    have alike := OrderedFields.sorted fields
    have field := readField?_ordered alike inField
    have optional := readOptional?_ordered alike inField
    have listed := readTrees?_ordered alike inList
    have sides := readClauses?_ordered alike inClause
    have named := nameField?_ordered alike
    rw [ReadsOrdered, Value.ordered]
    generalize Table.sortByName (Value.orderedFields fields) = fields' at *
    rw [read?, read?]
    cases tag : operationOf fields with
    | error defect =>
      -- An operation known in one order of the fields would be known in the other.
      cases tag' : operationOf fields' with
      | error => rfl
      | ok op =>
        rw [alike.operationOf_eq_ok, tag] at tag'
        cases tag'
    | ok op =>
      rw [alike.operationOf_eq_ok.mpr tag]
      -- Each operation is read from fields that are read in order.
      cases op with
      | literal => simp [alike "value", Function.comp_def, ordered]
      | lookup => simp [named, Function.comp_def, ordered]
      | array | sequence | fold => simp [listed, Function.comp_def, ordered]
      | cond => simp [sides, Function.comp_def, ordered]
      | unary => simp [field, Function.comp_def, ordered]
      | assign => simp [named, field, Option.map_bind, Option.bind_map, Function.comp_def, ordered]
      | index | includes => simp [field, Option.map_bind, Option.bind_map, Function.comp_def, ordered]
      | binary op =>
        simp only [alike.isNegation]
        split
        · simp [field, Function.comp_def, ordered]
        · simp [field, Option.map_bind, Option.bind_map, Function.comp_def, ordered]
      | connective op =>
        simp only [alike.writtenBetween]
        split
        · simp [field, Option.map_bind, Option.bind_map, Function.comp_def, ordered, orderedAll]
        · simp [listed, Function.comp_def, ordered]
      | randomRange | bernoulliTrial | bernoulliFilter | uniformChoice | weightedChoice | sample =>
        simp [field, optional, Option.map_bind, Option.bind_map, Function.comp_def, ordered]

end Reading

/-- A parsed script whose fields are put in order is parsed into the tree whose literals are. -/
theorem parse_ordered {script : Value} {tree : Tree} (parsed : parse script = .ok tree) :
    parse script.ordered = .ok tree.ordered := by
  obtain ⟨written, reads⟩ := parse_eq_ok_iff.mp parsed
  refine parse_eq_ok_iff.mpr ⟨(written_ordered script).mpr written, ?_⟩
  rw [read?_ordered, reads, Option.map_some]

section Writing

/-- A part that is left out stays so, and no other part is left out. -/
theorem isNull_ordered (tree : Tree) : tree.ordered.isNull = tree.isNull := by
  cases tree with
  | scalar value => rfl
  | _ => rfl

mutual

/-- What is written for a script differs in order only once its literals are put in order. -/
theorem toValue_ordered : ∀ tree : Tree, tree.ordered.toValue.ordered = tree.toValue.ordered
  | .scalar value => rfl
  | .literal value => by
    simp only [ordered, toValue, node, Value.ordered, Value.orderedFields, Value.ordered_ordered]
  | .lookup name => rfl
  | .array items | .sequence items | .connective _ items | .fold _ items => by
    simp only [ordered, toValue, node, Value.ordered, Value.orderedFields, toValues_ordered items]
  | .assign _ part | .unary _ part => by
    simp only [ordered, toValue, node, Value.ordered, Value.orderedFields, toValue_ordered part]
  | .cond clauses => by
    simp only [ordered, toValue, node, Value.ordered, Value.orderedFields,
      clauseValues_ordered clauses]
  | .binary _ first second | .bernoulliTrial first second | .uniformChoice first second
  | .index first second | .includes first second => by
    simp only [ordered, toValue, node, Value.ordered, Value.orderedFields, toValue_ordered first,
      toValue_ordered second]
  | .randomRange _ first second third | .bernoulliFilter first second third
  | .weightedChoice first second third => by
    simp only [ordered, toValue, node, Value.ordered, Value.orderedFields, toValue_ordered first,
      toValue_ordered second, toValue_ordered third]
  | .sample choices draws unit => by
    -- The number of draws is written in both or in neither.
    simp only [ordered, toValue, node, isNull_ordered]
    cases draws.isNull <;>
      simp [Value.ordered, Value.orderedFields, toValue_ordered choices, toValue_ordered draws,
        toValue_ordered unit]

/-- Trees in order are written as values that are the same in order. -/
theorem toValues_ordered : ∀ trees : List Tree,
    Value.orderedItems (toValues (orderedAll trees)) = Value.orderedItems (toValues trees)
  | [] => rfl
  | tree :: rest => by
    simp only [orderedAll, toValues, Value.orderedItems, toValue_ordered tree, toValues_ordered rest]

/-- Clauses in order are written as values that are the same in order. -/
theorem clauseValues_ordered : ∀ clauses : List (Tree × Tree),
    Value.orderedItems (clauseValues (orderedClauses clauses)) =
      Value.orderedItems (clauseValues clauses)
  | [] => rfl
  | (guard, body) :: rest => by
    simp only [orderedClauses, clauseValues, Value.orderedItems, Value.ordered, Value.orderedFields,
      toValue_ordered guard, toValue_ordered body, clauseValues_ordered rest]

end

/-- Scripts that differ in order only have one canonical text. -/
theorem Reordered.canonicalText_eq {left right : Tree} (alike : Reordered left right) :
    canonicalText left.toValue = canonicalText right.toValue := by
  -- The canonical text forgets the order of keys, so it is that of the tree in order.
  have written : ∀ tree : Tree, canonicalText tree.toValue = canonicalText tree.ordered.toValue := by
    intro tree
    rw [← canonicalText_ordered tree.toValue, ← canonicalText_ordered tree.ordered.toValue,
      toValue_ordered]
  rw [written left, written right, alike]

end Writing
end Tree
end TrialScript

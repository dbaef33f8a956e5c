import TrialScript.Proofs.Tree.Parts
import TrialScript.Proofs.Tree.Parsing
import TrialScript.Value.Order

/-! Writing trees: what is written for a tree is parsed into that tree, and into no other. -/

namespace TrialScript.Tree

mutual

/-- Plain equality of trees: nodes of one kind are equal when all their fields are. -/
def equals : Tree → Tree → Bool
  | .scalar left, .scalar right => left.equals right
  | .literal left, .literal right => left.equals right
  | .array lefts, .array rights => equalsAll lefts rights
  | .lookup left, .lookup right => left == right
  | .assign left value, .assign right value' => left == right && equals value value'
  | .sequence lefts, .sequence rights => equalsAll lefts rights
  | .cond lefts, .cond rights => equalsClauses lefts rights
  | .binary op left right, .binary op' left' right' =>
    op == op' && equals left left' && equals right right'
  | .connective op lefts, .connective op' rights => op == op' && equalsAll lefts rights
  | .fold op lefts, .fold op' rights => op == op' && equalsAll lefts rights
  | .unary op left, .unary op' right => op == op' && equals left right
  | .randomRange kind low high unit, .randomRange kind' low' high' unit' =>
    kind == kind' && equals low low' && equals high high' && equals unit unit'
  | .bernoulliTrial probability unit, .bernoulliTrial probability' unit' =>
    equals probability probability' && equals unit unit'
  | .bernoulliFilter probability choices unit, .bernoulliFilter probability' choices' unit' =>
    equals probability probability' && equals choices choices' && equals unit unit'
  | .uniformChoice choices unit, .uniformChoice choices' unit' =>
    equals choices choices' && equals unit unit'
  | .weightedChoice choices weights unit, .weightedChoice choices' weights' unit' =>
    equals choices choices' && equals weights weights' && equals unit unit'
  | .sample choices draws unit, .sample choices' draws' unit' =>
    equals choices choices' && equals draws draws' && equals unit unit'
  | .index base key, .index base' key' => equals base base' && equals key key'
  | .includes collection item, .includes collection' item' =>
    equals collection collection' && equals item item'
  | _, _ => false

/-- Plain equality of trees in a row, one by one. -/
def equalsAll : List Tree → List Tree → Bool
  | [], [] => true
  | left :: lefts, right :: rights => equals left right && equalsAll lefts rights
  | _, _ => false

/-- Plain equality of clauses, guard by guard and body by body. -/
def equalsClauses : List (Tree × Tree) → List (Tree × Tree) → Bool
  | [], [] => true
  | (guard, body) :: lefts, (guard', body') :: rights =>
    equals guard guard' && equals body body' && equalsClauses lefts rights
  | _, _ => false

end

/-- A part that is left out is the constant null. -/
theorem eq_null_of_isNull {tree : Tree} (absent : tree.isNull = true) : tree = null := by
  unfold isNull at absent
  split at absent
  · rfl
  · cases absent

section Lists

/-- The scripts that are written for trees in a row are those written for each. -/
theorem mem_toValues {script : Value} {trees : List Tree} :
    script ∈ toValues trees ↔ ∃ tree ∈ trees, tree.toValue = script := by
  induction trees with
  | nil => simp [toValues]
  | cons tree rest ih => simp [toValues, ih, eq_comm]

/-- The clauses that are written are those of a guard and a body each. -/
theorem mem_clauseValues {script : Value} {clauses : List (Tree × Tree)} :
    script ∈ clauseValues clauses ↔ ∃ clause ∈ clauses,
      .dict [("if", clause.1.toValue), ("then", clause.2.toValue)] = script := by
  induction clauses with
  | nil => simp [clauseValues]
  | cons clause rest ih => simp [clauseValues, ih, eq_comm]

/-- What holds of all parts of a conditional holds of the guard and the body of each clause. -/
theorem forall_clauses {motive : Tree → Prop} {clauses : List (Tree × Tree)}
    (each : ∀ part ∈ (cond clauses).parts, motive part) :
    ∀ clause ∈ clauses, motive clause.1 ∧ motive clause.2 := by
  intro clause member
  constructor <;> exact each _ (List.mem_flatMap.mpr ⟨clause, member, by simp⟩)

end Lists

section Reading

/-- A node is tagged with the operation that it is written for. -/
theorem tagged_node (op : Operation) (fields : Table Value) :
    Tagged (("op", .str op.name) :: fields) op := by
  simp [Tagged, Table.lookup?]

/-- What is written for a tree is written as it should be. -/
theorem written_toValue (tree : Tree) : Written tree.toValue := by
  -- The induction is over the parts, for which the fields of a node are written.
  induction tree using induction_parts with
  | step tree ih =>
    cases tree with
    | scalar value => exact .scalar value
    | array items | sequence items | connective _ items | fold _ items =>
      have each : ∀ script ∈ toValues items, Written script := by
        intro script member
        obtain ⟨item, inside, rfl⟩ := mem_toValues.mp member
        exact ih item inside
      refine .of_holds (tagged_node _ _) ?_
      -- The list of operands tells a connective from one that stands between two of them.
      simpa [Operation.fields, writtenBetween, Table.has, FieldHolds, HasList, EachItem,
        Table.lookup?] using each
    | cond clauses =>
      have each : ∀ script ∈ clauseValues clauses, ClauseHolds Written script := by
        intro script member
        obtain ⟨clause, inside, rfl⟩ := mem_clauseValues.mp member
        obtain ⟨guard, body⟩ := forall_clauses ih clause inside
        exact ⟨_, rfl, by simp [Present, Table.has, Table.lookup?],
          by simp [EachPart, Table.lookup?, guard, body]⟩
      refine .of_holds (tagged_node _ _) (List.forall_mem_singleton.mpr (clauses_hold.mpr ?_))
      exact ⟨_, by simp [Table.lookup?], each⟩
    | sample choices draws unit =>
      simp only [parts, List.forall_mem_cons] at ih
      refine .of_holds (tagged_node _ _) ?_
      -- Whether the number of draws is there or not, it is written as it should be.
      cases draws.isNull <;>
        simp [Operation.fields, FieldHolds, Present, EachPart, Table.has, Table.lookup?, ih]
    | _ =>
      simp only [parts, List.forall_mem_cons] at ih
      refine .of_holds (tagged_node _ _) ?_
      simp [Operation.fields, BinaryOp.isNegation, FieldHolds, HasName, Present, EachPart,
        Table.has, Table.lookup?, ih]

/-- Trees in a row are read from what is written for them if each of them is. -/
theorem readItems?_toValues {trees : List Tree}
    (each : ∀ tree ∈ trees, read? tree.toValue = some tree) :
    readItems? (toValues trees) = some trees := by
  -- By induction on the trees.
  induction trees with
  | nil => rfl
  | cons tree rest ih =>
    obtain ⟨here, others⟩ := List.forall_mem_cons.mp each
    simp [toValues, readItems?, here, ih others]

/-- Clauses are read from what is written for them if each guard and each body is. -/
theorem readClauseItems?_clauseValues {clauses : List (Tree × Tree)}
    (each : ∀ clause ∈ clauses,
      read? clause.1.toValue = some clause.1 ∧ read? clause.2.toValue = some clause.2) :
    readClauseItems? (clauseValues clauses) = some clauses := by
  -- By induction on the clauses, of which both sides are read.
  induction clauses with
  | nil => rfl
  | cons clause rest ih =>
    obtain ⟨⟨guard, body⟩, others⟩ := List.forall_mem_cons.mp each
    simp [clauseValues, readClauseItems?, readField?, guard, body, ih others]

/-- What is written for a tree is read as that tree. -/
theorem read?_toValue (tree : Tree) : read? tree.toValue = some tree := by
  have known : ∀ (op : Operation) (fields : Table Value),
      operationOf (("op", .str op.name) :: fields) = .ok op :=
    fun op fields => operationOf_eq_ok.mpr (tagged_node op fields)
  -- The induction is over the parts; each field is found under the key that it is written with.
  induction tree using induction_parts with
  | step tree ih =>
    cases tree with
    | scalar value => rfl
    | literal | lookup => simp [toValue, node, read?, known, nameField?, Table.lookup?]
    | array items | sequence items | connective _ items | fold _ items =>
      have items_read : readItems? (toValues items) = some items := readItems?_toValues ih
      simp [toValue, node, read?, known, readTrees?, writtenBetween, Table.has, Table.lookup?,
        items_read]
    | cond clauses =>
      have clauses_read := readClauseItems?_clauseValues (forall_clauses ih)
      simp [toValue, node, read?, known, readClauses?, clauses_read]
    | sample choices draws unit =>
      simp only [parts, List.forall_mem_cons] at ih
      cases absent : draws.isNull with
      | true =>
        -- The number of draws that is not written is read as null, which it was.
        obtain rfl := eq_null_of_isNull absent
        simp [toValue, node, read?, known, readField?, readOptional?, absent, ih]
      | false => simp [toValue, node, read?, known, readField?, readOptional?, absent, ih]
    | _ =>
      simp only [parts, List.forall_mem_cons] at ih
      simp [toValue, node, read?, known, readField?, readOptional?, nameField?,
        BinaryOp.isNegation, Table.has, Table.lookup?, ih]

/-- What is written for a tree is parsed into that tree. -/
theorem parse_toValue (tree : Tree) : parse tree.toValue = .ok tree := by
  -- Nothing is wrong with it, so it is read.
  have fine := (problems_eq_nil_iff tree.toValue).mpr (written_toValue tree)
  simp [parse, fine, read?_toValue]

/-- Different trees are written differently. -/
theorem toValue_injective {left right : Tree} (same : left.toValue = right.toValue) :
    left = right := by
  -- Both are what is read from the one script.
  have reads := read?_toValue left
  rw [same, read?_toValue] at reads
  exact (Option.some.inj reads).symm

end Reading

section Equality

/-- Different operations have different names. -/
theorem operation_of_name {op op' : Operation} (same : op.name = op'.name) : op = op' := by
  have found := Operation.ofName?_name op
  rw [same, Operation.ofName?_name] at found
  exact (Option.some.inj found).symm

/-- Nodes are equal when they have one operation and as many fields, which are equal. -/
theorem equals_node (op op' : Operation) (fields fields' : Table Value) :
    (node op fields).equals (node op' fields') =
      (op == op' && fields.length == fields'.length &&
        Value.equalsFields fields (("op", .str op'.name) :: fields')) := by
  have named : (op.name == op'.name) = (op == op') := by
    rw [Bool.eq_iff_iff, beq_iff_eq, beq_iff_eq]
    exact ⟨operation_of_name, congrArg Operation.name⟩
  -- The tag is the first field on both sides, and adds one to both lengths.
  simp only [node, Value.equals, Value.equalsFields, Table.lookup?, if_true, Scalar.equals, named,
    List.length_cons]
  cases op == op' <;> simp

/-- Trees in a row are equal as they are written. -/
theorem equalsItems_toValues {lefts rights : List Tree}
    (each : ∀ left ∈ lefts, ∀ right, left.toValue.equals right.toValue = left.equals right) :
    Value.equalsItems (toValues lefts) (toValues rights) = equalsAll lefts rights := by
  -- The induction goes through both rows in step.
  induction lefts generalizing rights with
  | nil => cases rights <;> rfl
  | cons left lefts ih =>
    obtain ⟨here, others⟩ := List.forall_mem_cons.mp each
    cases rights with
    | nil => rfl
    | cons right rights => rw [toValues, toValues, Value.equalsItems, equalsAll, here, ih others]

/-- Clauses are equal as they are written. -/
theorem equalsItems_clauseValues {lefts rights : List (Tree × Tree)}
    (each : ∀ clause ∈ lefts,
      (∀ right, clause.1.toValue.equals right.toValue = clause.1.equals right) ∧
        ∀ right, clause.2.toValue.equals right.toValue = clause.2.equals right) :
    Value.equalsItems (clauseValues lefts) (clauseValues rights) = equalsClauses lefts rights := by
  -- The induction goes through both rows in step, and each clause has the same two fields.
  induction lefts generalizing rights with
  | nil => cases rights <;> rfl
  | cons left lefts ih =>
    obtain ⟨⟨guard, body⟩, others⟩ := List.forall_mem_cons.mp each
    cases rights with
    | nil => rfl
    | cons right rights =>
      simp [clauseValues, Value.equalsItems, equalsClauses, Value.equals, Value.equalsFields,
        Table.lookup?, guard, body, ih others]

/-- Nodes of different operations, or a node and a constant, are equal in no form. -/
theorem not_equals_of_operation_ne {left right : Tree}
    (differ : left.operation? ≠ right.operation?) :
    left.equals right = false ∧ left.toValue.equals right.toValue = false := by
  constructor
  · unfold equals
    split <;> first | rfl | simp_all [operation?]
  · -- What is written is a constant or a node with the name of the operation.
    cases kind : left.operation? with
    | none =>
      obtain ⟨constant, rfl⟩ := left.handled.constant kind
      cases kind' : right.operation? with
      | none => exact absurd (kind.trans kind'.symm) differ
      | some op' =>
        obtain ⟨fields', written'⟩ := right.handled.tagged op' kind'
        rw [written']
        rfl
    | some op =>
      obtain ⟨fields, written⟩ := left.handled.tagged op kind
      rw [written]
      cases kind' : right.operation? with
      | none =>
        obtain ⟨constant, rfl⟩ := right.handled.constant kind'
        rfl
      | some op' =>
        obtain ⟨fields', written'⟩ := right.handled.tagged op' kind'
        -- The names of two operations differ, and those are the first fields compared.
        have others : op ≠ op' := by
          rintro rfl
          exact differ (kind.trans kind'.symm)
        simp [written', equals_node, others]

/-- Only null equals a part that is left out. -/
theorem equals_null (tree : Tree) :
    null.equals tree = tree.isNull ∧ tree.equals null = tree.isNull := by
  cases tree with
  | scalar value => cases value <;> exact ⟨rfl, rfl⟩
  | _ => exact ⟨rfl, rfl⟩

/-- Samples are equal as they are written, with a number of draws or without one. -/
theorem equals_toValue_sample {choices draws unit choices' draws' unit' : Tree}
    (alike : choices.toValue.equals choices'.toValue = choices.equals choices')
    (alikeDraws : draws.toValue.equals draws'.toValue = draws.equals draws')
    (alikeUnit : unit.toValue.equals unit'.toValue = unit.equals unit') :
    (sample choices draws unit).toValue.equals (sample choices' draws' unit').toValue =
      (sample choices draws unit).equals (sample choices' draws' unit') := by
  -- The number of draws is written on both sides, on neither or on one of them only.
  cases absent : draws.isNull <;> cases absent' : draws'.isNull
  case false.false =>
    simp [toValue, equals_node, Value.equalsFields, Table.lookup?, equals, alike, alikeDraws,
      alikeUnit, absent, absent', Bool.and_assoc, Bool.and_comm]
  case false.true =>
    obtain rfl := eq_null_of_isNull absent'
    simp [toValue, equals_node, equals, equals_null, absent, absent']
  case true.false =>
    obtain rfl := eq_null_of_isNull absent
    simp [toValue, equals_node, equals, equals_null, absent, absent']
  case true.true =>
    obtain rfl := eq_null_of_isNull absent
    simp [toValue, equals_node, Value.equalsFields, Table.lookup?, equals, equals_null, alike,
      alikeUnit, absent, absent']

/-- Trees are equal exactly if what is written for them is. -/
theorem equals_toValue (left right : Tree) :
    left.toValue.equals right.toValue = left.equals right := by
  -- The induction is over the parts of the left one; the right one is of the same kind.
  induction left using induction_parts generalizing right with
  | step left ih =>
    rcases ne_or_eq left.operation? right.operation? with differ | alike
    · obtain ⟨asTrees, asValues⟩ := not_equals_of_operation_ne differ
      rw [asTrees, asValues]
    cases left with
    | scalar x =>
      cases right <;> cases alike
      rfl
    | literal | lookup =>
      cases right <;> cases alike
      simp [toValue, equals_node, Value.equalsFields, Table.lookup?, Value.equals, Scalar.equals,
        equals]
    -- With a list of parts the names of the operations are the same, so the parts decide.
    | array lefts | sequence lefts | connective _ lefts | fold _ lefts =>
      cases right <;> cases alike
      have each : ∀ rights,
          Value.equalsItems (toValues lefts) (toValues rights) = equalsAll lefts rights :=
        fun _ => equalsItems_toValues ih
      simp [toValue, equals_node, Value.equalsFields, Table.lookup?, Value.equals, equals, each]
    | cond clauses =>
      cases right <;> cases alike
      have each : ∀ clauses', Value.equalsItems (clauseValues clauses) (clauseValues clauses') =
          equalsClauses clauses clauses' := fun _ => equalsItems_clauseValues (forall_clauses ih)
      simp [toValue, equals_node, Value.equalsFields, Table.lookup?, Value.equals, equals, each]
    | sample choices draws unit =>
      cases right <;> cases alike
      simp only [parts, List.forall_mem_cons] at ih
      exact equals_toValue_sample (ih.1 _) (ih.2.1 _) (ih.2.2.1 _)
    -- With a fixed number of parts the names and all fields but the parts compare alike.
    | _ =>
      simp only [parts, List.forall_mem_cons] at ih
      cases right <;> cases alike
      simp [toValue, equals_node, Value.equalsFields, Table.lookup?, Value.equals, Scalar.equals,
        equals, ih, Bool.and_assoc]

end Equality

/--
What is written for a parsed tree is parsed into that tree again, for which the same is written.

Two scripts that are parsed have the same written form exactly if they are parsed alike, and equal
written forms exactly if their trees are equal. Equal trees need not be the same, since a truth
value equals a number and a mapping equals one of another order.
-/
theorem toValue_round_trip {script other : Value} {tree tree' : Tree}
    (parsed : parse script = .ok tree) (parsed' : parse other = .ok tree') :
    parse tree.toValue = .ok tree ∧
    (parse tree.toValue).map toValue = .ok tree.toValue ∧
    (tree.toValue = tree'.toValue ↔ parse script = parse other) ∧
    tree.toValue.equals tree'.toValue = tree.equals tree' := by
  have again := parse_toValue tree
  refine ⟨again, by rw [again]; rfl, ?_, equals_toValue tree tree'⟩
  -- The written form tells trees apart, and it depends on the tree alone.
  rw [parsed, parsed']
  constructor
  · intro same
    rw [toValue_injective same]
  · intro same
    cases same
    rfl

/-- Negations are written in one form; those of one and of truth are equal but not the same. -/
theorem toValue_round_trip_negation :
    let script : Value := .dict [("op", .str "-"), ("value", .int 1)]
    let other : Value := .dict [("op", .str "negative"), ("value", .bool true)]
    let tree : Tree := .unary .negate (.scalar (.num (.int 1)))
    let tree' : Tree := .unary .negate (.scalar (.bool true))
    parse script = .ok tree ∧ parse other = .ok tree' ∧ parse tree.toValue = .ok tree ∧
      (parse tree.toValue).map toValue = .ok tree.toValue ∧
      (tree.toValue = tree'.toValue ↔ parse script = parse other) ∧
      tree.toValue.equals tree'.toValue = tree.equals tree' ∧
      tree.equals tree' = true ∧ tree ≠ tree' := by
  -- Both scripts are parsed by evaluation, and the theorem says what is written for them.
  intro script other tree tree'
  have parsed : parse script = .ok tree := rfl
  have parsed' : parse other = .ok tree' := rfl
  obtain ⟨again, rewritten, alike, equal⟩ := toValue_round_trip parsed parsed'
  have sameQuantity : tree.equals tree' = true := by decide +kernel
  have differ : tree ≠ tree' := by simp [tree, tree']
  exact ⟨parsed, parsed', again, rewritten, alike, equal, sameQuantity, differ⟩

end TrialScript.Tree

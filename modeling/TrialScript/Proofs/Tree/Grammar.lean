import TrialScript.Proofs.Tree.Traversal

/-! The grammar of written scripts: exactly what it derives has no problems, and can be read. -/

namespace TrialScript

/-- A node is tagged with the name of an operation. -/
def Tagged (fields : Table Value) (op : Operation) : Prop :=
  fields.lookup? "op" = some (.str op.name)

/-- All of some fields are there. -/
def Present (keys : List String) (fields : Table Value) : Prop :=
  ∀ key ∈ keys, fields.has key = true

/-- A field is there and holds a text. -/
def HasName (key : String) (fields : Table Value) : Prop :=
  ∃ name, fields.lookup? key = some (.str name)

/-- A field is there and holds a list. -/
def HasList (key : String) (fields : Table Value) : Prop :=
  ∃ items, fields.lookup? key = some (.list items)

/-- A field is there and lists clauses, each with a guard and a body. -/
def HasClauses (key : String) (fields : Table Value) : Prop :=
  ∃ clauses, fields.lookup? key = some (.list clauses) ∧
    ∀ clause ∈ clauses, ∃ parts, clause = .dict parts ∧ Present ["if", "then"] parts

section Parts

variable (derived : Value → Prop)

/-- Each of some fields that are there holds a derived part. -/
def EachPart (keys : List String) (fields : Table Value) : Prop :=
  ∀ key ∈ keys, ∀ part, fields.lookup? key = some part → derived part

/-- Each item in the list of a field is derived. -/
def EachItem (key : String) (fields : Table Value) : Prop :=
  ∀ items, fields.lookup? key = some (.list items) → ∀ item ∈ items, derived item

/-- Each guard and each body in the clauses of a field is derived. -/
def EachClause (key : String) (fields : Table Value) : Prop :=
  ∀ clauses, fields.lookup? key = some (.list clauses) →
    ∀ parts, .dict parts ∈ clauses → EachPart derived ["if", "then"] parts

end Parts

/-- The written scripts: constants, lists, and one form of node or more for each operation. -/
inductive Written : Value → Prop where
  | scalar (value : Scalar) : Written (.scalar value)
  | list {items : List Value} (each : ∀ item ∈ items, Written item) : Written (.list items)
  | literal {fields : Table Value} (tag : Tagged fields .literal)
      (present : Present ["value"] fields) : Written (.dict fields)
  | array {fields : Table Value} (tag : Tagged fields .array) (items : HasList "values" fields)
      (each : EachItem Written "values" fields) : Written (.dict fields)
  | lookup {fields : Table Value} (tag : Tagged fields .lookup) (name : HasName "var" fields) :
      Written (.dict fields)
  | assign {fields : Table Value} (tag : Tagged fields .assign) (name : HasName "var" fields)
      (present : Present ["value"] fields) (each : EachPart Written ["value"] fields) :
      Written (.dict fields)
  | sequence {fields : Table Value} (tag : Tagged fields .sequence) (steps : HasList "seq" fields)
      (each : EachItem Written "seq" fields) : Written (.dict fields)
  | cond {fields : Table Value} (tag : Tagged fields .cond) (clauses : HasClauses "cond" fields)
      (each : EachClause Written "cond" fields) : Written (.dict fields)
  | binary {fields : Table Value} (op : BinaryOp) (tag : Tagged fields (.binary op))
      (present : Present ["left", "right"] fields)
      (each : EachPart Written ["left", "right"] fields) : Written (.dict fields)
  /-- The difference that has a value and no left side is the opposite of the value. -/
  | negation {fields : Table Value} (tag : Tagged fields (.binary (.calculate .subtract)))
      (absent : fields.has "left" = false) (present : Present ["value"] fields)
      (each : EachPart Written ["value"] fields) : Written (.dict fields)
  | connective {fields : Table Value} (op : Connective) (tag : Tagged fields (.connective op))
      (operands : HasList "values" fields) (each : EachItem Written "values" fields) :
      Written (.dict fields)
  /-- A connective without a list of operands stands between two of them. -/
  | between {fields : Table Value} (op : Connective) (tag : Tagged fields (.connective op))
      (absent : fields.has "values" = false) (present : Present ["left", "right"] fields)
      (each : EachPart Written ["left", "right"] fields) : Written (.dict fields)
  | fold {fields : Table Value} (op : FoldOp) (tag : Tagged fields (.fold op))
      (operands : HasList "values" fields) (each : EachItem Written "values" fields) :
      Written (.dict fields)
  | unary {fields : Table Value} (op : UnaryOp) (tag : Tagged fields (.unary op))
      (present : Present ["value"] fields) (each : EachPart Written ["value"] fields) :
      Written (.dict fields)
  | randomRange {fields : Table Value} (kind : RangeKind) (tag : Tagged fields (.randomRange kind))
      (present : Present ["min", "max"] fields)
      (each : EachPart Written ["min", "max", "unit"] fields) : Written (.dict fields)
  | bernoulliTrial {fields : Table Value} (tag : Tagged fields .bernoulliTrial)
      (present : Present ["p"] fields) (each : EachPart Written ["p", "unit"] fields) :
      Written (.dict fields)
  | bernoulliFilter {fields : Table Value} (tag : Tagged fields .bernoulliFilter)
      (present : Present ["p", "choices"] fields)
      (each : EachPart Written ["p", "choices", "unit"] fields) : Written (.dict fields)
  | uniformChoice {fields : Table Value} (tag : Tagged fields .uniformChoice)
      (present : Present ["choices"] fields) (each : EachPart Written ["choices", "unit"] fields) :
      Written (.dict fields)
  | weightedChoice {fields : Table Value} (tag : Tagged fields .weightedChoice)
      (present : Present ["choices", "weights"] fields)
      (each : EachPart Written ["choices", "weights", "unit"] fields) : Written (.dict fields)
  | sample {fields : Table Value} (tag : Tagged fields .sample)
      (present : Present ["choices"] fields)
      (each : EachPart Written ["choices", "draws", "unit"] fields) : Written (.dict fields)
  | index {fields : Table Value} (tag : Tagged fields .index)
      (present : Present ["base", "index"] fields)
      (each : EachPart Written ["base", "index"] fields) : Written (.dict fields)
  | includes {fields : Table Value} (tag : Tagged fields .includes)
      (present : Present ["collection", "value"] fields)
      (each : EachPart Written ["collection", "value"] fields) : Written (.dict fields)

/-- The operation of a node is the one that its tag names. -/
theorem operationOf_eq_ok {fields : Table Value} {op : Operation} :
    operationOf fields = .ok op ↔ Tagged fields op := by
  -- Operations have different names, so a name is found for one of them only.
  have named : ∀ {name : String}, Operation.ofName? name = some op ↔ name = op.name := by
    intro name
    constructor
    · intro found
      have held := List.find?_some found
      exact (beq_iff_eq.mp held).symm
    · intro same
      rw [same]
      exact Operation.ofName?_name op
  -- The tag may be absent or null, a known or an unknown name, or no name at all.
  unfold operationOf Tagged
  split
  · next absent => simp [absent]
  · next null => simp [null]
  · next name found =>
    rw [found]
    simp only [Option.some.injEq, Value.scalar.injEq, Scalar.str.injEq, ← named]
    split
    · next op' known => simp [known]
    · next unknown => simp [unknown]
  · next other _ notText found =>
    rw [found]
    refine iff_of_false (fun known => by cases known) fun same => ?_
    exact notText _ (Option.some.inj same)

section Shapes

variable {derived : Value → Prop} {fields : Table Value}

/-- A field of a node is as its shape says, and what it holds is derived. -/
def FieldHolds (derived : Value → Prop) (field : Field) (fields : Table Value) : Prop :=
  match field.shape with
  | .anything => Present [field.key] fields
  | .name => HasName field.key fields
  | .tree => Present [field.key] fields ∧ EachPart derived [field.key] fields
  | .optionalTree => EachPart derived [field.key] fields
  | .trees | .presentTrees => HasList field.key fields ∧ EachItem derived field.key fields
  | .clauses => HasClauses field.key fields ∧ EachClause derived field.key fields

/-- Fields that hold a part each, of which the optional ones may be left out. -/
def treeFields (required optional : List String) : List Field :=
  (required.map fun key => ⟨key, .tree⟩) ++ optional.map fun key => ⟨key, .optionalTree⟩

/-- Fields for trees hold if the required ones are present and each part is derived. -/
theorem forall_treeFields (required optional : List String) :
    (∀ field ∈ treeFields required optional, FieldHolds derived field fields) ↔
      Present required fields ∧ EachPart derived (required ++ optional) fields := by
  simp only [treeFields, List.forall_mem_append, List.forall_mem_map, FieldHolds, Present, EachPart,
    List.forall_mem_singleton, forall_and, and_assoc]

/-- A field that holds a list is there. -/
theorem HasList.has {key : String} (holds : HasList key fields) : fields.has key = true := by
  obtain ⟨items, found⟩ := holds
  simp only [Table.has, found, Option.isSome_some]

section Forms

variable {op : BinaryOp} {connective : Connective}

/-- The negation of an operand is written with that operand only. -/
theorem fields_of_negation (negates : op.isNegation fields = true) :
    Operation.fields fields (.binary op) = treeFields ["value"] [] := by
  simp only [Operation.fields, negates, if_true]
  rfl

/-- Any other binary operation is written with two sides. -/
theorem fields_of_sides (sides : op.isNegation fields = false) :
    Operation.fields fields (.binary op) = treeFields ["left", "right"] [] := by
  simp only [Operation.fields, sides, Bool.false_eq_true, if_false]
  rfl

/-- A connective between operands is written with two sides. -/
theorem fields_between (between : writtenBetween fields = true) :
    Operation.fields fields (.connective connective) = treeFields ["left", "right"] [] := by
  simp only [Operation.fields, between, if_true]
  rfl

/-- Any other connective is written with a list of operands. -/
theorem fields_listed (listed : writtenBetween fields = false) :
    Operation.fields fields (.connective connective) = [⟨"values", .trees⟩] := by
  simp only [Operation.fields, listed, Bool.false_eq_true, if_false]

end Forms

/-- A written node has a known tag, and each field of its operation is as it should be. -/
theorem Written.holds (written : Written (.dict fields)) :
    ∃ op, Tagged fields op ∧ ∀ field ∈ op.fields fields, FieldHolds Written field fields := by
  -- Every form is that of one operation, whose fields depend on the keys in two cases.
  cases written with
  | literal tag present => exact ⟨_, tag, List.forall_mem_singleton.mpr present⟩
  | lookup tag name => exact ⟨_, tag, List.forall_mem_singleton.mpr name⟩
  | array tag items each | sequence tag items each | fold op tag items each =>
    exact ⟨_, tag, List.forall_mem_singleton.mpr ⟨items, each⟩⟩
  | cond tag clauses each => exact ⟨_, tag, List.forall_mem_singleton.mpr ⟨clauses, each⟩⟩
  | assign tag name present each =>
    have value := (forall_treeFields ["value"] []).mpr ⟨present, each⟩
    exact ⟨_, tag, List.forall_mem_cons.mpr ⟨name, value⟩⟩
  | binary op tag present each =>
    -- A left side tells the operation from a negation.
    have left := present "left" List.mem_cons_self
    have sides : op.isNegation fields = false := by
      simp only [BinaryOp.isNegation, left, Bool.not_true, Bool.and_false]
    refine ⟨_, tag, ?_⟩
    rw [fields_of_sides sides]
    exact (forall_treeFields _ _).mpr ⟨present, each⟩
  | negation tag absent present each =>
    have value := present "value" List.mem_cons_self
    have negates : BinaryOp.isNegation fields (.calculate .subtract) = true := by
      simp only [BinaryOp.isNegation, absent, value, decide_true, Bool.not_false, Bool.and_self]
    refine ⟨_, tag, ?_⟩
    rw [fields_of_negation negates]
    exact (forall_treeFields _ _).mpr ⟨present, each⟩
  | connective op tag operands each =>
    have listed : writtenBetween fields = false := by
      simp only [writtenBetween, operands.has, Bool.not_true]
    refine ⟨_, tag, ?_⟩
    rw [fields_listed listed]
    exact List.forall_mem_singleton.mpr ⟨operands, each⟩
  | between op tag absent present each =>
    have between : writtenBetween fields = true := by
      simp only [writtenBetween, absent, Bool.not_false]
    refine ⟨_, tag, ?_⟩
    rw [fields_between between]
    exact (forall_treeFields _ _).mpr ⟨present, each⟩
  | unary op tag present each =>
    exact ⟨_, tag, (forall_treeFields ["value"] []).mpr ⟨present, each⟩⟩
  | randomRange kind tag present each =>
    exact ⟨_, tag, (forall_treeFields ["min", "max"] ["unit"]).mpr ⟨present, each⟩⟩
  | bernoulliTrial tag present each =>
    exact ⟨_, tag, (forall_treeFields ["p"] ["unit"]).mpr ⟨present, each⟩⟩
  | bernoulliFilter tag present each =>
    exact ⟨_, tag, (forall_treeFields ["p", "choices"] ["unit"]).mpr ⟨present, each⟩⟩
  | uniformChoice tag present each =>
    exact ⟨_, tag, (forall_treeFields ["choices"] ["unit"]).mpr ⟨present, each⟩⟩
  | weightedChoice tag present each =>
    exact ⟨_, tag, (forall_treeFields ["choices", "weights"] ["unit"]).mpr ⟨present, each⟩⟩
  | sample tag present each =>
    exact ⟨_, tag, (forall_treeFields ["choices"] ["draws", "unit"]).mpr ⟨present, each⟩⟩
  | index tag present each =>
    exact ⟨_, tag, (forall_treeFields ["base", "index"] []).mpr ⟨present, each⟩⟩
  | includes tag present each =>
    exact ⟨_, tag, (forall_treeFields ["collection", "value"] []).mpr ⟨present, each⟩⟩

/-- A node is written if each field of the operation that it is tagged with is as it should be. -/
theorem Written.of_holds {op : Operation} (tag : Tagged fields op)
    (holds : ∀ field ∈ op.fields fields, FieldHolds Written field fields) :
    Written (.dict fields) := by
  -- Every operation has one form, or two that the keys tell apart.
  cases op with
  | literal => exact .literal tag (holds ⟨"value", .anything⟩ List.mem_cons_self)
  | lookup => exact .lookup tag (holds ⟨"var", .name⟩ List.mem_cons_self)
  | array =>
    obtain ⟨items, each⟩ := holds ⟨"values", .trees⟩ List.mem_cons_self
    exact .array tag items each
  | sequence =>
    obtain ⟨steps, each⟩ := holds ⟨"seq", .trees⟩ List.mem_cons_self
    exact .sequence tag steps each
  | fold op =>
    obtain ⟨operands, each⟩ := holds ⟨"values", .presentTrees⟩ List.mem_cons_self
    exact .fold op tag operands each
  | cond =>
    obtain ⟨clauses, each⟩ := holds ⟨"cond", .clauses⟩ List.mem_cons_self
    exact .cond tag clauses each
  | assign =>
    obtain ⟨name, value⟩ := List.forall_mem_cons.mp holds
    obtain ⟨present, each⟩ := (forall_treeFields ["value"] []).mp value
    exact .assign tag name present each
  | binary op =>
    cases negates : op.isNegation fields with
    | true =>
      rw [fields_of_negation negates] at holds
      obtain ⟨present, each⟩ := (forall_treeFields _ _).mp holds
      -- Only a difference without a left side is a negation.
      simp only [BinaryOp.isNegation, Bool.and_eq_true, decide_eq_true_eq,
        Bool.not_eq_true'] at negates
      obtain ⟨⟨rfl, -⟩, absent⟩ := negates
      exact .negation tag absent present each
    | false =>
      rw [fields_of_sides negates] at holds
      obtain ⟨present, each⟩ := (forall_treeFields _ _).mp holds
      exact .binary op tag present each
  | connective op =>
    cases between : writtenBetween fields with
    | true =>
      rw [fields_between between] at holds
      obtain ⟨present, each⟩ := (forall_treeFields _ _).mp holds
      simp only [writtenBetween, Bool.not_eq_true'] at between
      exact .between op tag between present each
    | false =>
      rw [fields_listed between] at holds
      obtain ⟨operands, each⟩ := List.forall_mem_singleton.mp holds
      exact .connective op tag operands each
  | unary op =>
    obtain ⟨present, each⟩ := (forall_treeFields ["value"] []).mp holds
    exact .unary op tag present each
  | randomRange kind =>
    obtain ⟨present, each⟩ := (forall_treeFields ["min", "max"] ["unit"]).mp holds
    exact .randomRange kind tag present each
  | bernoulliTrial =>
    obtain ⟨present, each⟩ := (forall_treeFields ["p"] ["unit"]).mp holds
    exact .bernoulliTrial tag present each
  | bernoulliFilter =>
    obtain ⟨present, each⟩ := (forall_treeFields ["p", "choices"] ["unit"]).mp holds
    exact .bernoulliFilter tag present each
  | uniformChoice =>
    obtain ⟨present, each⟩ := (forall_treeFields ["choices"] ["unit"]).mp holds
    exact .uniformChoice tag present each
  | weightedChoice =>
    obtain ⟨present, each⟩ := (forall_treeFields ["choices", "weights"] ["unit"]).mp holds
    exact .weightedChoice tag present each
  | sample =>
    obtain ⟨present, each⟩ := (forall_treeFields ["choices"] ["draws", "unit"]).mp holds
    exact .sample tag present each
  | index =>
    obtain ⟨present, each⟩ := (forall_treeFields ["base", "index"] []).mp holds
    exact .index tag present each
  | includes =>
    obtain ⟨present, each⟩ := (forall_treeFields ["collection", "value"] []).mp holds
    exact .includes tag present each

/-- A clause as it should be: a guard and a body that are derived. -/
def ClauseHolds (derived : Value → Prop) (clause : Value) : Prop :=
  ∃ parts, clause = .dict parts ∧ Present ["if", "then"] parts ∧
    EachPart derived ["if", "then"] parts

/-- A field of clauses is as it should be if it lists clauses that are. -/
theorem clauses_hold {key : String} :
    HasClauses key fields ∧ EachClause derived key fields ↔
      ∃ clauses, fields.lookup? key = some (.list clauses) ∧
        ∀ clause ∈ clauses, ClauseHolds derived clause := by
  -- A field has one value, so both sides speak of the same clauses.
  constructor
  · intro ⟨⟨clauses, found, whole⟩, each⟩
    refine ⟨clauses, found, fun clause member => ?_⟩
    obtain ⟨parts, rfl, present⟩ := whole clause member
    exact ⟨parts, rfl, present, each clauses found parts member⟩
  · intro ⟨clauses, found, holds⟩
    refine ⟨⟨clauses, found, fun clause member => ?_⟩, fun items listed parts member => ?_⟩
    · obtain ⟨parts, same, present, -⟩ := holds clause member
      exact ⟨parts, same, present⟩
    · cases found.symm.trans listed
      obtain ⟨_, ⟨⟩, -, each⟩ := holds _ member
      exact each

end Shapes

section Passing

variable {derived : Value → Prop} {fields : Table Value}

/-- A finding passes if it is a derived part. -/
def Finding.Passes (derived : Value → Prop) : Finding → Prop
  | .wrong _ => False
  | .visit _ part => derived part

/-- What is found passes if nothing is wrong and every part to go to is derived. -/
def Passes (derived : Value → Prop) (found : List Finding) : Prop :=
  ∀ finding ∈ found, finding.Passes derived

/-- A single finding passes if it does. -/
theorem passes_singleton {finding : Finding} :
    Passes derived [finding] ↔ finding.Passes derived :=
  List.forall_mem_singleton

/-- Findings pass if the first one and the others do. -/
theorem passes_cons {finding : Finding} {rest : List Finding} :
    Passes derived (finding :: rest) ↔ finding.Passes derived ∧ Passes derived rest :=
  List.forall_mem_cons

/-- Findings pass together if they do apart. -/
theorem passes_append {lefts rights : List Finding} :
    Passes derived (lefts ++ rights) ↔ Passes derived lefts ∧ Passes derived rights :=
  List.forall_mem_append

/-- Problems do not pass, unless there are none. -/
theorem passes_wrong {found : List Problem} : Passes derived (found.map .wrong) ↔ found = [] := by
  cases found <;> simp [Passes, Finding.Passes]

/-- It makes no difference from where the findings are seen. -/
theorem passes_under {segment : Segment} {found : List Finding} :
    Passes derived (found.map (Finding.under segment)) ↔ Passes derived found := by
  -- A step in front of the place changes neither the kind of a finding nor its part.
  simp only [Passes, List.forall_mem_map]
  refine forall₂_congr fun finding _ => ?_
  cases finding <;> rfl

/-- Items pass if each of them is derived. -/
theorem passes_itemFindings (index : Nat) {items : List Value} :
    Passes derived (itemFindings index items) ↔ ∀ item ∈ items, derived item := by
  -- The induction is on the items, from any number on.
  induction items generalizing index with
  | nil => simp [itemFindings, Passes]
  | cons item rest ih => rw [itemFindings, passes_cons, ih, List.forall_mem_cons, Finding.Passes]

/-- A part of a clause passes if it is there and is derived. -/
theorem passes_partFinding {key : String} {parts : Table Value} :
    (partFinding key parts).Passes derived ↔
      parts.has key = true ∧ ∀ part, parts.lookup? key = some part → derived part := by
  unfold partFinding
  cases found : parts.lookup? key <;> simp [Finding.Passes, Table.has, found]

/-- Clauses pass if each of them holds. -/
theorem passes_clauseFindings (index : Nat) {clauses : List Value} :
    Passes derived (clauseFindings index clauses) ↔
      ∀ clause ∈ clauses, ClauseHolds derived clause := by
  -- The induction is on the clauses, from any number on.
  induction clauses generalizing index with
  | nil => simp [clauseFindings, Passes]
  | cons clause rest ih =>
    rw [List.forall_mem_cons, ← ih (index + 1)]
    cases clause with
    | dict parts =>
      -- The findings in one clause are those in its guard and in its body.
      have sides : Passes derived [partFinding "if" parts, partFinding "then" parts] ↔
          ClauseHolds derived (.dict parts) := by
        rw [passes_cons, passes_singleton, passes_partFinding, passes_partFinding,
          and_and_and_comm]
        simp [ClauseHolds, Present, EachPart]
      rw [clauseFindings, passes_append, passes_under, sides]
    | _ =>
      rw [clauseFindings, passes_cons]
      · simp [Finding.Passes, ClauseHolds]
      · simp

/-- What is found in a field passes exactly if the field holds what it should. -/
theorem passes_fieldFindings (op : Operation) {field : Field} :
    Passes derived (fieldFindings op field fields) ↔ FieldHolds derived field fields := by
  -- A field that is not there is wrong, unless it is an optional one.
  obtain ⟨key, shape⟩ := field
  unfold fieldFindings
  cases found : fields.lookup? key with
  | none =>
    have absent : fields.has key = false := by simp [Table.has, found]
    rw [passes_wrong]
    cases shape <;> simp [Field.absent, FieldHolds, Present, EachPart, HasName, HasList, HasClauses,
      found, absent]
  | some value =>
    have present : fields.has key = true := by simp [Table.has, found]
    cases shape with
    | anything => simp [heldFindings, FieldHolds, Present, Passes, present]
    | name =>
      -- Only a text has nothing wrong with it in the place of a name.
      have text : nameProblems op value = [] ↔ ∃ name, value = .str name := by
        unfold nameProblems
        split <;> simp_all
      simp only [heldFindings, FieldHolds, passes_wrong, text, HasName, found, Option.some.injEq]
    | tree | optionalTree =>
      simp [heldFindings, FieldHolds, passes_singleton, Finding.Passes, Present, EachPart, found,
        present]
    | trees | presentTrees =>
      cases value with
      | list items =>
        simp [heldFindings, FieldHolds, passes_under, passes_itemFindings, HasList, EachItem, found]
      | _ =>
        simp [heldFindings, FieldHolds, passes_singleton, Finding.Passes, HasList, found]
    | clauses =>
      cases value with
      | list clauses =>
        simp [heldFindings, FieldHolds, passes_under, passes_clauseFindings, clauses_hold, found]
      | _ =>
        simp [heldFindings, FieldHolds, passes_singleton, Finding.Passes, HasClauses, found]

/-- What is found in a node passes if its tag is known and its fields hold what they should. -/
theorem passes_findings_dict : Passes derived (findings (.dict fields)) ↔
    ∃ op, Tagged fields op ∧ ∀ field ∈ op.fields fields, FieldHolds derived field fields := by
  -- A wrong tag is all that is found in a node; otherwise its fields are gone through in order.
  simp only [← operationOf_eq_ok]
  cases tag : operationOf fields with
  | error defect => simp [findings, tag, passes_singleton, Finding.Passes]
  | ok op =>
    have fieldwise : (∀ field ∈ op.fields fields, FieldHolds derived field fields) ↔
        Passes derived ((op.fields fields).flatMap fun field => fieldFindings op field fields) := by
      simp only [← passes_fieldFindings op]
      exact List.forall_mem_flatMap.symm
    simp [findings, tag, fieldwise]

end Passing

/-- A script is written if nothing is wrong in it and every part to go to is written. -/
theorem written_iff_passes {script : Value} :
    Written script ↔ Passes Written (findings script) := by
  -- The cases are the shapes of values, of which calendar values are never written.
  cases script with
  | scalar value => exact iff_of_true (.scalar value) (by simp [findings, Passes])
  | list items =>
    rw [findings, passes_itemFindings]
    constructor
    · intro written
      cases written with
      | list each => exact each
    · exact .list
  | dict fields =>
    rw [passes_findings_dict]
    constructor
    · exact Written.holds
    · intro found
      obtain ⟨op, tag, holds⟩ := found
      exact .of_holds tag holds
  | date value | datetime value =>
    exact iff_of_false (by rintro ⟨⟩) (by simp [findings, Passes, Finding.Passes])

/-- A script has no problems exactly if it is written. -/
theorem problems_eq_nil_iff (script : Value) : problems script = [] ↔ Written script := by
  -- The parts that the traversal goes to have no problems exactly if they are written.
  induction script using induction_findings with
  | step script ih =>
    rw [written_iff_passes, problems_eq, List.flatMap_eq_nil_iff]
    refine forall₂_congr fun finding member => ?_
    cases finding with
    | wrong problem => simp [Finding.problems, Finding.Passes]
    | visit path part => simp [Finding.problems, Finding.Passes, ih path part member]

end TrialScript
